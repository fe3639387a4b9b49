import JavaSlice.Proofs.Justification

/-!
# Calls on a registry

A registry changes by five calls: a key is interned, an edge is added, the next node is taken off
the work list, a node is marked as visited, the file of a type is made. They may come in any order
and number, as long as they name nodes by numbers that have been given. A *log* holds the calls made
since the registry was empty, the oldest first, each with its answer.

All of the registry but its files can be read off its log. Its keys are those that were new when
they were interned, numbered in that order. Its work list holds the numbers that have not been taken
off yet. Its visited nodes are those that a mark was asked for, and the first mark of each is the
one that was answered with success. Its edges join the pairs that were named in a call, and the last
call for a pair decides the kind. Each of these is kept by one call (`Numbered.call`, `Handed.call`,
`Marks.call`, `Links.call`) and so holds of every log. Keys and edges are listed without repetition
therefore, and in strictly increasing order (`logged_registry_invariant`).
-/

namespace JavaSlice.Slice

open List Option Source

/-- The numbers of the two nodes that an edge joins. -/
def Edge.ends (edge : Edge) : Nat × Nat :=
  (edge.source, edge.target)

namespace Registry

variable {registry next : Registry} {key : Key} {number : Nat} {log : Log}
variable {edges : List Edge}

/-! ## Calls and logs -/

/-- A call on a registry. -/
inductive Call where
  | intern (key : Key)
  | addEdge (source target : Nat) (kind : EdgeKind)
  | pop
  | markVisited (number : Nat)
  | ensureFile (unit : CompilationUnit) (decl : TypeDecl)

/-- What a call answers. -/
inductive Answer where
  /-- The number of a node, and whether the node is new. -/
  | node (number : Nat) (created : Bool)
  /-- The node that was taken off the work list, if any was left. -/
  | next (number : Option Nat)
  /-- Whether a node had not been visited before. -/
  | marked (fresh : Bool)
  /-- Whether a file is new. -/
  | file (created : Bool)
  | done
deriving DecidableEq, Repr

/-- The nodes that a call names are there. -/
def Call.Valid (registry : Registry) : Call → Prop
  | .addEdge source target _ => source < registry.nodeCount ∧ target < registry.nodeCount
  | .markVisited number => number < registry.nodeCount
  | .intern _ | .pop | .ensureFile _ _ => True

instance (registry : Registry) : (call : Call) → Decidable (call.Valid registry)
  | .addEdge source target _ =>
    inferInstanceAs (Decidable (source < registry.nodeCount ∧ target < registry.nodeCount))
  | .markVisited number => inferInstanceAs (Decidable (number < registry.nodeCount))
  | .intern _ | .pop | .ensureFile _ _ => inferInstanceAs (Decidable True)

/-- Makes a call. -/
def call (registry : Registry) : Call → Answer × Registry
  | .intern key =>
    let ((number, created), next) := registry.intern key
    (.node number created, next)
  | .addEdge source target kind => (.done, registry.addEdge source target kind)
  | .pop =>
    let (number, next) := registry.pop
    (.next number, next)
  | .markVisited number =>
    let (fresh, next) := registry.markVisited number
    (.marked fresh, next)
  | .ensureFile unit decl =>
    let (created, next) := registry.ensureFile unit decl
    (.file created, next)

/-- Calls with their answers, the oldest first. -/
abbrev Log := List (Call × Answer)

/-- The registries that calls lead to, each with the log of these calls. -/
inductive Logged : Log → Registry → Prop where
  | start : Logged [] .empty
  | call {log : Log} {registry : Registry} (call : Call) :
      Logged log registry → call.Valid registry →
        Logged (log ++ [(call, (registry.call call).1)]) (registry.call call).2

namespace Log

/-- The keys that were new when they were interned, with the numbers of their nodes. -/
def discoveries (log : Log) : List (Key × Nat) :=
  log.filterMap fun
    | (.intern key, .node number true) => some (key, number)
    | _ => none

/-- The numbers that were taken off the work list. -/
def taken (log : Log) : List Nat :=
  log.filterMap fun
    | (.pop, .next number) => number
    | _ => none

/-- The numbers whose mark was answered with success. -/
def marked (log : Log) : List Nat :=
  log.filterMap fun
    | (.markVisited number, .marked true) => some number
    | _ => none

/-- The kind that a call gives to the edge between two nodes, if it is about that edge. -/
def givenKind? (source target : Nat) : Call × Answer → Option EdgeKind
  | (.addEdge origin goal kind, _) => if origin = source ∧ goal = target then some kind else none
  | _ => none

/-- The kind that was given last to the edge between two nodes. -/
def lastKind? (log : Log) (source target : Nat) : Option EdgeKind :=
  log.reverse.findSome? (givenKind? source target)

theorem discoveries_append (log more : Log) :
    discoveries (log ++ more) = log.discoveries ++ discoveries more :=
  filterMap_append

theorem taken_append (log more : Log) : taken (log ++ more) = log.taken ++ taken more :=
  filterMap_append

theorem marked_append (log more : Log) : marked (log ++ more) = log.marked ++ marked more :=
  filterMap_append

theorem lastKind?_append (log : Log) (entry : Call × Answer) (source target : Nat) :
    lastKind? (log ++ [entry]) source target =
      (givenKind? source target entry).or (log.lastKind? source target) := by
  rw [lastKind?, reverse_append, reverse_singleton, singleton_append, findSome?_cons]
  cases givenKind? source target entry <;> rfl

end Log

/-! ## Numbers and keys -/

/-- A key is found at its place among the keys. -/
theorem find?_eq_some_iff (distinct : registry.keys.Nodup) :
    registry.find? key = some number ↔ registry.keys[number]? = some key := by
  rw [find?, findIdx?_eq_some_iff_getElem, keys, getElem?_map, map_eq_some_iff]
  constructor
  · rintro ⟨inside, same, -⟩
    exact ⟨_, getElem?_eq_getElem inside, beq_iff_eq.mp same⟩
  · rintro ⟨node, found, rfl⟩
    obtain ⟨inside, rfl⟩ := List.getElem?_eq_some_iff.mp found
    refine ⟨inside, beq_self_eq_true _, fun earlier before same => ?_⟩
    -- a node of the same key before this one would be a second node of the key
    have sameKey : registry.keys[earlier]? = registry.keys[number]? := by
      rw [keys, getElem?_map, getElem?_map, found, getElem?_eq_getElem (before.trans inside),
        map_some, map_some, beq_iff_eq.mp same]
    have isInside : earlier < registry.keys.length := by
      rw [keys, length_map]
      exact before.trans inside
    exact Nat.ne_of_lt before ((getElem?_inj isInside distinct).mp sameKey)

theorem keys_length (registry : Registry) : registry.keys.length = registry.nodeCount :=
  length_map _

theorem call_intern_of_known (known : registry.find? key = some number) :
    registry.call (.intern key) = (.node number false, registry) := by
  simp only [Registry.call, Registry.intern, known]

theorem call_intern_of_new (new : registry.find? key = none) :
    registry.call (.intern key) =
      (.node registry.nodeCount true,
        { registry with
          nodes := registry.nodes ++ [.found key]
          workList := registry.nodeCount :: registry.workList }) := by
  simp only [Registry.call, Registry.intern, new]
  rfl

theorem markVisited_keys (registry : Registry) (number : Nat) :
    (registry.markVisited number).2.keys = registry.keys := by
  unfold markVisited
  split
  next _ => rfl
  next node found => exact taken_keys found registry.workList

/-- No call but `intern` changes the keys. -/
theorem call_keys {call} (other : ∀ key, call ≠ .intern key) :
    (registry.call call).2.keys = registry.keys := by
  cases call with
  | intern key => exact absurd rfl (other key)
  | addEdge source target kind => rw [Registry.call, keys, addEdge_nodes, keys]
  | pop =>
    change registry.pop.2.keys = _
    rw [pop]
    split <;> rfl
  | markVisited number => exact registry.markVisited_keys number
  | ensureFile unit decl =>
    change (registry.ensureFile unit decl).2.keys = _
    rw [ensureFile]
    split <;> rfl

/-- The keys are those that were new when they were interned, numbered in that order, and the number
of a key is the one that was answered whenever it was interned. -/
structure Numbered (log : Log) (registry : Registry) : Prop where
  distinct : registry.keys.Nodup
  discoveries : log.discoveries = registry.keys.zipIdx
  answers : ∀ key number created, (.intern key, .node number created) ∈ log →
    registry.keys[number]? = some key

theorem numbered_start : Numbered [] empty where
  distinct := nodup_nil
  discoveries := rfl
  answers := fun _ _ _ mem => nomatch mem

section

variable (numbered : Numbered log registry)
include numbered

/-- A call that interns nothing and leaves the keys as they are. -/
theorem Numbered.other {call} (answer : Answer)
    (other : ∀ key, call ≠ .intern key) (keys : next.keys = registry.keys) :
    Numbered (log ++ [(call, answer)]) next where
  distinct := keys ▸ numbered.distinct
  discoveries := by
    have nothing : Log.discoveries [(call, answer)] = [] := by
      cases call with
      | intern key => exact absurd rfl (other key)
      | addEdge | pop | markVisited | ensureFile => rfl
    rw [Log.discoveries_append, nothing, append_nil, keys, numbered.discoveries]
  answers := by
    intro key number created mem
    rw [keys]
    rcases mem_append.mp mem with earlier | last
    · exact numbered.answers key number created earlier
    · obtain ⟨isCall, -⟩ := Prod.mk.inj (mem_singleton.mp last)
      exact absurd isCall.symm (other key)

/-- Interning a key keeps the numbers of all keys. -/
theorem Numbered.intern (key : Key) :
    Numbered (log ++ [(.intern key, (registry.call (.intern key)).1)])
      (registry.call (.intern key)).2 := by
  cases known : registry.find? key with
  | some number =>
    rw [call_intern_of_known known]
    refine ⟨numbered.distinct, ?_, ?_⟩
    · rw [Log.discoveries_append, numbered.discoveries]
      exact append_nil _
    · intro other place created mem
      rcases mem_append.mp mem with earlier | last
      · exact numbered.answers other place created earlier
      · cases mem_singleton.mp last
        exact (find?_eq_some_iff numbered.distinct).mp known
  | none =>
    have answer : (registry.call (.intern key)).1 = .node registry.nodeCount true := by
      rw [call_intern_of_new known]
    have keys : (registry.call (.intern key)).2.keys = registry.keys ++ [key] := by
      rw [call_intern_of_new known]
      exact map_append
    rw [answer]
    refine ⟨?_, ?_, ?_⟩
    · rw [keys]
      exact numbered.distinct.append (nodup_singleton key)
        (by simpa using find?_eq_none_iff.mp known)
    · rw [Log.discoveries_append, numbered.discoveries, keys, zipIdx_append, Nat.zero_add,
        keys_length]
      rfl
    · intro other place created mem
      rw [keys]
      rcases mem_append.mp mem with earlier | last
      · have found := numbered.answers other place created earlier
        obtain ⟨inside, -⟩ := List.getElem?_eq_some_iff.mp found
        rw [getElem?_append_left inside, found]
      · cases mem_singleton.mp last
        rw [← keys_length]
        exact getElem?_concat_length

/-- One call keeps the numbers of all keys. -/
theorem Numbered.call (call : Call) :
    Numbered (log ++ [(call, (registry.call call).1)]) (registry.call call).2 := by
  cases call with
  | intern key => exact numbered.intern key
  | addEdge | pop | markVisited | ensureFile =>
    exact numbered.other _ (by simp) (call_keys (by simp))

end

/-! ## The work list -/

/-- Every number has been taken off the work list once, or waits on it once. -/
def Handed (log : Log) (registry : Registry) : Prop :=
  (log.taken ++ registry.workList).Perm (List.range registry.nodeCount)

/-- A call that takes no number off and leaves the work list and the number of nodes as they are. -/
theorem Handed.other (handed : Handed log registry) {call} (answer : Answer) (other : call ≠ .pop)
    (workList : next.workList = registry.workList) (count : next.nodeCount = registry.nodeCount) :
    Handed (log ++ [(call, answer)]) next := by
  have nothing : Log.taken [(call, answer)] = [] := by
    cases call with
    | pop => exact absurd rfl other
    | intern | addEdge | markVisited | ensureFile => rfl
  rwa [Handed, Log.taken_append, nothing, append_nil, workList, count]

/-- One call hands out no number twice and loses none. -/
theorem Handed.call (handed : Handed log registry) (call : Call) :
    Handed (log ++ [(call, (registry.call call).1)]) (registry.call call).2 := by
  cases call with
  | intern key =>
    cases known : registry.find? key with
    | some number =>
      rw [call_intern_of_known known]
      exact handed.other _ (by simp) rfl rfl
    | none =>
      rw [call_intern_of_new known, Handed, Log.taken_append]
      show (log.taken ++ [] ++ registry.nodeCount :: registry.workList).Perm
        (List.range (registry.nodes ++ [Node.found key]).length)
      rw [append_nil, length_append, length_singleton, range_succ]
      exact perm_middle.trans ((Perm.cons _ handed).trans (perm_append_singleton _ _).symm)
  | pop =>
    rw [Handed] at handed
    rw [Handed, Log.taken_append, append_assoc]
    cases waits : registry.workList with
    | nil =>
      rw [waits] at handed
      simp only [Registry.call, Registry.pop, waits]
      exact handed
    | cons number rest =>
      rw [waits] at handed
      simp only [Registry.call, Registry.pop, waits]
      exact handed
  | addEdge source target kind =>
    refine handed.other _ (by simp) (addEdge_workList ..) ?_
    rw [nodeCount, Registry.call, addEdge_nodes, nodeCount]
  | markVisited number =>
    refine handed.other _ (by simp) ?_ ?_
    · simp only [Registry.call, Registry.markVisited]
      split <;> rfl
    · rw [← keys_length, ← keys_length]
      exact congrArg List.length (registry.markVisited_keys number)
  | ensureFile unit decl =>
    refine handed.other _ (by simp) ?_ ?_ <;>
    · simp only [Registry.call, Registry.ensureFile]
      split <;> rfl

/-! ## Marks -/

/-- The visited nodes are those that a mark was asked for, and one mark of each was answered with
success. -/
structure Marks (log : Log) (registry : Registry) : Prop where
  once : log.marked.Nodup
  asked : ∀ number, number ∈ log.marked ↔ ∃ answer, (.markVisited number, answer) ∈ log
  inside : ∀ number ∈ log.marked, number < registry.nodeCount
  visited : ∀ number node, registry.nodes[number]? = some node →
    (node.visited = true ↔ number ∈ log.marked)

theorem marks_start : Marks [] empty where
  once := nodup_nil
  asked := fun number => by simp [Log.marked]
  inside := fun _ mem => nomatch mem
  visited := fun _ _ found => nomatch found

/-- A call that marks no node and adds unvisited nodes at most. -/
theorem Marks.other (marks : Marks log registry) {call} (answer : Answer)
    (other : ∀ number, call ≠ .markVisited number) (more : List Node)
    (nodes : next.nodes = registry.nodes ++ more)
    (unvisited : ∀ node ∈ more, node.visited = false) : Marks (log ++ [(call, answer)]) next := by
  have marked : Log.marked (log ++ [(call, answer)]) = log.marked := by
    have nothing : Log.marked [(call, answer)] = [] := by
      cases call with
      | markVisited number => exact absurd rfl (other number)
      | intern | addEdge | pop | ensureFile => rfl
    rw [Log.marked_append, nothing, append_nil]
  refine ⟨marked ▸ marks.once, ?_, ?_, ?_⟩
  · intro number
    rw [marked, marks.asked]
    simp [Ne.symm (other number)]
  · intro number mem
    rw [marked] at mem
    rw [nodeCount, nodes, length_append]
    exact Nat.lt_add_right _ (marks.inside number mem)
  · intro number node found
    rw [marked]
    rw [nodes, getElem?_append] at found
    split at found
    next _ => exact marks.visited number node found
    next beyond =>
      have new := unvisited node (mem_of_getElem? found)
      refine iff_of_false (by simp [new]) fun mem => beyond (marks.inside number mem)

theorem Marks.markVisited (marks : Marks log registry) (valid : number < registry.nodeCount) :
    Marks (log ++ [(.markVisited number, (registry.call (.markVisited number)).1)])
      (registry.call (.markVisited number)).2 := by
  obtain ⟨node, found⟩ : ∃ node, registry.nodes[number]? = some node :=
    ⟨_, getElem?_eq_getElem valid⟩
  have made : registry.call (.markVisited number) =
      (.marked (!node.visited), registry.taken number node registry.workList) := by
    simp only [Registry.call, Registry.markVisited, found, Node.mark]
    rfl
  have fresh : node.visited = false ↔ number ∉ log.marked := by
    rw [← marks.visited number node found, Bool.not_eq_true]
  -- the mark is answered with success unless the number is one of those already
  have marked : Log.marked (log ++ [(.markVisited number, .marked !node.visited)]) =
      log.marked ++ if number ∈ log.marked then [] else [number] := by
    rw [Log.marked_append]
    cases visited : node.visited with
    | true => rw [if_pos ((marks.visited number node found).mp visited)]; rfl
    | false => rw [if_neg (fresh.mp visited)]; rfl
  have mem : ∀ other, other ∈ Log.marked (log ++ [(.markVisited number, .marked !node.visited)]) ↔
      other ∈ log.marked ∨ other = number := by
    intro other
    rw [marked]
    split
    next already =>
      rw [append_nil, or_iff_left_of_imp]
      rintro rfl
      exact already
    next _ => simp
  rw [made]
  refine ⟨?_, ?_, ?_, ?_⟩
  · rw [marked]
    split
    next _ => simpa using marks.once
    next new => exact marks.once.append (nodup_singleton number) (by simpa using new)
  · intro other
    simp only [mem, marks.asked, mem_append, mem_singleton, Prod.mk.injEq, Call.markVisited.injEq,
      exists_or]
    refine or_congr_right ⟨?_, ?_⟩
    · rintro rfl
      exact ⟨_, rfl, rfl⟩
    · rintro ⟨_, same, -⟩
      exact same
  · intro other membership
    have inside : other < registry.nodeCount := by
      rcases (mem other).mp membership with earlier | rfl
      · exact marks.inside other earlier
      · exact valid
    simpa [taken, nodeCount] using inside
  · intro other place present
    rw [mem]
    simp only [taken, getElem?_set] at present
    split at present
    next same =>
      subst same
      rw [if_pos (show number < registry.nodes.length from valid), some.injEq] at present
      subst present
      simp
    next different =>
      rw [marks.visited other place present, or_iff_left (Ne.symm different)]

/-- One call keeps every mark, and answers with success for a node that had none. -/
theorem Marks.call (marks : Marks log registry) {call} (valid : call.Valid registry) :
    Marks (log ++ [(call, (registry.call call).1)]) (registry.call call).2 := by
  cases call with
  | intern key =>
    cases known : registry.find? key with
    | some number =>
      rw [call_intern_of_known known]
      exact marks.other _ (by simp) [] (append_nil _).symm (forall_mem_nil _)
    | none =>
      rw [call_intern_of_new known]
      refine marks.other _ (by simp) [.found key] rfl ?_
      simp [Node.found]
  | addEdge source target kind =>
    exact marks.other _ (by simp) [] ((addEdge_nodes ..).trans (append_nil _).symm)
      (forall_mem_nil _)
  | pop =>
    refine marks.other _ (by simp) [] ?_ (forall_mem_nil _)
    simp only [Registry.call, Registry.pop, append_nil]
    split <;> rfl
  | markVisited number => exact marks.markVisited valid
  | ensureFile unit decl =>
    refine marks.other _ (by simp) [] ?_ (forall_mem_nil _)
    simp only [Registry.call, Registry.ensureFile, append_nil]
    split <;> rfl

/-! ## Edges -/

/-- An edge replaces the one between the same nodes. -/
theorem mem_putEdge_iff (once : (edges.map Edge.ends).Nodup) (edge other : Edge) :
    other ∈ putEdge edges edge ↔ other = edge ∨ other ∈ edges ∧ other.ends ≠ edge.ends := by
  induction edges with
  | nil => simp [putEdge]
  | cons first rest ih =>
    rw [map_cons, nodup_cons] at once
    have same : (first.source == edge.source && first.target == edge.target) = true ↔
        first.ends = edge.ends := by
      rw [Bool.and_eq_true, beq_iff_eq, beq_iff_eq, Edge.ends, Edge.ends, Prod.mk.injEq]
    rw [putEdge]
    split
    next equal =>
      have ends := same.mp equal
      rw [mem_cons, mem_cons]
      refine or_congr_right ⟨fun later => ⟨.inr later, fun again => ?_⟩, ?_⟩
      · exact once.1 (ends ▸ again ▸ List.mem_map_of_mem later)
      · rintro ⟨rfl | later, different⟩
        · exact absurd ends different
        · exact later
    next different =>
      rw [mem_cons, mem_cons, ih once.2]
      constructor
      · rintro (rfl | rfl | ⟨later, apart⟩)
        · exact .inr ⟨.inl rfl, mt same.mpr different⟩
        · exact .inl rfl
        · exact .inr ⟨.inr later, apart⟩
      · rintro (rfl | ⟨rfl | later, apart⟩)
        · exact .inr (.inl rfl)
        · exact .inl rfl
        · exact .inr (.inr ⟨later, apart⟩)

theorem ends_putEdge_nodup (once : (edges.map Edge.ends).Nodup) (edge : Edge) :
    ((putEdge edges edge).map Edge.ends).Nodup := by
  induction edges with
  | nil => exact nodup_singleton _
  | cons first rest ih =>
    rw [map_cons, nodup_cons] at once
    rw [putEdge]
    split
    next same =>
      rw [Bool.and_eq_true, beq_iff_eq, beq_iff_eq] at same
      have ends : edge.ends = first.ends := Prod.ext same.1.symm same.2.symm
      rw [map_cons, ends]
      exact nodup_cons.mpr once
    next different =>
      refine nodup_cons.mpr ⟨fun again => ?_, ih once.2⟩
      obtain ⟨other, mem, same⟩ := List.mem_map.mp again
      rcases (mem_putEdge_iff once.2 edge other).mp mem with rfl | ⟨later, -⟩
      · rw [Edge.ends, Edge.ends, Prod.mk.injEq] at same
        simp [same.1, same.2] at different
      · exact once.1 (same ▸ List.mem_map_of_mem later)

/-- The edges join pairs of different nodes, each pair once, and have the kinds that were given
last. -/
structure Links (log : Log) (registry : Registry) : Prop where
  once : (registry.edges.map Edge.ends).Nodup
  inside : registry.EdgesInside
  kinds : ∀ source target kind, (⟨source, target, kind⟩ : Edge) ∈ registry.edges ↔
    source ≠ target ∧ log.lastKind? source target = some kind

theorem links_start : Links [] empty where
  once := nodup_nil
  inside := fun _ mem => nomatch mem
  kinds := by simp [empty, Log.lastKind?]

/-- A call that adds no edge and loses no node. -/
theorem Links.other (links : Links log registry) {call} (answer : Answer)
    (other : ∀ source target kind, call ≠ .addEdge source target kind)
    (edges : next.edges = registry.edges) (count : registry.nodeCount ≤ next.nodeCount) :
    Links (log ++ [(call, answer)]) next where
  once := edges ▸ links.once
  inside := by
    intro edge mem
    rw [edges] at mem
    obtain ⟨source, target⟩ := links.inside edge mem
    exact ⟨Nat.lt_of_lt_of_le source count, Nat.lt_of_lt_of_le target count⟩
  kinds := by
    intro source target kind
    have nothing : Log.givenKind? source target (call, answer) = none := by
      cases call with
      | addEdge origin goal kind => exact absurd rfl (other origin goal kind)
      | intern | pop | markVisited | ensureFile => rfl
    rw [edges, links.kinds, Log.lastKind?_append, nothing, none_or]

theorem Links.addEdge (links : Links log registry)
    (valid : origin < registry.nodeCount ∧ goal < registry.nodeCount) :
    Links (log ++ [(.addEdge origin goal given, .done)]) (registry.addEdge origin goal given) := by
  have last : ∀ source target, Log.lastKind? (log ++ [(.addEdge origin goal given, .done)]) source
      target =
      if origin = source ∧ goal = target then some given else log.lastKind? source target := by
    intro source target
    rw [Log.lastKind?_append, Log.givenKind?]
    split <;> rfl
  by_cases loop : origin = goal
  · have same : registry.addEdge origin goal given = registry := by
      rw [Registry.addEdge, if_pos (beq_iff_eq.mpr loop)]
    rw [same]
    refine ⟨links.once, links.inside, fun source target kind => ?_⟩
    rw [links.kinds, last]
    refine and_congr_right fun different => ?_
    rw [if_neg]
    rintro ⟨rfl, rfl⟩
    exact different loop
  · have edges : (registry.addEdge origin goal given).edges =
        putEdge registry.edges ⟨origin, goal, given⟩ := by
      rw [Registry.addEdge, if_neg (mt beq_iff_eq.mp loop)]
    have count : (registry.addEdge origin goal given).nodeCount = registry.nodeCount := by
      rw [nodeCount, addEdge_nodes, nodeCount]
    refine ⟨?_, ?_, ?_⟩
    · rw [edges]
      exact ends_putEdge_nodup links.once _
    · intro edge mem
      rw [edges] at mem
      rw [count]
      rcases mem_putEdge mem with earlier | rfl
      · exact links.inside edge earlier
      · exact valid
    · intro source target kind
      rw [edges, mem_putEdge_iff links.once, last, links.kinds, Edge.mk.injEq]
      simp only [Edge.ends, Ne, Prod.mk.injEq]
      by_cases about : origin = source ∧ goal = target
      · obtain ⟨rfl, rfl⟩ := about
        simp [loop, eq_comm]
      · have apart : ¬(source = origin ∧ target = goal) :=
          fun same => about ⟨same.1.symm, same.2.symm⟩
        rw [if_neg about]
        tauto

/-- One call keeps the edges, but for the kind that it gives to one of them. -/
theorem Links.call (links : Links log registry) {call} (valid : call.Valid registry) :
    Links (log ++ [(call, (registry.call call).1)]) (registry.call call).2 := by
  cases call with
  | intern key =>
    refine links.other _ (by simp) (registry.intern_edges key) ?_
    exact registry.nodeCount_le_discover none key
  | addEdge source target kind => exact links.addEdge valid
  | pop =>
    refine links.other _ (by simp) ?_ (Nat.le_of_eq ?_) <;>
    · simp only [Registry.call, Registry.pop]
      split <;> rfl
  | markVisited number =>
    refine links.other _ (by simp) ?_ (Nat.le_of_eq ?_)
    · simp only [Registry.call, Registry.markVisited]
      split <;> rfl
    · rw [← keys_length, ← keys_length]
      exact (congrArg List.length (registry.markVisited_keys number)).symm
  | ensureFile unit decl =>
    refine links.other _ (by simp) ?_ (Nat.le_of_eq ?_) <;>
    · simp only [Registry.call, Registry.ensureFile]
      split <;> rfl

/-! ## Listings -/

/-- The order of edges by the keys of their ends. -/
def compareEnds (first second : Key × Key × EdgeKind) : Ordering :=
  (first.1.compare second.1).then (first.2.1.compare second.2.1)

end Registry

/-- Sorted keys increase strictly if they are distinct. -/
theorem Key.sort_strict {keys} (distinct : keys.Nodup) :
    (Key.sort keys).Pairwise fun first second => first.compare second = .lt := by
  have := Key.transCmp_compare
  have : Std.LawfulEqCmp Key.compare := { eq_of_compare := Key.eq_of_compare }
  exact pairwise_lt_mergeSort Key.compare distinct

namespace Registry

variable {registry : Registry}
variable {source target : Key} {kind : EdgeKind}

theorem orders_edgeLe : Orders edgeLe := by
  have := Key.transCmp_compare
  have sources : Std.TransCmp fun first second : Key × Key × EdgeKind => first.1.compare second.1 :=
    { eq_swap := Std.OrientedCmp.eq_swap, isLE_trans := Std.TransCmp.isLE_trans }
  have targets : Std.TransCmp fun first second : Key × Key × EdgeKind =>
      first.2.1.compare second.2.1 :=
    { eq_swap := Std.OrientedCmp.eq_swap, isLE_trans := Std.TransCmp.isLE_trans }
  exact orders_of_transCmp <|
    compareLex (fun first second : Key × Key × EdgeKind => first.1.compare second.1) <|
      compareLex (fun first second => first.2.1.compare second.2.1)
        (compareOn fun edge => edge.2.2.name)

theorem edgeKeys?_eq_some_iff :
    registry.edgeKeys? edge = some (source, target, kind) ↔
      registry.keys[edge.source]? = some source ∧ registry.keys[edge.target]? = some target ∧
        edge.kind = kind := by
  simp only [edgeKeys?, keys, getElem?_map, map_eq_some_iff, bind,
    bind_eq_some_iff, pure, some.injEq, Prod.mk.injEq]
  constructor
  · rintro ⟨first, isFirst, second, isSecond, rfl, rfl, rfl⟩
    exact ⟨⟨first, isFirst, rfl⟩, ⟨second, isSecond, rfl⟩, rfl⟩
  · rintro ⟨⟨first, isFirst, rfl⟩, ⟨second, isSecond, rfl⟩, rfl⟩
    exact ⟨first, isFirst, second, isSecond, rfl, rfl, rfl⟩

/-- The list of edges shows all edges between nodes. -/
theorem mem_edgeList_iff :
    (source, target, kind) ∈ registry.edgeList ↔ ∃ edge ∈ registry.edges,
      registry.keys[edge.source]? = some source ∧ registry.keys[edge.target]? = some target ∧
        edge.kind = kind := by
  simp only [edgeList, mem_mergeSort, mem_filterMap, edgeKeys?_eq_some_iff]

/-- Edges between different pairs of nodes join different pairs of keys. -/
theorem edgeKeys_distinct (distinct : registry.keys.Nodup)
    (once : (registry.edges.map Edge.ends).Nodup) :
    ((registry.edges.filterMap registry.edgeKeys?).map fun edge => (edge.1, edge.2.1)).Nodup := by
  have number : ∀ {first second : Nat} {key : Key}, registry.keys[first]? = some key →
      registry.keys[second]? = some key → first = second := by
    intro first second key isFirst isSecond
    obtain ⟨inside, -⟩ := List.getElem?_eq_some_iff.mp isFirst
    exact (getElem?_inj inside distinct).mp (isFirst.trans isSecond.symm)
  rw [List.Nodup, pairwise_map, pairwise_filterMap]
  refine (pairwise_map.mp once).imp ?_
  rintro first second apart ⟨source, target, kind⟩ isFirst ⟨otherSource, otherTarget, otherKind⟩
    isSecond same
  obtain ⟨firstSource, firstTarget, -⟩ := edgeKeys?_eq_some_iff.mp isFirst
  obtain ⟨secondSource, secondTarget, -⟩ := edgeKeys?_eq_some_iff.mp isSecond
  obtain ⟨rfl, rfl⟩ := Prod.mk.inj same
  exact apart (Prod.ext (number firstSource secondSource) (number firstTarget secondTarget))

/-- The edges are listed in strictly increasing order of their ends. -/
theorem edgeList_strict (distinct : registry.keys.Nodup)
    (once : (registry.edges.map Edge.ends).Nodup) :
    registry.edgeList.Pairwise fun first second => compareEnds first second = .lt := by
  have sorted := pairwise_mergeSort orders_edgeLe.trans orders_edgeLe.total
    (registry.edges.filterMap registry.edgeKeys?)
  have perm := (mergeSort_perm (registry.edges.filterMap registry.edgeKeys?) edgeLe).map fun edge =>
    (edge.1, edge.2.1)
  have apart := pairwise_map.mp (perm.nodup_iff.mpr (edgeKeys_distinct distinct once))
  refine (sorted.and apart).imp ?_
  rintro first second ⟨before, different⟩
  rw [edgeLe] at before
  rw [compareEnds]
  cases sources : first.1.compare second.1 with
  | lt => rfl
  | gt => simp [sources] at before
  | eq =>
    cases targets : first.2.1.compare second.2.1 with
    | lt => rfl
    | gt => simp [sources, targets] at before
    | eq =>
      exact absurd (Prod.mk.injEq .. ▸ ⟨Key.eq_of_compare sources, Key.eq_of_compare targets⟩)
        different

/-! ## All calls -/

/-- What the log of a registry says about its nodes and edges. -/
structure Ledger (log : Log) (registry : Registry) : Prop where
  numbered : Numbered log registry
  handed : Handed log registry
  marks : Marks log registry
  links : Links log registry

/-- What one call keeps holds of every log. -/
theorem Logged.ledger (logged : Logged log registry) : Ledger log registry := by
  induction logged with
  | start => exact ⟨numbered_start, .nil, marks_start, links_start⟩
  | call call _ valid ih =>
    exact ⟨ih.numbered.call call, ih.handed.call call, ih.marks.call valid,
      ih.links.call valid⟩

/-- Whatever calls have been made on a registry, in whatever order:

* numbers and keys are in bijection, the numbers `0, 1, 2, …` are given in the order of discovery,
  and a number that was answered for a key is its number for good;
* every number has been taken off the work list once, or waits there once;
* the nodes that were ever marked are visited, no others, and one mark of each was answered with
  success;
* edges join pairs of different nodes, at most one edge each, with the kind that was given last;
* visited keys and edges are listed in strictly increasing order. -/
theorem logged_registry_invariant {log : Log} {registry : Registry} (logged : Logged log registry) :
    ((∀ key number, registry.find? key = some number ↔
        ∃ node, registry.nodes[number]? = some node ∧ node.key = key) ∧
      registry.keys.Nodup ∧ log.discoveries = registry.keys.zipIdx ∧
      ∀ key number created, (.intern key, .node number created) ∈ log →
        registry.find? key = some number) ∧
    (log.taken ++ registry.workList).Perm (List.range registry.nodeCount) ∧
    ((∀ number node, registry.nodes[number]? = some node →
      (node.visited = true ↔ number ∈ log.marked)) ∧
      (∀ number, number ∈ log.marked ↔ ∃ answer, (.markVisited number, answer) ∈ log) ∧
        log.marked.Nodup) ∧
    (registry.EdgesInside ∧ (registry.edges.map Edge.ends).Nodup ∧
      ∀ source target kind, (⟨source, target, kind⟩ : Edge) ∈ registry.edges ↔
        source ≠ target ∧ log.lastKind? source target = some kind) ∧
    (registry.visitedKeys.Pairwise (fun first second => first.compare second = .lt) ∧
      ∀ key, key ∈ registry.visitedKeys ↔ ∃ node ∈ registry.nodes, node.visited = true ∧
        node.key = key) ∧
    registry.edgeList.Pairwise (fun first second => compareEnds first second = .lt) ∧
      ∀ source target kind, (source, target, kind) ∈ registry.edgeList ↔ ∃ edge ∈ registry.edges,
        registry.keys[edge.source]? = some source ∧ registry.keys[edge.target]? = some target ∧
          edge.kind = kind := by
  obtain ⟨numbered, handed, marks, links⟩ := logged.ledger
  have distinct := numbered.distinct
  refine ⟨⟨?_, distinct, numbered.discoveries, ?_⟩, handed,
    ⟨marks.visited, marks.asked, marks.once⟩,
    ⟨links.inside, links.once, links.kinds⟩, ⟨?_, ?_⟩, edgeList_strict distinct links.once,
    fun _ _ _ => mem_edgeList_iff⟩
  · intro key number
    rw [find?_eq_some_iff distinct, keys, getElem?_map, map_eq_some_iff]
  · intro key number created answered
    exact (find?_eq_some_iff distinct).mpr (numbered.answers key number created answered)
  · exact Key.sort_strict (distinct.sublist registry.scanned_sublist_keys)
  · intro key
    rw [mem_visitedKeys_iff, mem_scanned_iff]

/-- A key that is interned twice, an edge that is given two kinds, a loop, and a node that is marked
twice. -/
theorem two_nodes_registry_invariant :
    ∃ log registry, Logged log registry ∧
      log.discoveries = [(.type "Ping", 0), (.field "Ping" "left", 1)] ∧
      log.taken = [1] ∧ registry.workList = [0] ∧ log.marked = [1] ∧
        registry.edges = [⟨0, 1, .member⟩] ∧
      (log.taken ++ registry.workList).Perm (List.range registry.nodeCount) ∧
      (∀ source target kind, (⟨source, target, kind⟩ : Edge) ∈ registry.edges ↔
        source ≠ target ∧ log.lastKind? source target = some kind) ∧
      registry.visitedKeys.Pairwise fun first second => first.compare second = .lt := by
  have logged : Logged _ _ :=
    .call (.markVisited 1)
      (.call (.markVisited 1) (.call .pop (.call (.addEdge 1 1 .call) (.call (.addEdge 0 1 .member)
      (.call (.addEdge 0 1 .call)
        (.call (.intern (.type "Ping")) (.call (.intern (.field "Ping" "left"))
        (.call (.intern (.type "Ping")) .start trivial) trivial) trivial) (by decide)) (by decide))
          (by decide)) trivial)
      (by decide)) (by decide)
  have holds := logged_registry_invariant logged
  exact ⟨_, _, logged, rfl, rfl, rfl, rfl, rfl, holds.2.1, holds.2.2.2.1.2.2, holds.2.2.2.2.1.1⟩

end Registry

end JavaSlice.Slice
