import JavaSlice.Proofs.Index
import JavaSlice.Slice.Walk

/-!
# What a registry has found

A registry is seen here through the keys of its nodes, those of them that have been scanned, and its
work list. It is *consistent* if no key has two nodes and the work list holds every node that has
not been scanned once and nothing else. Finding a key and taking a node off the work list both keep
it so.
-/

namespace JavaSlice.Slice

open List Source

namespace Registry

variable {registry : Registry} {key : Key} {number : Nat} {node : Node}

/-- The keys of all nodes, in the order of their discovery. -/
def keys (registry : Registry) : List Key :=
  registry.nodes.map (·.key)

/-- The keys of the nodes that have been taken up for scanning, in the order of their discovery. -/
def scanned (registry : Registry) : List Key :=
  (registry.nodes.filter (·.visited)).map (·.key)

/-- The keys are those of the nodes. -/
theorem mem_keys_iff :
    key ∈ registry.keys ↔
      ∃ (number : Nat) (node : Node), registry.nodes[number]? = some node ∧ node.key = key := by
  rw [keys, mem_map]
  simp only [mem_iff_getElem?]
  constructor
  · rintro ⟨node, ⟨number, found⟩, same⟩
    exact ⟨number, node, found, same⟩
  · rintro ⟨number, node, found, same⟩
    exact ⟨node, ⟨number, found⟩, same⟩

theorem mem_scanned_iff :
    key ∈ registry.scanned ↔ ∃ node ∈ registry.nodes, node.visited ∧ node.key = key := by
  simp only [scanned, mem_map, mem_filter, and_assoc]

theorem scanned_sublist_keys (registry : Registry) : registry.scanned.Sublist registry.keys :=
  filter_sublist.map _

/-- Sorting loses no visited key. -/
theorem mem_visitedKeys_iff : key ∈ registry.visitedKeys ↔ key ∈ registry.scanned := by
  simp only [visitedKeys, Key.sort, mem_mergeSort, scanned]

/-! ## Finding a key -/

/-- A search fails just if the key has no node. -/
theorem find?_eq_none_iff : registry.find? key = none ↔ key ∉ registry.keys := by
  simp only [find?, findIdx?_eq_none_iff, keys, mem_map, not_exists, not_and, beq_eq_false_iff_ne]

/-- A known key changes nothing. -/
theorem intern_of_mem (present : key ∈ registry.keys) : (registry.intern key).2 = registry := by
  unfold intern
  split
  next _ _ => rfl
  next missing => exact absurd present (find?_eq_none_iff.mp missing)

/-- A new key gives a new node that waits to be scanned. -/
theorem intern_of_not_mem (absent : key ∉ registry.keys) :
    (registry.intern key).2 =
      { registry with
        nodes := registry.nodes ++ [.found key]
        workList := registry.nodes.length :: registry.workList } := by
  rw [intern, find?_eq_none_iff.mpr absent]

/-- The registry in which a key has been found, with an edge to it if a node asked for it. -/
def discover (registry : Registry) (source : Option (Nat × EdgeKind)) (key : Key) : Registry :=
  match source with
  | some (origin, kind) =>
    (registry.intern key).2.addEdge origin (registry.intern key).1.1 kind
  | none => (registry.intern key).2

@[simp]
theorem addEdge_nodes (registry : Registry) (source target : Nat) (kind : EdgeKind) :
    (registry.addEdge source target kind).nodes = registry.nodes := by
  unfold addEdge
  split <;> rfl

@[simp]
theorem addEdge_workList (registry : Registry) (source target : Nat) (kind : EdgeKind) :
    (registry.addEdge source target kind).workList = registry.workList := by
  unfold addEdge
  split <;> rfl

@[simp]
theorem addEdge_files (registry : Registry) (source target : Nat) (kind : EdgeKind) :
    (registry.addEdge source target kind).files = registry.files := by
  unfold addEdge
  split <;> rfl

@[simp]
theorem intern_files (registry : Registry) (key : Key) :
    (registry.intern key).2.files = registry.files := by
  unfold intern
  split <;> rfl

section

variable (registry : Registry) (source : Option (Nat × EdgeKind)) (key : Key)

@[simp]
theorem discover_files : (registry.discover source key).files = registry.files := by
  cases source <;> simp [discover]

theorem discover_nodes :
    (registry.discover source key).nodes =
      if key ∈ registry.keys then registry.nodes else registry.nodes ++ [.found key] := by
  have interned : (registry.discover source key).nodes = (registry.intern key).2.nodes := by
    cases source <;> simp [discover]
  rw [interned]
  split
  next present => rw [intern_of_mem present]
  next absent => rw [intern_of_not_mem absent]

theorem discover_workList :
    (registry.discover source key).workList =
      if key ∈ registry.keys then registry.workList
      else registry.nodes.length :: registry.workList := by
  have interned : (registry.discover source key).workList = (registry.intern key).2.workList := by
    cases source <;> simp [discover]
  rw [interned]
  split
  next present => rw [intern_of_mem present]
  next absent => rw [intern_of_not_mem absent]

/-- Finding a key adds it, unless it is known. -/
theorem discover_keys :
    (registry.discover source key).keys =
      if key ∈ registry.keys then registry.keys else registry.keys ++ [key] := by
  rw [keys, discover_nodes]
  split
  next _ => rfl
  next _ => simp [keys, Node.found]

end

theorem mem_keys_discover :
    other ∈ (registry.discover source key).keys ↔ other ∈ registry.keys ∨ other = key := by
  rw [discover_keys]
  split
  next present =>
    constructor
    · exact Or.inl
    · rintro (known | rfl)
      · exact known
      · exact present
  next _ => simp

/-- A key that has just been found has not been scanned. -/
@[simp]
theorem discover_scanned (registry : Registry) (source : Option (Nat × EdgeKind)) (key : Key) :
    (registry.discover source key).scanned = registry.scanned := by
  simp only [scanned, discover_nodes]
  split
  next _ => rfl
  next _ => simp [Node.found]

/-! ## Consistency -/

/-- No key has two nodes, and the work list holds each node that has not been scanned, once. -/
structure Consistent (registry : Registry) : Prop where
  distinct : registry.keys.Nodup
  waitingOnce : registry.workList.Nodup
  waiting : ∀ number, number ∈ registry.workList ↔
    ∃ node, registry.nodes[number]? = some node ∧ node.visited = false

theorem consistent_empty : Consistent empty where
  distinct := nodup_nil
  waitingOnce := nodup_nil
  waiting := by simp [empty]

/-- Finding a key keeps a registry consistent. -/
theorem Consistent.discover (consistent : registry.Consistent) (source : Option (Nat × EdgeKind))
    (key : Key) : (registry.discover source key).Consistent := by
  by_cases present : key ∈ registry.keys
  · refine ⟨?_, ?_, ?_⟩
    · rw [discover_keys, if_pos present]
      exact consistent.distinct
    · rw [discover_workList, if_pos present]
      exact consistent.waitingOnce
    · rw [discover_workList, discover_nodes, if_pos present, if_pos present]
      exact consistent.waiting
  · refine ⟨?_, ?_, ?_⟩
    · rw [discover_keys, if_neg present]
      exact consistent.distinct.append (nodup_singleton key) (by simpa using present)
    · rw [discover_workList, if_neg present, nodup_cons]
      refine ⟨fun mem => ?_, consistent.waitingOnce⟩
      obtain ⟨node, found, -⟩ := (consistent.waiting _).mp mem
      simp at found
    · intro number
      rw [discover_workList, discover_nodes, if_neg present, if_neg present, mem_cons,
        consistent.waiting]
      -- the new number is the one place that the longer list has in addition
      rcases Nat.lt_trichotomy number registry.nodes.length with before | rfl | after
      · simp [getElem?_append_left before, Nat.ne_of_lt before]
      · simp [Node.found]
      · rw [getElem?_eq_none (Nat.le_of_lt after),
          getElem?_eq_none (by simpa using Nat.succ_le_of_lt after)]
        simp [Nat.ne_of_gt after]

/-- A consistent registry without its next node on the work list, which is marked as scanned. -/
def taken (registry : Registry) (number : Nat) (node : Node) (rest : List Nat) : Registry :=
  { registry with workList := rest, nodes :=
    registry.nodes.set number { node with visited := true } }

theorem taken_keys (found : registry.nodes[number]? = some node) (rest : List Nat) :
    (registry.taken number node rest).keys = registry.keys := by
  simp only [keys, taken, map_set]
  apply ext_getElem?
  intro place
  rw [getElem?_set]
  split
  next same =>
    subst same
    obtain ⟨inside, atPlace⟩ := List.getElem?_eq_some_iff.mp found
    simp [inside, atPlace]
  next _ => rfl

/-- Taking up a node adds its key to those that are scanned. -/
theorem mem_scanned_taken (found : registry.nodes[number]? = some node) (rest : List Nat) :
    key ∈ (registry.taken number node rest).scanned ↔ key ∈ registry.scanned ∨ key = node.key := by
  obtain ⟨inside, atPlace⟩ := List.getElem?_eq_some_iff.mp found
  rw [mem_scanned_iff, mem_scanned_iff]
  simp only [taken, mem_iff_getElem?, getElem?_set]
  constructor
  · rintro ⟨other, ⟨place, present⟩, visited, rfl⟩
    split at present
    next _ =>
      rw [Option.some.injEq] at present
      subst present
      exact .inr rfl
    next _ => exact .inl ⟨other, ⟨place, present⟩, visited, rfl⟩
  · rintro (⟨other, ⟨place, present⟩, visited, rfl⟩ | rfl)
    · by_cases same : number = place
      · subst same
        rw [found, Option.some.injEq] at present
        subst present
        exact ⟨{ node with visited := true }, ⟨number, by simp [inside]⟩, rfl, rfl⟩
      · exact ⟨other, ⟨place, by rw [if_neg same, present]⟩, visited, rfl⟩
    · exact ⟨{ node with visited := true }, ⟨number, by simp [inside]⟩, rfl, rfl⟩

section

variable (consistent : registry.Consistent)
include consistent

/-- Taking up the next node keeps a registry consistent. -/
theorem Consistent.taken (next : registry.workList = number :: rest)
    (found : registry.nodes[number]? = some node) :
    (registry.taken number node rest).Consistent := by
  have once := consistent.waitingOnce
  rw [next, nodup_cons] at once
  refine ⟨?_, once.2, ?_⟩
  · rw [taken_keys found]
    exact consistent.distinct
  · intro other
    have waiting := consistent.waiting other
    rw [next, mem_cons] at waiting
    simp only [Registry.taken, getElem?_set]
    by_cases same : number = other
    · subst same
      obtain ⟨inside, -⟩ := List.getElem?_eq_some_iff.mp found
      simp [once.1, inside]
    · rw [if_neg same, ← waiting]
      simp [Ne.symm same]

/-- The next node of a consistent registry is there and has not been scanned. -/
theorem Consistent.next (next : registry.workList = number :: rest) :
    ∃ node, registry.nodes[number]? = some node ∧ node.visited = false := by
  rw [← consistent.waiting, next]
  exact mem_cons_self

/-- A key of a consistent registry has one node. -/
theorem Consistent.not_mem_scanned (found : registry.nodes[number]? = some node)
    (unvisited : node.visited = false) : node.key ∉ registry.scanned := by
  rw [mem_scanned_iff]
  rintro ⟨other, mem, visited, same⟩
  have equal : other = node :=
    inj_on_of_nodup_map consistent.distinct mem (mem_of_getElem? found) same
  simp [equal, unvisited] at visited

/-- With an empty work list every node has been scanned. -/
theorem Consistent.mem_scanned_of_drained (drained : registry.workList = []) :
    key ∈ registry.scanned ↔ key ∈ registry.keys := by
  constructor
  · exact fun mem => (scanned_sublist_keys registry).subset mem
  · intro mem
    obtain ⟨number, node, found, rfl⟩ := mem_keys_iff.mp mem
    refine mem_scanned_iff.mpr ⟨node, mem_of_getElem? found, ?_, rfl⟩
    by_contra unvisited
    have waits := (consistent.waiting number).mpr ⟨node, found, by simpa using unvisited⟩
    simp [drained] at waits

theorem Consistent.scanned_nodup : registry.scanned.Nodup :=
  consistent.distinct.sublist registry.scanned_sublist_keys

end

end Registry

end JavaSlice.Slice
