import JavaSlice.Proofs.Hierarchy
import Mathlib.Data.List.Induction
import Mathlib.Logic.Relation

/-!
# What a type inherits, and in which order

A type inherits from the types that its header names and from all that these inherit
(`Index.Inherits`). The search through supertypes meets exactly these types, on every hierarchy
(`Index.mem_lineage_iff`). It never looks twice at a type, and what it passes over for that reason
has been looked at before or is still on the stack.

The order is that of a depth-first search. A way from a type upwards is given by its turns, the
places of the supertypes that it takes one after the other (`Index.climb?`). One way comes before
another if it is the beginning of it or turns off further left where the two part (`Precedes`). Of
all types with a property, the search meets that one first to which the first way leads, among the
ways that pass no type twice (`Index.firstAbove_of_find?`). Ways that pass a type twice have to be
left out: on a cycle there may be no first one among them.
-/

namespace JavaSlice

open List Source Slice

namespace Index

variable {index : Index} {decl : TypeDecl}
variable {lower upper : TypeDecl} {seen : List String} {stack visited : List TypeDecl}

/-! ## Inherited types -/

/-- The header of one type names the other. -/
def Extends (index : Index) (lower upper : TypeDecl) : Prop :=
  upper ∈ index.supertypes lower

/-- One type is the other, or a supertype of it at any distance. -/
def Inherits (index : Index) (lower upper : TypeDecl) : Prop :=
  Relation.ReflTransGen index.Extends lower upper

/-- The index has the type under its own name. -/
def Knows (index : Index) (decl : TypeDecl) : Prop :=
  index.typeDecl? decl.qualifiedName = some decl

theorem Named.knows (named : index.Named) (present : index.typeDecl? name = some decl) :
    index.Knows decl := by
  rw [Knows, named name decl present, present]

theorem Named.knows_of_extends (named : index.Named) (extension : index.Extends lower upper) :
    index.Knows upper := by
  obtain ⟨name, present⟩ := typeDecl?_of_mem_supertypes extension
  exact named.knows present

/-- What is inherited from is indexed. -/
theorem Named.knows_of_inherits (named : index.Named) (known : index.Knows lower)
    (inherits : index.Inherits lower upper) : index.Knows upper := by
  cases inherits with
  | refl => exact known
  | tail _ last => exact named.knows_of_extends last

/-- A name tells the types of an index apart. -/
theorem Knows.eq_of_name (known : index.Knows decl) (otherKnown : index.Knows other)
    (same : decl.qualifiedName = other.qualifiedName) : decl = other := by
  rw [Knows, same, otherKnown] at known
  exact (Option.some.inj known).symm

/-! ## Completeness -/

/-- What a search visits is inherited from the stack. -/
theorem Searches.inherits (search : Searches index seen stack visited) :
    ∀ type ∈ visited, ∃ decl ∈ stack, index.Inherits decl type := by
  induction search with
  | done => simp
  | skip _ _ ih =>
    intro type mem
    obtain ⟨decl, onStack, inherits⟩ := ih type mem
    exact ⟨decl, mem_cons_of_mem _ onStack, inherits⟩
  | @expand _ top _ _ _ _ ih =>
    intro type mem
    rcases mem_cons.mp mem with rfl | further
    · exact ⟨type, mem_cons_self, .refl⟩
    · obtain ⟨decl, onStack, inherits⟩ := ih type further
      rcases mem_append.mp onStack with above | below
      · exact ⟨top, mem_cons_self, .head above inherits⟩
      · exact ⟨decl, mem_cons_of_mem _ below, inherits⟩

/-- A search visits everything on the stack and every supertype of what it visits, apart from what
had been seen before. -/
theorem Searches.closed (search : Searches index seen stack visited) :
    (∀ decl ∈ stack, decl.qualifiedName ∈ seen ∨
      decl.qualifiedName ∈ visited.map (·.qualifiedName)) ∧
      ∀ lower ∈ visited, ∀ upper, index.Extends lower upper →
        upper.qualifiedName ∈ seen ∨ upper.qualifiedName ∈ visited.map (·.qualifiedName) := by
  induction search with
  | done => simp
  | skip before _ ih => exact ⟨forall_mem_cons.mpr ⟨.inl before, ih.1⟩, ih.2⟩
  | @expand seen top stack visited _ _ ih =>
    -- the type at the top counts as seen further on, and is visited here
    have weaken : ∀ name, name ∈ top.qualifiedName :: seen ∨ name ∈ visited.map (·.qualifiedName) →
        name ∈ seen ∨ name ∈ (top :: visited).map (·.qualifiedName) := by
      intro name
      simp only [map_cons, mem_cons]
      tauto
    refine ⟨forall_mem_cons.mpr ⟨.inr (by simp), fun decl below => ?_⟩,
      forall_mem_cons.mpr ⟨fun upper extension => ?_, fun lower further upper extension => ?_⟩⟩
    · exact weaken _ (ih.1 decl (mem_append_right _ below))
    · exact weaken _ (ih.1 upper (mem_append_left _ extension))
    · exact weaken _ (ih.2 lower further upper extension)

/-- The search through supertypes meets exactly the types from which a type inherits. -/
theorem mem_lineage_iff (named : index.Named) (known : index.Knows decl) :
    type ∈ index.lineage decl ↔ index.Inherits decl type := by
  have search := index.searches_lineage decl
  constructor
  · intro mem
    obtain ⟨start, onStack, inherits⟩ := search.inherits type mem
    rwa [mem_singleton.mp onStack] at inherits
  · intro inherits
    have visited_known : ∀ other ∈ index.lineage decl, index.Knows other := by
      intro other mem
      obtain ⟨start, onStack, inherited⟩ := search.inherits other mem
      rw [mem_singleton.mp onStack] at inherited
      exact named.knows_of_inherits known inherited
    induction inherits with
    | refl =>
      obtain ⟨rest, first⟩ := index.lineage_eq_cons decl
      rw [first]
      exact mem_cons_self
    | tail inherited last visited =>
      have met := (search.closed.2 _ visited _ last).resolve_left not_mem_nil
      obtain ⟨other, otherVisited, same⟩ := mem_map.mp met
      rwa [← (visited_known other otherVisited).eq_of_name (named.knows_of_extends last) same]

/-- A name is found as a field of a type exactly if the type declares or inherits it. -/
theorem findField?_isSome_iff {index : Index} (named : index.Named) {decl : TypeDecl}
    (known : index.Knows decl) (name : String) : (index.findField? decl name).isSome ↔
      ∃ type, index.Inherits decl type ∧ (type.field? name).isSome := by
  rw [findField?, Option.isSome_map, find?_isSome]
  simp only [mem_lineage_iff named known]

end Index

/-! ## Ways upwards -/

/-- One way turns off further left than another, after a common beginning. -/
inductive TurnsOff : List Nat → List Nat → Prop where
  | here {turn other : Nat} {rest more : List Nat} : turn < other →
      TurnsOff (turn :: rest) (other :: more)
  | later {turn : Nat} {rest more : List Nat} : TurnsOff rest more →
      TurnsOff (turn :: rest) (turn :: more)

/-- The order of a depth-first search on ways: one is the beginning of the other, or it turns off
further left. -/
def Precedes (turns others : List Nat) : Prop :=
  turns <+: others ∨ TurnsOff turns others

namespace TurnsOff

variable {turns others more : List Nat}

theorem append (off : TurnsOff turns others) (rest ends : List Nat) :
    TurnsOff (turns ++ rest) (others ++ ends) := by
  induction off with
  | here less => exact .here less
  | later _ ih => exact .later ih

theorem append_left (common : List Nat) (off : TurnsOff turns others) :
    TurnsOff (common ++ turns) (common ++ others) := by
  induction common with
  | nil => exact off
  | cons turn rest ih => exact .later ih

theorem trans (off : TurnsOff turns others) (further : TurnsOff others more) :
    TurnsOff turns more := by
  induction off generalizing more with
  | here less =>
    cases further with
    | here further => exact .here (Nat.lt_trans less further)
    | later _ => exact .here less
  | later _ ih =>
    cases further with
    | here further => exact .here further
    | later further => exact .later (ih further)

/-- What turns off before a way turns off before everything that comes after that way. -/
theorem of_precedes (off : TurnsOff turns others) (after : Precedes others more) :
    TurnsOff turns more := by
  rcases after with ⟨ends, rfl⟩ | further
  · simpa using off.append [] ends
  · exact off.trans further

end TurnsOff

theorem Precedes.append (before : Precedes turns others) (ends : List Nat) :
    Precedes turns (others ++ ends) := by
  rcases before with start | off
  · exact .inl (start.trans (prefix_append others ends))
  · exact .inr (by simpa using off.append [] ends)

namespace Index

variable {test : TypeDecl → Bool} {found : TypeDecl}

/-- The type to which a way leads: at each type, the supertype at the next place is taken. -/
def climb? (index : Index) (decl : TypeDecl) (turns : List Nat) : Option TypeDecl :=
  turns.foldlM (fun type turn => (index.supertypes type)[turn]?) decl

/-- A way passes no type twice. -/
def Direct (index : Index) (decl : TypeDecl) (turns : List Nat) : Prop :=
  ∀ part other, part <+: turns → other <+: turns →
    index.climb? decl part = index.climb? decl other → part = other

/-- A way leads to a type with a property, and comes before every other way to such a type; ways
that pass a type twice do not count. -/
structure FirstAbove (index : Index) (decl : TypeDecl) (holds : TypeDecl → Prop) (type : TypeDecl)
    (turns : List Nat) : Prop where
  leads : index.climb? decl turns = some type
  direct : index.Direct decl turns
  has : holds type
  first : ∀ others other, index.climb? decl others = some other → index.Direct decl others →
    holds other → Precedes turns others

variable {index : Index} {decl : TypeDecl}

@[simp]
theorem climb?_nil : index.climb? decl [] = some decl :=
  rfl

/-- The last turn is taken at the end of the way. -/
theorem climb?_concat (turns : List Nat) (turn : Nat) :
    index.climb? decl (turns ++ [turn]) =
      (index.climb? decl turns).bind fun type => (index.supertypes type)[turn]? := by
  simp [climb?, foldlM_append]

/-- Every way leads to a type that is inherited from. -/
theorem inherits_of_climb? (leads : index.climb? decl turns = some type) :
    index.Inherits decl type := by
  induction turns using reverseRecOn generalizing type with
  | nil =>
    cases leads
    exact .refl
  | append_singleton turns turn ih =>
    rw [climb?_concat] at leads
    obtain ⟨lower, leads, last⟩ := Option.bind_eq_some_iff.mp leads
    exact .tail (ih leads) (mem_of_getElem? last)

theorem Named.knows_of_climb? (named : index.Named) (known : index.Knows decl)
    (leads : index.climb? decl turns = some type) : index.Knows type :=
  named.knows_of_inherits known (inherits_of_climb? leads)

theorem Direct.of_start (direct : index.Direct decl turns) (start : part <+: turns) :
    index.Direct decl part :=
  fun _ _ first second => direct _ _ (first.trans start) (second.trans start)

/-! ## The order of the search -/

/-- The state of a search from a type in which each type on the stack comes with the way to it. The
ways stand in order and lead through seen types; a seen type was reached by the first way to it, and
its supertypes have been seen or are on the stack. -/
structure Explored (index : Index) (decl : TypeDecl) (seen : List String)
    (entries : List (List Nat × TypeDecl)) : Prop where
  leads : ∀ turns type, (turns, type) ∈ entries → index.climb? decl turns = some type
  ordered : entries.Pairwise fun entry other => TurnsOff entry.1 other.1
  through : ∀ turns type, (turns, type) ∈ entries → ∀ part, part <+: turns → part ≠ turns →
    index.Direct decl part ∧ ∃ lower, index.climb? decl part = some lower ∧
      lower.qualifiedName ∈ seen
  start : decl.qualifiedName ∈ seen ∨ ([], decl) ∈ entries
  least : ∀ type, index.Knows type → type.qualifiedName ∈ seen → ∃ turns,
    (∀ others, index.climb? decl others = some type → index.Direct decl others →
      turns = others ∨ TurnsOff turns others) ∧
    ∀ place upper, (index.supertypes type)[place]? = some upper →
      upper.qualifiedName ∈ seen ∨ (turns ++ [place], upper) ∈ entries

/-- The types above a type, each with the way that leads to it through that type. -/
def above (index : Index) (turns : List Nat) (type : TypeDecl) : List (List Nat × TypeDecl) :=
  (index.supertypes type).zipIdx.map fun entry => (turns ++ [entry.2], entry.1)

theorem map_above (turns : List Nat) (type : TypeDecl) :
    (index.above turns type).map (·.2) = index.supertypes type := by
  simp [above, Function.comp_def]

theorem mem_above :
    (others, upper) ∈ index.above turns type ↔
      ∃ place, others = turns ++ [place] ∧ (index.supertypes type)[place]? = some upper := by
  simp only [above, mem_map, Prod.exists, Prod.mk.injEq, mem_zipIdx_iff_getElem?]
  constructor
  · rintro ⟨_, place, found, rfl, rfl⟩
    exact ⟨place, rfl, found⟩
  · rintro ⟨place, rfl, found⟩
    exact ⟨upper, place, found, rfl, rfl⟩

/-- The ways to supertypes stand in order. -/
theorem pairwise_above (turns : List Nat) (type : TypeDecl) :
    (index.above turns type).Pairwise fun entry other => TurnsOff entry.1 other.1 := by
  rw [above, pairwise_map, pairwise_iff_getElem]
  intro place other _ _ less
  simpa using TurnsOff.append_left turns (.here less)

namespace Explored

variable {seen : List String} {turns : List Nat} {type : TypeDecl}
  {entries : List (List Nat × TypeDecl)}
variable {other : TypeDecl}

/-- Before the search nothing has been seen. -/
theorem initial (index : Index) (decl : TypeDecl) : Explored index decl [] [([], decl)] where
  leads := by simp
  ordered := pairwise_singleton _ _
  through := by
    intro turns type mem part start differs
    obtain ⟨rfl, -⟩ := Prod.mk.inj (mem_singleton.mp mem)
    exact absurd (prefix_nil.mp start) differs
  start := .inr mem_cons_self
  least := by simp

/-- Every way that passes no type twice and leads to a type not yet seen comes after some way on the
stack. -/
theorem covers (explored : Explored index decl seen entries) (named : index.Named)
    (known : index.Knows decl) (leads : index.climb? decl others = some other)
    (direct : index.Direct decl others) (fresh : other.qualifiedName ∉ seen) :
    ∃ entry ∈ entries, Precedes entry.1 others := by
  induction others using reverseRecOn generalizing other with
  | nil =>
    cases leads
    exact ⟨([], decl), explored.start.resolve_left fresh, .inl nil_prefix⟩
  | append_singleton others turn ih =>
    have directBelow : index.Direct decl others := direct.of_start (prefix_append others [turn])
    rw [climb?_concat] at leads
    obtain ⟨lower, leadsBelow, last⟩ := Option.bind_eq_some_iff.mp leads
    by_cases before : lower.qualifiedName ∈ seen
    · -- the supertypes of a seen type were put on the stack when the first way reached it
      obtain ⟨turns, least, supertypes⟩ :=
        explored.least lower (named.knows_of_climb? known leadsBelow) before
      refine ⟨(turns ++ [turn], other), (supertypes turn other last).resolve_left fresh, ?_⟩
      rcases least others leadsBelow directBelow with rfl | off
      · exact .inl (prefix_refl _)
      · exact .inr (off.append _ _)
    · obtain ⟨entry, onStack, precedes⟩ := ih leadsBelow directBelow before
      exact ⟨entry, onStack, precedes.append [turn]⟩

/-- The way at the top comes before every way to a type not yet seen. -/
theorem top_precedes (explored : Explored index decl seen ((turns, type) :: entries))
    (named : index.Named) (known : index.Knows decl)
    (leads : index.climb? decl others = some other) (direct : index.Direct decl others)
    (fresh : other.qualifiedName ∉ seen) : Precedes turns others := by
  obtain ⟨entry, onStack, precedes⟩ := explored.covers named known leads direct fresh
  rcases mem_cons.mp onStack with rfl | below
  · exact precedes
  · exact .inr (((pairwise_cons.mp explored.ordered).1 entry below).of_precedes precedes)

/-- The way at the top passes no type twice if it leads to a type not yet seen. -/
theorem top_direct (explored : Explored index decl seen ((turns, type) :: entries))
    (fresh : type.qualifiedName ∉ seen) : index.Direct decl turns := by
  have leads := explored.leads turns type mem_cons_self
  have through := explored.through turns type mem_cons_self
  -- the types before the last one have been seen
  have differs : ∀ part, part <+: turns → part ≠ turns →
      index.climb? decl part ≠ index.climb? decl turns := by
    intro part start shorter same
    obtain ⟨-, lower, leadsBelow, before⟩ := through part start shorter
    rw [leadsBelow, leads] at same
    cases same
    exact fresh before
  intro part other first second same
  by_cases atEnd : part = turns
  · subst atEnd
    by_contra apart
    exact differs other second (Ne.symm apart) same.symm
  · by_cases otherEnd : other = turns
    · subst otherEnd
      exact absurd same (differs part first atEnd)
    · rcases prefix_or_prefix_of_prefix first second with shorter | longer
      · exact (through other second otherEnd).1 part other shorter (prefix_refl _) same
      · exact (through part first atEnd).1 part other (prefix_refl _) longer same

/-- A type that has been seen or is on the stack is still so once the top of the stack counts as
seen. -/
theorem seen_or_below
    (met : other.qualifiedName ∈ seen ∨ (others, other) ∈ (turns, type) :: entries) :
    other.qualifiedName ∈ type.qualifiedName :: seen ∨ (others, other) ∈ entries := by
  rcases met with before | onStack
  · exact .inl (mem_cons_of_mem _ before)
  · rcases mem_cons.mp onStack with same | below
    · cases same
      exact .inl mem_cons_self
    · exact .inr below

/-- A seen type at the top is passed over. -/
theorem skip (explored : Explored index decl seen ((turns, type) :: entries))
    (before : type.qualifiedName ∈ seen) :
    Explored index decl seen entries where
  leads := fun others other below => explored.leads others other (mem_cons_of_mem _ below)
  ordered := (pairwise_cons.mp explored.ordered).2
  through := fun others other below => explored.through others other (mem_cons_of_mem _ below)
  start := (seen_or_below explored.start).imp_left
    (cons_subset.mpr ⟨before, Subset.refl seen⟩ ·)
  least := by
    intro other known otherBefore
    obtain ⟨first, least, supertypes⟩ := explored.least other known otherBefore
    exact ⟨first, least, fun place upper found =>
      (seen_or_below (supertypes place upper found)).imp_left
      (cons_subset.mpr ⟨before, Subset.refl seen⟩ ·)⟩

/-- Another type at the top makes way for its supertypes. -/
theorem expand (explored : Explored index decl seen ((turns, type) :: entries))
    (named : index.Named) (known : index.Knows decl) (fresh : type.qualifiedName ∉ seen) :
    Explored index decl (type.qualifiedName :: seen) (index.above turns type ++ entries) where
  leads := by
    intro others other mem
    rcases mem_append.mp mem with further | below
    · obtain ⟨place, rfl, found⟩ := mem_above.mp further
      rw [climb?_concat, explored.leads turns type mem_cons_self]
      exact found
    · exact explored.leads others other (mem_cons_of_mem _ below)
  ordered := by
    obtain ⟨first, ordered⟩ := pairwise_cons.mp explored.ordered
    refine pairwise_append.mpr ⟨pairwise_above turns type, ordered, ?_⟩
    rintro ⟨others, upper⟩ further entry below
    obtain ⟨place, rfl, -⟩ := mem_above.mp further
    simpa using (first entry below).append [place] []
  through := by
    intro others other mem part start shorter
    rcases mem_append.mp mem with further | below
    · obtain ⟨place, rfl, -⟩ := mem_above.mp further
      have within : part <+: turns := (prefix_concat_iff.mp start).resolve_left shorter
      refine ⟨(explored.top_direct fresh).of_start within, ?_⟩
      by_cases atEnd : part = turns
      · exact ⟨type, atEnd ▸ explored.leads turns type mem_cons_self, mem_cons_self⟩
      · obtain ⟨-, lower, leads, before⟩ :=
          explored.through turns type mem_cons_self part within atEnd
        exact ⟨lower, leads, mem_cons_of_mem _ before⟩
    · obtain ⟨direct, lower, leads, before⟩ :=
        explored.through others other (mem_cons_of_mem _ below) part start shorter
      exact ⟨direct, lower, leads, mem_cons_of_mem _ before⟩
  start := (seen_or_below explored.start).imp_right (mem_append_right _)
  least := by
    intro other otherKnown before
    have leads := explored.leads turns type mem_cons_self
    by_cases isTop : other = type
    · subst isTop
      refine ⟨turns, fun others leadsToo direct => ?_, fun place upper found =>
        .inr (mem_append_left _ (mem_above.mpr ⟨place, rfl, found⟩))⟩
      rcases explored.top_precedes named known leadsToo direct fresh with start | off
      · -- a longer way to the same type would pass it twice
        exact .inl (direct turns others start (prefix_refl _) (leads.trans leadsToo.symm))
      · exact .inr off
    · have otherBefore : other.qualifiedName ∈ seen := by
        rcases mem_cons.mp before with same | earlier
        · exact absurd (otherKnown.eq_of_name (named.knows_of_climb? known leads) same) isTop
        · exact earlier
      obtain ⟨first, least, supertypes⟩ := explored.least other otherKnown otherBefore
      exact ⟨first, least, fun place upper found =>
        (seen_or_below (supertypes place upper found)).imp_right (mem_append_right _)⟩

end Explored

/-- The first type with a property that a search visits is the one to which the first way leads. -/
theorem Searches.firstAbove (named : index.Named) (known : index.Knows decl)
    (search : Searches index seen stack visited) (ways : entries.map (·.2) = stack)
    (explored : Explored index decl seen entries)
    (missed : ∀ type, index.Knows type → type.qualifiedName ∈ seen → test type = false)
    (first : visited.find? test = some found) :
    ∃ turns, index.FirstAbove decl (test ·) found turns := by
  induction search generalizing entries with
  | done => cases first
  | skip before _ ih =>
    obtain ⟨⟨turns, top⟩, below, rfl, rfl, rfl⟩ := map_eq_cons_iff.mp ways
    exact ih rfl (explored.skip before) missed first
  | expand fresh _ ih =>
    obtain ⟨⟨turns, top⟩, below, rfl, rfl, rfl⟩ := map_eq_cons_iff.mp ways
    have leads := explored.leads turns top mem_cons_self
    by_cases hit : test top = true
    · rw [find?_cons_of_pos hit] at first
      cases first
      refine ⟨turns, leads, explored.top_direct fresh, hit,
        fun others other leadsToo direct holds => ?_⟩
      refine explored.top_precedes named known leadsToo direct fun before => ?_
      -- what has been seen has not the property
      rw [missed other (named.knows_of_climb? known leadsToo) before] at holds
      cases holds
    · rw [find?_cons_of_neg hit] at first
      refine ih (by rw [map_append, map_above]) (explored.expand named known fresh) ?_ first
      intro type typeKnown before
      rcases mem_cons.mp before with same | earlier
      · rw [typeKnown.eq_of_name (named.knows_of_climb? known leads) same]
        exact Bool.eq_false_iff.mpr hit
      · exact missed type typeKnown earlier

/-- The first type of a lineage with a property is the first one in the order of a depth-first
search. -/
theorem firstAbove_of_find? (named : index.Named) (known : index.Knows decl)
    (first : (index.lineage decl).find? test = some found) :
    ∃ turns, index.FirstAbove decl (test ·) found turns :=
  (index.searches_lineage decl).firstAbove named known rfl (.initial index decl) (by simp) first

end Index

end JavaSlice
