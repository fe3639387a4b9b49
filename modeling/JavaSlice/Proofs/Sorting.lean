import JavaSlice.Slice.Registry
import Mathlib.Data.List.Sort

/-!
# Sorting

Sorting is canonical if the order tells things apart: lists with the same elements, in whatever
order, are sorted into the same list. Keys, import lines and the names of files are sorted by such
orders. The order of members does not look at all of a member, but it does look at its text; so the
texts of sorted members are canonical.
-/

namespace JavaSlice

open List Source Slice

/-! ## Sorting in general -/

/-- A comparison that sorting can use: of two things one comes first, and comparisons chain. -/
structure Orders {α : Type} (le : α → α → Bool) : Prop where
  total : ∀ first second, (le first second || le second first) = true
  trans : ∀ first second third, le first second = true → le second third = true →
    le first third = true

/-- Sorting is canonical where the order tells the elements apart. -/
theorem Orders.mergeSort_eq {α : Type} {le : α → α → Bool} (orders : Orders le)
    {items others : List α}
    (antisymm : ∀ first ∈ items, ∀ second ∈ items, le first second → le second first →
      first = second)
    (perm : items.Perm others) : items.mergeSort le = others.mergeSort le := by
  have sorted := pairwise_mergeSort orders.trans orders.total
  have same : (items.mergeSort le).Perm (others.mergeSort le) :=
    (mergeSort_perm items le).trans (perm.trans (mergeSort_perm others le).symm)
  refine same.eq_of_pairwise ?_ (sorted items) (sorted others)
  intro first second isFirst isSecond
  rw [mem_mergeSort] at isFirst isSecond
  exact antisymm first isFirst second (perm.mem_iff.mpr isSecond)

/-- Sorting what is sorted changes nothing. -/
theorem Orders.mergeSort_mergeSort {α : Type} {le} (orders : Orders le) (items : List α) :
    (items.mergeSort le).mergeSort le = items.mergeSort le :=
  mergeSort_of_pairwise (pairwise_mergeSort orders.trans orders.total items)

theorem Orders.comap {α β : Type} {le} (orders : Orders le) (view : α → β) :
    Orders fun first second => le (view first) (view second) where
  total := fun first second => orders.total (view first) (view second)
  trans := fun first second third => orders.trans (view first) (view second) (view third)

theorem orders_of_transCmp {α : Type} (cmp : α → α → Ordering) [Std.TransCmp cmp] :
    Orders fun first second => (cmp first second).isLE where
  total := by
    intro first second
    have swap : cmp second first = (cmp first second).swap := Std.OrientedCmp.eq_swap
    rw [swap]
    cases cmp first second <;> rfl
  trans := fun _ _ _ => Std.TransCmp.isLE_trans

/-- What is there once each is sorted strictly. -/
theorem pairwise_lt_mergeSort {α : Type} (cmp : α → α → Ordering) [Std.TransCmp cmp]
    [Std.LawfulEqCmp cmp] {items : List α} (once : items.Nodup) :
    (items.mergeSort fun first second => (cmp first second).isLE).Pairwise fun first second =>
      cmp first second = .lt := by
  have orders := orders_of_transCmp cmp
  have sorted := pairwise_mergeSort orders.trans orders.total items
  have apart :=
    (mergeSort_perm items fun first second => (cmp first second).isLE).nodup_iff.mpr once
  refine (sorted.and apart).imp fun {first second} ⟨before, distinct⟩ => ?_
  cases compared : cmp first second with
  | lt => rfl
  | eq => exact absurd (Std.LawfulEqCmp.eq_of_compare compared) distinct
  | gt => rw [compared] at before; cases before

/-- The order of names. -/
theorem orders_names : Orders fun first second : String => decide (first ≤ second) where
  total := by
    intro first second
    simpa using String.le_total first second
  trans := by
    intro first second third
    simpa using String.le_trans

/-! ## The orders of a slice -/

theorem orders_imports : Orders Import.le where
  total := by
    intro first second
    simp only [Import.le]
    grind
  trans := by
    intro first second third
    simp only [Import.le]
    grind

/-- The order of imports looks at all of a line. -/
theorem Source.Import.le_antisymm {first second : Import} (before : first.le second)
    (after : second.le first) : first = second := by
  obtain ⟨name, isStatic, isWildcard⟩ := first
  obtain ⟨other, otherStatic, otherWildcard⟩ := second
  simp only [Import.le] at before after
  cases isStatic <;> cases otherStatic <;> cases isWildcard <;> cases otherWildcard <;> grind

theorem orders_foldLe : Orders Registry.foldLe where
  total := by
    intro first second
    simp only [Registry.foldLe]
    grind
  trans := by
    intro first second third
    simp only [Registry.foldLe]
    grind

theorem Slice.Registry.foldLe_antisymm (before : foldLe first second)
    (after : foldLe second first) : first = second := by
  simp only [foldLe] at before after
  grind

namespace Slice

theorem Key.transCmp_compare : Std.TransCmp Key.compare :=
  inferInstanceAs <| Std.TransCmp <| compareLex (compareOn Key.owner) <|
    compareLex (compareOn fun key => key.member.rank) <|
      compareLex (compareOn fun key => key.member.label) (compareOn fun key => key.member.number)

theorem MemberKey.eq_of_compare {first second : MemberKey} (same : first.compare second = .eq) :
    first = second := by
  simp only [MemberKey.compare, Ordering.then_eq_eq, Std.LawfulEqCmp.compare_eq_iff_eq] at same
  obtain ⟨rank, label, number⟩ := same
  cases first <;> cases second <;> simp_all [MemberKey.rank, MemberKey.label, MemberKey.number]

theorem Key.eq_of_compare {first second : Key} (same : first.compare second = .eq) :
    first = second := by
  simp only [Key.compare, Ordering.then_eq_eq, Std.LawfulEqCmp.compare_eq_iff_eq] at same
  obtain ⟨owner, member⟩ := same
  obtain ⟨_, _⟩ := first
  obtain ⟨_, _⟩ := second
  rw [Key.mk.injEq]
  exact ⟨owner, MemberKey.eq_of_compare member⟩

/-- Keys are sorted in one way. -/
theorem Key.sort_eq_of_perm {keys} (perm : keys.Perm others) : Key.sort keys = Key.sort others := by
  have := Key.transCmp_compare
  refine (orders_of_transCmp Key.compare).mergeSort_eq ?_ perm
  intro first _ second _ before after
  exact Key.eq_of_compare (Std.OrientedCmp.isLE_antisymm before after)

namespace OutlineMember

/-- What the order of members looks at. -/
structure Place where
  rank : Nat
  name : String
  arity : Nat
  text : String

/-- The order of places. -/
def Place.compare (first second : Place) : Ordering :=
  (Ord.compare first.rank second.rank).then <|
    (Ord.compare first.name second.name).then <|
      (Ord.compare first.arity second.arity).then (Ord.compare first.text second.text)

theorem Place.transCmp_compare : Std.TransCmp Place.compare :=
  inferInstanceAs <| Std.TransCmp <| compareLex (compareOn Place.rank) <|
    compareLex (compareOn Place.name) <| compareLex (compareOn Place.arity) (compareOn Place.text)

theorem Place.eq_of_compare {first second : Place} (same : first.compare second = .eq) :
    first = second := by
  simp only [Place.compare, Ordering.then_eq_eq, Std.LawfulEqCmp.compare_eq_iff_eq] at same
  obtain ⟨_, _, _, _⟩ := first
  obtain ⟨_, _, _, _⟩ := second
  rwa [Place.mk.injEq]

/-- The place of a member in the output. -/
def place (member : OutlineMember) : Place :=
  ⟨member.kind.rank, member.sortName, member.arity, member.text⟩

theorem orders_members : Orders le := by
  have := Place.transCmp_compare
  exact (orders_of_transCmp Place.compare).comap place

/-- The texts of sorted members do not depend on the order in which the members were. -/
theorem sorted_texts_eq_of_perm {members others : List OutlineMember} (perm : members.Perm others) :
    (members.mergeSort le).map (·.text) = (others.mergeSort le).map (·.text) := by
  have := Place.transCmp_compare
  have places : ∀ list : List OutlineMember, (list.mergeSort le).map place =
      (list.map place).mergeSort fun first second => (first.compare second).isLE :=
    fun list => map_mergeSort fun _ _ _ _ => rfl
  have sorted : (members.mergeSort le).map place = (others.mergeSort le).map place := by
    rw [places, places]
    refine (orders_of_transCmp Place.compare).mergeSort_eq ?_ (perm.map place)
    exact fun _ _ _ _ before after => Place.eq_of_compare
      (Std.OrientedCmp.isLE_antisymm before after)
  have texts := congrArg (List.map Place.text) sorted
  rwa [map_map, map_map] at texts

end OutlineMember

end Slice

end JavaSlice
