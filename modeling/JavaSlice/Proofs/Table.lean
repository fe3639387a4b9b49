import JavaSlice.Table
import Mathlib.Data.List.Nodup

/-!
# Laws of tables

A table is used through its names and the value under each name. Every operation is described here
by what it does to both, so that later proofs never look at the list of entries. Two tables that
have no name twice and agree on every name hold the same entries, in some order.
-/

namespace JavaSlice.Table

open List

variable {α : Type}
variable {table : Table α} {name : String} {value : α} {β : Type}

/-! ## Names and values -/

@[simp]
theorem get?_nil (name : String) : get? ([] : Table α) name = none := rfl

theorem get?_cons (key : String) (value : α) (rest : Table α) (name : String) :
    get? ((key, value) :: rest) name = if key = name then some value else get? rest name := by
  by_cases same : key = name
  · simp [get?, same]
  · simp [get?, same]

@[simp]
theorem names_nil : names ([] : Table α) = [] := rfl

@[simp]
theorem names_cons (entry : String × α) (rest : Table α) :
    names (entry :: rest) = entry.1 :: names rest := rfl

/-- A lookup succeeds just for the names of a table. -/
theorem get?_isSome_iff (table : Table α) (name : String) :
    (get? table name).isSome ↔ name ∈ names table := by
  induction table with
  | nil => simp
  | cons entry rest ih =>
    obtain ⟨key, value⟩ := entry
    rw [get?_cons, names_cons, mem_cons]
    by_cases same : key = name
    · simp [same]
    · simp [same, ih, Ne.symm same]

theorem has_iff (table : Table α) (name : String) : has table name ↔ name ∈ names table :=
  get?_isSome_iff table name

theorem get?_eq_none_iff (table : Table α) (name : String) :
    get? table name = none ↔ name ∉ names table := by
  rw [← get?_isSome_iff, Option.not_isSome_iff_eq_none]

theorem mem_names_of_get? (found : get? table name = some value) : name ∈ names table := by
  rw [← get?_isSome_iff, found]
  rfl

theorem mem_of_get? (found : get? table name = some value) : (name, value) ∈ table := by
  induction table with
  | nil => simp at found
  | cons entry rest ih =>
    obtain ⟨key, first⟩ := entry
    rw [get?_cons] at found
    split at found
    next same =>
      cases found
      simp [same]
    next different => exact mem_cons_of_mem _ (ih found)

theorem get?_of_mem (distinct : (names table).Nodup) (mem : (name, value) ∈ table) :
    get? table name = some value := by
  induction table with
  | nil => simp at mem
  | cons entry rest ih =>
    obtain ⟨key, first⟩ := entry
    rw [names_cons, nodup_cons] at distinct
    rw [get?_cons]
    cases mem_cons.mp mem with
    | inl same => simp_all
    | inr later =>
      have different : key ≠ name := by
        intro same
        subst same
        exact distinct.1 (mem_map.mpr ⟨_, later, rfl⟩)
      rw [if_neg different]
      exact ih distinct.2 later

/-- If no name repeats, a lookup finds the entries. -/
theorem get?_eq_some_iff (distinct : (names table).Nodup) :
    get? table name = some value ↔ (name, value) ∈ table :=
  ⟨mem_of_get?, get?_of_mem distinct⟩

/-! ## Putting, changing and removing -/

/-- A lookup after a value has been put. -/
theorem get?_put (table : Table α) (name other : String) (value : α) :
    get? (put table name value) other = if name = other then some value else get? table other := by
  induction table with
  | nil => simp [put, get?_cons]
  | cons entry rest ih =>
    obtain ⟨key, old⟩ := entry
    rw [put]
    by_cases same : key = name
    · simp only [same, beq_self_eq_true, if_true, get?_cons]
      split <;> rfl
    · simp only [beq_eq_false_iff_ne.mpr same, Bool.false_eq_true, if_false, get?_cons, ih]
      by_cases other_same : key = other
      · simp [other_same, Ne.symm (other_same ▸ same)]
      · simp [other_same]

theorem mem_put (mem : entry ∈ table.put name value) : entry ∈ table ∨ entry.2 = value := by
  induction table with
  | nil =>
    obtain rfl := mem_singleton.mp mem
    exact .inr rfl
  | cons first rest ih =>
    rw [put] at mem
    split at mem
    next _ =>
      rcases mem_cons.mp mem with rfl | further
      · exact .inr rfl
      · exact .inl (mem_cons_of_mem _ further)
    next _ =>
      rcases mem_cons.mp mem with rfl | further
      · exact .inl mem_cons_self
      · exact (ih further).imp_left (mem_cons_of_mem _)

/-- A new name comes last. -/
theorem put_of_not_mem (absent : name ∉ names table) (value : α) :
    put table name value = table ++ [(name, value)] := by
  induction table with
  | nil => rfl
  | cons entry rest ih =>
    obtain ⟨key, old⟩ := entry
    rw [names_cons, mem_cons, not_or] at absent
    rw [put, if_neg (by simpa using Ne.symm absent.1), ih absent.2, cons_append]

theorem names_put_of_not_mem (absent : name ∉ names table) (value : α) :
    names (put table name value) = names table ++ [name] := by
  rw [put_of_not_mem absent]
  simp [names]

/-- A known name keeps its place. -/
theorem names_put_of_mem (present : name ∈ names table) (value : α) :
    names (put table name value) = names table := by
  induction table with
  | nil => simp at present
  | cons entry rest ih =>
    obtain ⟨key, old⟩ := entry
    rw [put]
    by_cases same : key = name
    · simp [same]
    · rw [names_cons, mem_cons] at present
      rw [if_neg (by simpa using same), names_cons, names_cons,
        ih (present.resolve_left (Ne.symm same))]

theorem names_put_nodup (distinct : (names table).Nodup) (name : String) (value : α) :
    (names (put table name value)).Nodup := by
  by_cases present : name ∈ names table
  · rwa [names_put_of_mem present]
  · rw [names_put_of_not_mem present]
    exact distinct.append (nodup_singleton name) (by simpa using present)

@[simp]
theorem names_update (table : Table α) (name : String) (change : α → α) :
    names (update table name change) = names table := by
  simp only [names, update, map_map]
  apply map_congr_left
  intro entry _
  simp only [Function.comp]
  split <;> rfl

/-- A lookup after an update. -/
theorem get?_update (table : Table α) (name other : String) (change : α → α) :
    get? (update table name change) other =
      if other = name then (get? table other).map change else get? table other := by
  induction table with
  | nil => simp [update]
  | cons entry rest ih =>
    obtain ⟨key, value⟩ := entry
    simp only [update, map_cons] at ih ⊢
    grind [get?_cons]

/-- A lookup after a name has been dropped. -/
theorem get?_drop (table : Table α) (name other : String) :
    get? (drop table name) other = if other = name then none else get? table other := by
  induction table with
  | nil => simp [drop]
  | cons entry rest ih =>
    obtain ⟨key, value⟩ := entry
    simp only [drop, filter_cons] at ih ⊢
    grind [get?_cons]

theorem names_drop_nodup (distinct : (names table).Nodup) (name : String) :
    (names (drop table name)).Nodup :=
  distinct.sublist (filter_sublist.map _)

/-! ## Tables whose values are changed -/

theorem get?_map (change : α → β) (table : Table α) (name : String) :
    get? (table.map fun (key, value) => (key, change value)) name =
      (get? table name).map change := by
  rw [get?, find?_map, get?, Option.map_map, Option.map_map]
  rfl

theorem put_map (change : α → β) (table : Table α) (name : String) (value : α) :
    put (table.map fun (key, value) => (key, change value)) name (change value) =
      (put table name value).map fun (key, value) => (key, change value) := by
  induction table with
  | nil => rfl
  | cons entry rest ih =>
    simp only [map_cons, put, ih]
    split <;> rfl

/-- Filling a table with changed values gives the changed table. -/
theorem foldl_put_map {β ι : Type} (change : α → β) (name : ι → String) (value : ι → α)
    (items : List ι) (table : Table α) :
    items.foldl (fun table item => put table (name item) (change (value item)))
        (table.map fun (key, value) => (key, change value)) =
      (items.foldl (fun table item => put table (name item) (value item)) table).map
        fun (key, value) => (key, change value) := by
  induction items generalizing table with
  | nil => rfl
  | cons item items ih => rw [foldl_cons, foldl_cons, put_map, ih]

theorem total_map (change : α → β) (table : Table α) (size : β → Nat) :
    total (table.map fun (key, value) => (key, change value)) size = total table fun value =>
      size (change value) := by
  induction table with
  | nil => rfl
  | cons entry rest ih => rw [map_cons, total, total, ih]

/-! ## The order of entries -/

/-- What is found under a name does not depend on the order of entries. -/
theorem get?_eq_of_perm {other : Table α} (distinct : (names table).Nodup) (perm : table.Perm other)
    (name : String) : get? table name = get? other name := by
  have otherDistinct : (names other).Nodup := (perm.map _).nodup_iff.mp distinct
  refine Option.ext fun value => ?_
  rw [get?_eq_some_iff distinct, get?_eq_some_iff otherDistinct, perm.mem_iff]

theorem total_eq_of_perm {other : Table α} (perm : table.Perm other) (size : α → Nat) :
    total table size = total other size := by
  induction perm with
  | nil => rfl
  | cons entry _ ih => rw [total, total, ih]
  | swap first second rest =>
    rw [total, total, total, total]
    omega
  | trans _ _ first second => exact first.trans second

/-! ## One entry and the others -/

theorem drop_of_not_mem (absent : name ∉ names table) : drop table name = table := by
  refine filter_eq_self.mpr fun entry mem => ?_
  rw [bne_iff_ne]
  intro same
  exact absent (same ▸ mem_map_of_mem mem)

/-- A table is one of its entries and the others, in some order. -/
theorem perm_cons_drop (distinct : (names table).Nodup) (found : get? table name = some value) :
    table.Perm ((name, value) :: drop table name) := by
  induction table with
  | nil => simp at found
  | cons entry rest ih =>
    obtain ⟨key, first⟩ := entry
    rw [names_cons, nodup_cons] at distinct
    rw [get?_cons] at found
    by_cases same : key = name
    · subst same
      rw [if_pos rfl, Option.some.injEq] at found
      have others : drop ((key, first) :: rest) key = drop rest key := filter_cons_of_neg (by simp)
      rw [others, drop_of_not_mem distinct.1, found]
    · rw [if_neg same] at found
      have others : drop ((key, first) :: rest) name = (key, first) :: drop rest name :=
        filter_cons_of_pos (by simpa using same)
      rw [others]
      exact ((ih distinct.2 found).cons _).trans (.swap _ _ _)

/-- Changing the value under a name changes one entry and leaves the others. -/
theorem update_perm (distinct : (names table).Nodup) (found : get? table name = some value)
    (change : α → α) :
    (update table name change).Perm ((name, change value) :: drop table name) := by
  have others : update (drop table name) name change = drop table name := by
    refine (map_congr_left ?_).trans (map_id _)
    intro entry mem
    have different : (entry.1 == name) = false := by
      simpa using (mem_filter.mp mem).2
    simp [different]
  have changed := (perm_cons_drop distinct found).map fun entry : String × α =>
    if entry.1 == name then (entry.1, change entry.2) else (entry.1, entry.2)
  rw [map_cons, if_pos (beq_self_eq_true name)] at changed
  exact changed.trans (Perm.of_eq (congrArg _ others))

end JavaSlice.Table
