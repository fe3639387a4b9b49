import JavaSlice.Proofs.Index

/-!
# The search through supertypes

`Index.lineage` searches the supertypes of a type in depth, with a stack and the names of the types
seen so far, and makes a bounded number of steps. `Searches` is the same search without a bound. The
bound is never reached (`Index.searches_lineage`): what a type puts on the stack is no longer than
its header, and each type does so once. This holds for every hierarchy, also one with cycles.
-/

namespace JavaSlice.Index

open List Option Slice Source

variable {index : Index} {decl : TypeDecl} {name : String}
variable {seen : List String} {call : CallSite} {own : Method} {count : Nat}

/-- The search with a stack, run until the stack is empty: the types that it visits, in order. -/
inductive Searches (index : Index) : List String → List TypeDecl → List TypeDecl → Prop where
  | done {seen : List String} : Searches index seen [] []
  | skip {seen : List String} {decl : TypeDecl} {stack visited : List TypeDecl} :
      decl.qualifiedName ∈ seen → Searches index seen stack visited →
      Searches index seen (decl :: stack) visited
  | expand {seen : List String} {decl : TypeDecl} {stack visited : List TypeDecl} :
      decl.qualifiedName ∉ seen →
      Searches index (decl.qualifiedName :: seen) (index.supertypes decl ++ stack) visited →
      Searches index seen (decl :: stack) (decl :: visited)

theorem supertypes_length_le (index : Index) (decl : TypeDecl) :
    (index.supertypes decl).length ≤ decl.headerTypes.length := by
  unfold supertypes
  split
  next _ => simp
  next _ => exact Nat.le_trans (length_filterMap_le _ _) (length_filterMap_le _ _)

theorem typeDecl?_of_mem_supertypes (mem : type ∈ index.supertypes decl) :
    ∃ name, index.typeDecl? name = some type := by
  unfold supertypes at mem
  split at mem
  next _ => simp at mem
  next _ =>
    obtain ⟨base, -, resolved⟩ := mem_filterMap.mp mem
    obtain ⟨name, -, found⟩ := bind_eq_some_iff.mp resolved
    exact ⟨name, found⟩

/-! ## The bound -/

/-- The number of types that headers of a table name, as far as their own types have not been
seen. -/
def headersLeft (seen : List String) : Table IndexedType → Nat
  | [] => 0
  | (_, type) :: rest =>
    (if type.decl.qualifiedName ∈ seen then 0 else type.decl.headerTypes.length) +
      headersLeft seen rest

theorem headersLeft_le (seen : List String) (types : Table IndexedType) :
    headersLeft seen types ≤ types.total (·.decl.headerTypes.length) := by
  induction types with
  | nil => exact Nat.le_refl 0
  | cons entry rest ih =>
    rw [headersLeft, Table.total]
    split <;> omega

theorem headersLeft_cons_le (name : String) (seen : List String) (types : Table IndexedType) :
    headersLeft (name :: seen) types ≤ headersLeft seen types := by
  induction types with
  | nil => exact Nat.le_refl 0
  | cons entry rest ih =>
    simp only [headersLeft, mem_cons]
    by_cases before : entry.2.decl.qualifiedName ∈ seen
    · simp only [before, or_true, if_true]
      omega
    · simp only [before, or_false, if_false]
      split <;> omega

/-- Once a type has been seen, its header is no longer left. -/
theorem headersLeft_cons_add_le {types type}
    (mem : (name, type) ∈ types) (fresh : type.decl.qualifiedName ∉ seen) :
    headersLeft (type.decl.qualifiedName :: seen) types + type.decl.headerTypes.length ≤
      headersLeft seen types := by
  induction types with
  | nil => simp at mem
  | cons entry rest ih =>
    rw [headersLeft, headersLeft]
    rcases mem_cons.mp mem with rfl | later
    · have others := headersLeft_cons_le type.decl.qualifiedName seen rest
      rw [if_pos mem_cons_self, if_neg fresh]
      simp only
      omega
    · have others := ih later
      by_cases before : entry.2.decl.qualifiedName ∈ seen
      · rw [if_pos (mem_cons_of_mem _ before), if_pos before]
        omega
      · rw [if_neg before]
        split <;> omega

/-- A search over types of the index ends within a bound that covers the stack and all headers to
come. -/
theorem searches_visit (bound : Nat) :
    ∀ (seen : List String) (stack : List TypeDecl),
      (∀ decl ∈ stack, ∃ name, index.typeDecl? name = some decl) →
      stack.length + headersLeft seen index.types ≤ bound →
      Searches index seen stack (index.visit bound seen stack) := by
  induction bound with
  | zero =>
    intro seen stack _ enough
    have empty : stack = [] := length_eq_zero_iff.mp (by omega)
    subst empty
    exact .done
  | succ bound ih =>
    intro seen stack indexed enough
    cases stack with
    | nil => exact .done
    | cons decl rest =>
      have restIndexed : ∀ type ∈ rest, ∃ name, index.typeDecl? name = some type :=
        fun type mem => indexed type (mem_cons_of_mem _ mem)
      rw [length_cons] at enough
      unfold visit
      split
      next again =>
        refine .skip (contains_iff_mem.mp again) (ih seen rest restIndexed ?_)
        omega
      next first =>
        have fresh : decl.qualifiedName ∉ seen := fun mem =>
          first (contains_iff_mem.mpr mem)
        obtain ⟨name, found⟩ := indexed decl mem_cons_self
        obtain ⟨type, present, rfl⟩ := map_eq_some_iff.mp found
        have lighter := headersLeft_cons_add_le (Table.mem_of_get? present) fresh
        have short := supertypes_length_le index type.decl
        refine .expand fresh (ih _ _ ?_ ?_)
        · intro other mem
          rcases mem_append.mp mem with above | below
          · exact typeDecl?_of_mem_supertypes above
          · exact restIndexed other below
        · rw [length_append]
          omega

/-- The lineage of a type is the whole search from it. -/
theorem searches_lineage (index : Index) (decl : TypeDecl) :
    Searches index [] [decl] (index.lineage decl) := by
  have short := supertypes_length_le index decl
  have enough : headersLeft [decl.qualifiedName] index.types + decl.headerTypes.length + 1 ≤
      index.visitBound decl :=
    Nat.add_le_add_right (Nat.add_le_add_right (headersLeft_le _ _) _) 1
  unfold lineage
  -- the type at the start may be unknown to the index, so its own step is made here
  cases budget : index.visitBound decl with
  | zero => omega
  | succ bound =>
    rw [visit, if_neg (by simp)]
    refine .expand (by simp) (searches_visit bound _ _ ?_ ?_)
    · intro other mem
      rw [append_nil] at mem
      exact typeDecl?_of_mem_supertypes mem
    · rw [append_nil]
      omega

/-! ## Members that a search finds -/

theorem lineage_eq_cons (index : Index) (decl : TypeDecl) :
    ∃ rest, index.lineage decl = decl :: rest := by
  have search := searches_lineage index decl
  generalize index.lineage decl = visited at search ⊢
  cases search with
  | skip seen _ => cases seen
  | expand _ _ => exact ⟨_, rfl⟩

/-- A search from a type of the index meets types of the index. -/
theorem typeDecl?_of_mem_searches (search : Searches index seen stack visited)
    (indexed : ∀ decl ∈ stack, ∃ name, index.typeDecl? name = some decl) :
    ∀ decl ∈ visited, ∃ name, index.typeDecl? name = some decl := by
  induction search with
  | done => simp
  | skip _ _ ih => exact ih fun decl below => indexed decl (mem_cons_of_mem _ below)
  | expand _ _ ih =>
    intro decl mem
    rcases mem_cons.mp mem with rfl | further
    · exact indexed decl mem_cons_self
    · refine ih (fun other onStack => ?_) decl further
      rcases mem_append.mp onStack with above | below
      · exact typeDecl?_of_mem_supertypes above
      · exact indexed other (mem_cons_of_mem _ below)

theorem mem_methods_of_bestMethod? (best : bestMethod? call decl = some method) :
    method ∈ decl.methods := by
  obtain ⟨name, count⟩ := call
  cases count with
  | none => exact mem_of_mem_filter (mem_of_head? best)
  | some count =>
    rcases or_eq_some_iff.mp best with first | ⟨-, second⟩
    · exact mem_of_mem_filter (mem_of_find?_eq_some first)
    · exact mem_of_mem_filter (mem_of_find?_eq_some second)

/-- The method that a call reaches is declared. -/
theorem declares_of_findMethod? (named : index.Named) (present : index.typeDecl? name = some decl)
    (found : index.findMethod? call decl = some key) : index.declares key := by
  obtain ⟨type, inLineage, found⟩ := exists_of_findSome?_eq_some found
  obtain ⟨method, best, rfl⟩ := map_eq_some_iff.mp found
  obtain ⟨typeName, indexed⟩ := typeDecl?_of_mem_searches (index.searches_lineage decl)
    (by simpa using ⟨name, present⟩) type inLineage
  refine (declares_iff index _).mpr ⟨type, ?_,
    declaresMember_method (mem_methods_of_bestMethod? best)⟩
  rw [Key.method, named _ _ indexed]
  exact indexed

theorem bestMethod?_of_exact (declared : own ∈ decl.methods) (named : own.name = name)
    (takes : own.takesExactly count) :
    ∃ method, bestMethod? ⟨name, some count⟩ decl = some method ∧ method.name = name ∧
      method.arity = count := by
  have candidate : own ∈ decl.methods.filter (·.name == name) := by simp [declared, named]
  obtain ⟨method, found⟩ : ∃ method, (decl.methods.filter (·.name == name)).find?
    (·.takesExactly count) =
      some method := by
    rw [← isSome_iff_exists, find?_isSome]
    exact ⟨own, candidate, takes⟩
  have fits := (find?_some found :)
  have sameName := of_mem_filter (mem_of_find?_eq_some found)
  simp only [Method.takesExactly, Bool.and_eq_true, beq_iff_eq] at fits sameName
  exact ⟨method, by simp [bestMethod?, found], sameName, fits.2⟩

/-- A call reaches the method of the type itself if that takes exactly the given arguments. -/
theorem findMethod?_of_exact (index : Index) (declared : own ∈ decl.methods)
    (named : own.name = name) (takes : own.takesExactly count) :
    index.findMethod? ⟨name, some count⟩ decl = some (.method decl.qualifiedName name count) := by
  obtain ⟨rest, first⟩ := index.lineage_eq_cons decl
  obtain ⟨method, best, rfl, rfl⟩ := bestMethod?_of_exact declared named takes
  simp [findMethod?, first, best]

end JavaSlice.Index
