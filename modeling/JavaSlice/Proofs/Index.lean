import JavaSlice.Index.Lookup
import JavaSlice.Proofs.Table
import Mathlib.Data.List.Perm.Subperm

/-!
# The types and keys of an index

What an index holds under a name, in terms of the files that it was made from: the last declaration
of that name. A key is declared if the type that owns it is there and has the member. Seeds mean
declared keys, and the declared keys of a project can be listed, as many for each type as
`Walk.keyCount` says.
-/

namespace JavaSlice

open List Option Slice Source

namespace Index

variable {units : List CompilationUnit} {type : IndexedType} {decl : TypeDecl} {key : Key}

/-! ## What is found under a name -/

/-- Entering types one after the other leaves the last one of each name. -/
theorem get?_foldl_enter (types : List IndexedType) (table : Table IndexedType) (name : String) :
    Table.get? (types.foldl enter table) name =
      (types.reverse.find? (·.decl.qualifiedName == name)).or (table.get? name) := by
  induction types generalizing table with
  | nil => rfl
  | cons type rest ih =>
    rw [foldl_cons, ih, reverse_cons, find?_append, enter, Table.get?_put,
      Option.or_assoc]
    by_cases same : type.decl.qualifiedName = name
    · simp [same]
    · simp [same]

theorem get?_ofUnits (units : List CompilationUnit) (name : String) :
    (ofUnits units).types.get? name =
      (declarations units).reverse.find? (·.decl.qualifiedName == name) := by
  rw [ofUnits, get?_foldl_enter]
  simp

theorem mem_declarations_of_get? (found : (ofUnits units).types.get? name = some type) :
    type ∈ declarations units := by
  rw [get?_ofUnits] at found
  exact mem_reverse.mp (mem_of_find?_eq_some found)

/-- A type is found under its own qualified name. -/
theorem qualifiedName_of_get? (found : (ofUnits units).types.get? name = some type) :
    type.decl.qualifiedName = name := by
  rw [get?_ofUnits] at found
  exact beq_iff_eq.mp (find?_some found :)

/-- Every type is found under its own qualified name. -/
def Named (index : Index) : Prop :=
  ∀ name decl, index.typeDecl? name = some decl → decl.qualifiedName = name

theorem named_ofUnits (units : List CompilationUnit) : (ofUnits units).Named := by
  intro name decl found
  obtain ⟨type, present, rfl⟩ := map_eq_some_iff.mp found
  exact qualifiedName_of_get? present

/-- If no name is declared twice, every declaration is found under its name. -/
theorem get?_of_mem_declarations (unique : ((declarations units).map (·.decl.qualifiedName)).Nodup)
    (mem : type ∈ declarations units) :
    (ofUnits units).types.get? type.decl.qualifiedName = some type := by
  obtain ⟨found, present⟩ : ∃ found,
      (ofUnits units).types.get? type.decl.qualifiedName = some found := by
    rw [get?_ofUnits, ← isSome_iff_exists, find?_isSome]
    exact ⟨type, mem_reverse.mpr mem, beq_self_eq_true _⟩
  have same : found = type :=
    inj_on_of_nodup_map unique (mem_declarations_of_get? present) mem
      (qualifiedName_of_get? present)
  rw [present, same]

/-- The file and the declaration of a type are there together. -/
theorem unitOf?_eq_some_iff (index : Index) (name : String) :
    (∃ unit, index.unitOf? name = some unit) ↔ ∃ decl, index.typeDecl? name = some decl := by
  simp only [unitOf?, typeDecl?, ← isSome_iff_exists, isSome_map]

/-! ## Declared keys -/

theorem declares_iff (index : Index) (key : Key) :
    index.declares key ↔
      ∃ decl, index.typeDecl? key.owner = some decl ∧ declaresMember decl key.member := by
  unfold declares
  cases index.typeDecl? key.owner with
  | none => simp
  | some decl => simp

theorem declaresMember_method (mem : method ∈ decl.methods) :
    declaresMember decl (.method method.name method.arity) := by
  simp only [declaresMember, TypeDecl.method?, find?_isSome]
  exact ⟨method, mem, by simp⟩

theorem declaresMember_constructor (mem : constructor ∈ decl.constructors) :
    declaresMember decl (.constructor constructor.arity) := by
  simp only [declaresMember, TypeDecl.constructor?, find?_isSome]
  exact ⟨constructor, mem, by simp⟩

/-- A seed means a declaration of the project. -/
theorem declares_of_resolveSeed? {index : Index} {owner member : String}
    (resolved : index.resolveSeed? owner member = some key) : index.declares key := by
  unfold resolveSeed? at resolved
  obtain ⟨decl, found, resolved⟩ := bind_eq_some_iff.mp resolved
  rw [declares_iff]
  split at resolved
  next method first =>
    cases resolved
    exact ⟨decl, found, declaresMember_method (mem_of_find?_eq_some first)⟩
  next _ =>
    split at resolved
    next isField =>
      cases resolved
      exact ⟨decl, found, isField⟩
    next _ =>
      split at resolved
      next _ =>
        obtain ⟨constructor, first, rfl⟩ := map_eq_some_iff.mp resolved
        exact ⟨decl, found, declaresMember_constructor (mem_of_head? first)⟩
      next _ => cases resolved

/-- The keys that a type declares under a name. -/
def keysOf (owner : String) (decl : TypeDecl) : List Key :=
  .type owner :: decl.fields.flatMap (fun field => field.names.map (.field owner)) ++
    decl.methods.map (fun method => .method owner method.name method.arity) ++
    decl.constructors.map fun constructor => .constructor owner constructor.arity

theorem mem_keysOf (declared : declaresMember decl key.member) : key ∈ keysOf key.owner decl := by
  obtain ⟨owner, member⟩ := key
  simp only [keysOf, mem_cons, mem_append, mem_flatMap, List.mem_map]
  cases member with
  | type => exact .inl (.inl (.inl rfl))
  | field name =>
    obtain ⟨field, mem, named⟩ := find?_isSome.mp declared
    exact .inl (.inl (.inr ⟨field, mem, name, contains_iff_mem.mp named, rfl⟩))
  | method name arity =>
    obtain ⟨method, mem, fits⟩ := find?_isSome.mp declared
    simp only [Bool.and_eq_true, beq_iff_eq] at fits
    exact .inl (.inr ⟨method, mem, by rw [fits.1, fits.2]; rfl⟩)
  | constructor arity =>
    obtain ⟨constructor, mem, fits⟩ := find?_isSome.mp declared
    exact .inr ⟨constructor, mem, by rw [beq_iff_eq.mp fits]; rfl⟩

/-- All keys that a project declares. -/
def declaredKeys (index : Index) : List Key :=
  index.types.flatMap fun entry => keysOf entry.1 entry.2.decl

theorem mem_declaredKeys {index : Index} (declared : index.declares key) :
    key ∈ index.declaredKeys := by
  obtain ⟨decl, found, member⟩ := (declares_iff index key).mp declared
  obtain ⟨type, present, rfl⟩ := map_eq_some_iff.mp found
  exact mem_flatMap.mpr ⟨(key.owner, type), Table.mem_of_get? present, mem_keysOf member⟩

end Index

end JavaSlice
