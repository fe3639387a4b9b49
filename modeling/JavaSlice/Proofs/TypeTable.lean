import JavaSlice.Proofs.Index
import Mathlib.Data.Finset.Card

/-!
# The table of types

An index keeps a type under its qualified name. A leaner index keeps only where the type stands: the
number of the file and a path of numbers, first that of a type at the top of the file and then, at
each step inwards, that of a member type. Such a table (`Index.located`) is filled by a recursion
over the nested types that makes the paths on its way, and types that come later take the names of
those before them.

The module compares the two. The types of a project stand in one order, files in turn and in a file
the member types before the type around them (`Location.Before`); this is the order in which they
are entered. Following a path undoes the making of it at every depth. So both tables hold the last
declaration of every name, no path leads astray, and each declaration either brings a new name or a
warning (`table_holds_last`).
-/

namespace JavaSlice

open List Option Source

namespace Source.TypeDecl

variable {path : List Nat}

/-! ## Paths to nested types -/

/-- The type that a path leads to from a type; each of its numbers counts the member types. -/
def at? (decl : TypeDecl) : List Nat → Option TypeDecl
  | [] => some decl
  | number :: path => decl.nested[number]?.bind fun member => member.at? path

/-- Whether the end of one path comes before the end of another: inner types come before the type
around them, and those beside each other in order. -/
def pathBefore : List Nat → List Nat → Prop
  | _ :: _, [] => True
  | [], _ => False
  | first :: path, second :: other => first < second ∨ first = second ∧ pathBefore path other

theorem pathBefore_append (before path other : List Nat) :
    pathBefore (before ++ path) (before ++ other) ↔ pathBefore path other := by
  induction before with
  | nil => rfl
  | cons number before ih => simp [pathBefore, ih]

theorem not_pathBefore_self (path : List Nat) : ¬ pathBefore path path := by
  induction path with
  | nil => exact id
  | cons number path ih => simpa [pathBefore] using ih

mutual

/-- A type and the types inside it, each with its path, in the order in which they are entered;
`path` leads to the type itself. -/
def placed (path : List Nat) : TypeDecl → List (List Nat × TypeDecl)
  | ⟨name, qualifiedName, kind, outer, header, preamble, constants, annotations, typeParams,
      headerTypes, members, nested⟩ =>
    placedAll path 0 nested ++
      [(path, ⟨name, qualifiedName, kind, outer, header, preamble, constants, annotations,
        typeParams, headerTypes, members, nested⟩)]

/-- The types of a list and the types inside them, where `path` leads to what is around them and the
first has the given number. -/
def placedAll (path : List Nat) (number : Nat) : List TypeDecl → List (List Nat × TypeDecl)
  | [] => []
  | decl :: decls => placed (path ++ [number]) decl ++ placedAll path (number + 1) decls

end

theorem placed_eq (path : List Nat) (decl : TypeDecl) :
    placed path decl = placedAll path 0 decl.nested ++ [(path, decl)] := by
  cases decl
  rw [placed]

mutual

/-- Numbering the places leaves out no type. -/
theorem map_snd_placed (path : List Nat) :
    ∀ decl : TypeDecl, (placed path decl).map (·.2) = decl.withNested 
  | ⟨name, qualifiedName, kind, outer, header, preamble, constants, annotations, typeParams,
      headerTypes, members, nested⟩ => by
    rw [placed, withNested, map_append, map_snd_placedAll path 0 nested]
    rfl

theorem map_snd_placedAll (path : List Nat) :
    ∀ (number : Nat) (decls : List TypeDecl),
      (placedAll path number decls).map (·.2) = withNestedOfAll decls
  | _, [] => rfl
  | number, decl :: decls => by
    rw [placedAll, withNestedOfAll, map_append, map_snd_placed _ decl,
      map_snd_placedAll path (number + 1) decls]

end

mutual

/-- Following a path undoes the making of it. -/
theorem at?_of_mem_placed {path entry} : ∀ {decl : TypeDecl},
    entry ∈ placed path decl → ∃ rest, entry.1 = path ++ rest ∧ decl.at? rest = some entry.2
  | ⟨name, qualifiedName, kind, outer, header, preamble, constants, annotations, typeParams,
      headerTypes, members, nested⟩, mem => by
    rw [placed, mem_append] at mem
    rcases mem with inner | itself
    · obtain ⟨offset, rest, member, same, stands, found⟩ := at?_of_mem_placedAll inner
      refine ⟨offset :: rest, by rw [same, Nat.zero_add], ?_⟩
      rw [at?, stands, bind_some, found]
    · obtain rfl := mem_singleton.mp itself
      exact ⟨[], (append_nil _).symm, rfl⟩

theorem at?_of_mem_placedAll {path entry} : ∀ {number : Nat} {decls : List TypeDecl},
    entry ∈ placedAll path number decls → ∃ offset rest member,
      entry.1 = path ++ (number + offset) :: rest ∧ decls[offset]? = some member ∧
        member.at? rest = some entry.2
  | number, decl :: decls, mem => by
    rw [placedAll, mem_append] at mem
    rcases mem with inner | later
    · obtain ⟨rest, same, found⟩ := at?_of_mem_placed inner
      exact ⟨0, rest, decl, by rw [same, Nat.add_zero, append_assoc, singleton_append], rfl, found⟩
    · obtain ⟨offset, rest, member, same, stands, found⟩ := at?_of_mem_placedAll later
      exact ⟨offset + 1, rest, member, by rw [same, Nat.add_right_comm, Nat.add_assoc],
        stands, found⟩

end

theorem placed_subset_placedAll {number offset decls member}
    (stands : decls[offset]? = some member) :
    placed (path ++ [number + offset]) member ⊆ placedAll path number decls := by
  induction decls generalizing number offset with
  | nil => cases stands
  | cons decl decls ih =>
    rw [placedAll]
    cases offset with
    | zero =>
      obtain rfl := some.inj stands
      exact subset_append_left _ _
    | succ offset =>
      have later : placed (path ++ [number + 1 + offset]) member ⊆ placedAll path
          (number + 1) decls :=
        ih stands
      rw [Nat.add_right_comm] at later
      exact subset_append_of_subset_right _ later

/-- Every path that leads to a type is made. -/
theorem mem_placed_of_at? {rest decl found} (leads : decl.at? rest = some found) :
    (path ++ rest, found) ∈ placed path decl := by
  induction rest generalizing path decl with
  | nil =>
    obtain rfl := some.inj leads
    rw [placed_eq, append_nil]
    exact mem_append_right _ (mem_singleton_self _)
  | cons number rest ih =>
    obtain ⟨member, stands, leads⟩ := bind_eq_some_iff.mp leads
    have inner : (path ++ [0 + number] ++ rest, found) ∈ placed (path ++ [0 + number]) member :=
      ih leads
    have all := placed_subset_placedAll stands inner
    rw [Nat.zero_add, append_assoc, singleton_append] at all
    rw [placed_eq]
    exact mem_append_left _ all

mutual

/-- Types are entered in the order of their paths. -/
theorem pairwise_placed (path : List Nat) : ∀ decl : TypeDecl,
    (placed path decl).Pairwise fun first second => pathBefore first.1 second.1
  | ⟨name, qualifiedName, kind, outer, header, preamble, constants, annotations, typeParams,
      headerTypes, members, nested⟩ => by
    rw [placed, pairwise_append]
    refine ⟨pairwise_placedAll path 0 nested, pairwise_singleton _ _,
      fun inner isInner last isLast => ?_⟩
    obtain ⟨offset, rest, _, same, -⟩ := at?_of_mem_placedAll isInner
    obtain rfl := mem_singleton.mp isLast
    have inside := (pathBefore_append path ((0 + offset) :: rest) []).mpr trivial
    rwa [← same, append_nil] at inside

theorem pairwise_placedAll (path : List Nat) : ∀ (number : Nat) (decls : List TypeDecl),
    (placedAll path number decls).Pairwise fun first second => pathBefore first.1 second.1
  | _, [] => .nil
  | number, decl :: decls => by
    rw [placedAll, pairwise_append]
    refine ⟨pairwise_placed _ decl, pairwise_placedAll path (number + 1) decls,
      fun inner isInner later isLater => ?_⟩
    obtain ⟨rest, same, -⟩ := at?_of_mem_placed isInner
    obtain ⟨offset, rest', _, same', -⟩ := at?_of_mem_placedAll isLater
    rw [same, same', append_assoc, pathBefore_append]
    exact .inl (by omega)

end

end Source.TypeDecl

namespace Index

variable {units : List CompilationUnit} {type : IndexedType} {name : String}
variable {location : Location} {table : Table IndexedType} {types : List IndexedType}

/-! ## Where types stand -/

/-- Where a type stands: the number of its file, and a path from the types at the top inwards. -/
structure Location where
  file : Nat
  path : List Nat

/-- Whether one type is entered before another: files come in turn, and in a file inner types come
first. -/
def Location.Before (first second : Location) : Prop :=
  first.file < second.file ∨ first.file = second.file ∧ TypeDecl.pathBefore first.path second.path

theorem Location.not_before_self (location : Location) : ¬ location.Before location := by
  rintro (before | ⟨-, before⟩)
  · exact Nat.lt_irrefl _ before
  · exact TypeDecl.not_pathBefore_self _ before

/-- The type that stands somewhere, with its file. -/
def typeAt? (units : List CompilationUnit) (location : Location) : Option IndexedType :=
  match location.path with
  | [] => none
  | number :: path => do
    let unit ← units[location.file]?
    let top ← unit.types[number]?
    let decl ← top.at? path
    some ⟨unit, decl⟩

/-- The types of some files, each with where it stands, in the order in which they are entered. -/
def placedTypes (units : List CompilationUnit) : List (Location × IndexedType) :=
  units.zipIdx.flatMap fun (unit, file) =>
    (TypeDecl.placedAll [] 0 unit.types).map fun (path, decl) => (⟨file, path⟩, ⟨unit, decl⟩)

/-- A place leads to a type of a file. -/
theorem mem_placedTypes :
    (location, type) ∈ placedTypes units ↔
      units[location.file]? = some type.unit ∧
        (location.path, type.decl) ∈ TypeDecl.placedAll [] 0 type.unit.types := by
  obtain ⟨file, path⟩ := location
  obtain ⟨unit, decl⟩ := type
  simp only [placedTypes, mem_flatMap, List.mem_map, Prod.exists, Prod.mk.injEq, Location.mk.injEq,
    IndexedType.mk.injEq, mem_zipIdx_iff_getElem?]
  constructor
  · rintro ⟨_, _, stands, _, _, inside, ⟨rfl, rfl⟩, rfl, rfl⟩
    exact ⟨stands, inside⟩
  · rintro ⟨stands, inside⟩
    exact ⟨unit, file, stands, path, decl, inside, ⟨rfl, rfl⟩, rfl, rfl⟩

theorem map_snd_placedTypes (units : List CompilationUnit) :
    (placedTypes units).map (·.2) = declarations units := by
  have files : units.zipIdx.map (·.1) = units := zipIdx_map_fst 0 units
  have types : ∀ unit : CompilationUnit,
      (TypeDecl.placedAll [] 0 unit.types).map (fun entry => (⟨unit, entry.2⟩ : IndexedType)) =
        unit.declaredTypes.map (⟨unit, ·⟩) := by
    intro unit
    rw [CompilationUnit.declaredTypes, ← TypeDecl.map_snd_placedAll [] 0, List.map_map]
    rfl
  rw [placedTypes, map_flatMap, declarations]
  conv_rhs => rw [← files, flatMap_map]
  refine flatMap_congr fun entry _ => ?_
  rw [List.map_map, ← types]
  rfl

/-- A type stands exactly where it was placed. -/
theorem typeAt?_eq_some_iff :
    typeAt? units location = some type ↔ (location, type) ∈ placedTypes units := by
  rw [mem_placedTypes]
  obtain ⟨file, path⟩ := location
  obtain ⟨unit, decl⟩ := type
  cases path with
  | nil =>
    refine ⟨nofun, fun ⟨_, inside⟩ => ?_⟩
    obtain ⟨_, _, _, same, -⟩ := TypeDecl.at?_of_mem_placedAll inside
    cases same
  | cons number path =>
    simp only [typeAt?, bind, bind_eq_some_iff, some.injEq, IndexedType.mk.injEq]
    constructor
    · rintro ⟨_, stands, top, isTop, _, leads, rfl, rfl⟩
      refine ⟨stands, ?_⟩
      have made : ([] ++ [0 + number] ++ path, _) ∈ TypeDecl.placed ([] ++ [0 + number]) top :=
        TypeDecl.mem_placed_of_at? leads
      have inside := TypeDecl.placed_subset_placedAll isTop made
      rwa [Nat.zero_add] at inside
    · rintro ⟨stands, inside⟩
      obtain ⟨offset, rest, top, same, isTop, leads⟩ := TypeDecl.at?_of_mem_placedAll inside
      rw [Nat.zero_add] at same
      obtain ⟨rfl, rfl⟩ := cons.inj same
      exact ⟨unit, stands, top, isTop, decl, leads, rfl, rfl⟩

/-- Types stand in the order of their places. -/
theorem pairwise_placedTypes (units : List CompilationUnit) :
    (placedTypes units).Pairwise fun first second => first.1.Before second.1 := by
  have numbers : units.zipIdx.Pairwise fun first second => first.2 < second.2 := by
    rw [← pairwise_map (f := Prod.snd), zipIdx_map_snd]
    exact pairwise_lt_range'
  rw [placedTypes, pairwise_flatMap]
  constructor
  · intro entry _
    rw [pairwise_map]
    exact (TypeDecl.pairwise_placedAll [] 0 entry.1.types).imp fun before => .inr ⟨rfl, before⟩
  · refine numbers.imp fun before _ isFirst _ isSecond => ?_
    obtain ⟨_, -, rfl⟩ := List.mem_map.mp isFirst
    obtain ⟨_, -, rfl⟩ := List.mem_map.mp isSecond
    exact .inl before

/-! ## A table of where types stand -/

mutual

/-- Enters where the types inside a type stand, and then where the type itself does. -/
def register (file : Nat) (path : List Nat) : TypeDecl → Table Location → Table Location
  | { qualifiedName, nested, .. }, table =>
    (registerAll file path 0 nested table).put qualifiedName ⟨file, path⟩

/-- Enters where the types of a list stand, the first of which has the given number. -/
def registerAll (file : Nat) (path : List Nat) (number : Nat) : List TypeDecl → Table Location →
    Table Location
  | [], table => table
  | decl :: decls, table =>
    registerAll file path (number + 1) decls (register file (path ++ [number]) decl table)

end

/-- Where the types of some files stand, by their qualified names. -/
def located (units : List CompilationUnit) : Table Location :=
  units.zipIdx.foldl (fun table (unit, file) => registerAll file [] 0 unit.types table) []

/-- Enters where a type stands under its name. -/
def enterPlaced (table : Table Location) (entry : Location × IndexedType) : Table Location :=
  table.put entry.2.decl.qualifiedName entry.1

mutual

theorem register_eq (unit : CompilationUnit) (file : Nat) (path : List Nat) :
    ∀ (decl : TypeDecl) (table : Table Location),
      register file path decl table = ((TypeDecl.placed path decl).map fun (path, decl) =>
        ((⟨file, path⟩, ⟨unit, decl⟩) : Location × IndexedType)).foldl enterPlaced table
  | ⟨name, qualifiedName, kind, outer, header, preamble, constants, annotations, typeParams,
      headerTypes, members, nested⟩, table => by
    rw [register, TypeDecl.placed, map_append, foldl_append, registerAll_eq unit file path 0 nested]
    rfl

theorem registerAll_eq (unit : CompilationUnit) (file : Nat) (path : List Nat) :
    ∀ (number : Nat) (decls : List TypeDecl) (table : Table Location),
      registerAll file path number decls table =
          ((TypeDecl.placedAll path number decls).map fun (path, decl) =>
        ((⟨file, path⟩, ⟨unit, decl⟩) : Location × IndexedType)).foldl enterPlaced table
  | _, [], _ => rfl
  | number, decl :: decls, table => by
    rw [registerAll, TypeDecl.placedAll, map_append, foldl_append, register_eq unit file _ decl,
      registerAll_eq unit file path (number + 1) decls]

end

/-- Registering a file enters its types in order. -/
theorem located_eq (units : List CompilationUnit) :
    located units = (placedTypes units).foldl enterPlaced [] := by
  rw [located, placedTypes, foldl_flatMap]
  congr
  funext table entry
  exact registerAll_eq entry.1 entry.2 [] 0 entry.1.types table

/-- Enters a type under its name, together with where it stands. -/
def enterBoth (table : Table (Location × IndexedType)) (entry : Location × IndexedType) :
    Table (Location × IndexedType) :=
  table.put entry.2.decl.qualifiedName entry

/-- The types of some files by their qualified names, each with where it stands. -/
def stored (units : List CompilationUnit) : Table (Location × IndexedType) :=
  (placedTypes units).foldl enterBoth []

/-- The table of places is a part of the table of both. -/
theorem located_eq_map (units : List CompilationUnit) :
    located units = (stored units).map fun (name, entry) => (name, entry.1) := by
  rw [located_eq]
  exact Table.foldl_put_map (Prod.fst : Location × IndexedType → Location)
    (·.2.decl.qualifiedName) id (placedTypes units) []

/-- The table of types is the other part of it. -/
theorem types_eq_map (units : List CompilationUnit) :
    (ofUnits units).types = (stored units).map fun (name, entry) => (name, entry.2) := by
  rw [ofUnits, ← map_snd_placedTypes, foldl_map]
  exact Table.foldl_put_map (Prod.snd : Location × IndexedType → IndexedType)
    (·.2.decl.qualifiedName) id (placedTypes units) []

theorem mem_foldl_enterBoth {entries : List (Location × IndexedType)}
    {table : Table (Location × IndexedType)} {item : String × Location × IndexedType}
    (mem : item ∈ entries.foldl enterBoth table) : item ∈ table ∨ item.2 ∈ entries := by
  induction entries generalizing table with
  | nil => exact .inl mem
  | cons entry entries ih =>
    rcases ih mem with before | later
    · rcases Table.mem_put before with earlier | same
      · exact .inl earlier
      · exact .inr (same ▸ mem_cons_self)
    · exact .inr (mem_cons_of_mem _ later)

/-- Where a name is said to stand, there stands the type of that name. -/
theorem map_typeAt?_located (units : List CompilationUnit) (name : String) :
    ((located units).get? name).map (typeAt? units) =
      ((ofUnits units).types.get? name).map some := by
  rw [located_eq_map, types_eq_map, Table.get?_map, Table.get?_map]
  cases found : (stored units).get? name with
  | none => rfl
  | some entry =>
    have placed := (mem_foldl_enterBoth (Table.mem_of_get? found)).resolve_left not_mem_nil
    exact congrArg some (typeAt?_eq_some_iff.mpr placed)

/-! ## Names and warnings -/

theorem mem_names_foldl_enter :
    name ∈ Table.names (types.foldl enter table) ↔
      name ∈ table.names ∨ name ∈ types.map (·.decl.qualifiedName) := by
  rw [← Table.get?_isSome_iff, get?_foldl_enter, isSome_or, Bool.or_eq_true,
    Table.get?_isSome_iff, find?_isSome, or_comm]
  simp

theorem names_foldl_enter_nodup (once : table.names.Nodup) :
    (Table.names (types.foldl enter table)).Nodup := by
  induction types generalizing table with
  | nil => exact once
  | cons type types ih => exact ih (Table.names_put_nodup once _ _)

/-- There is one entry for each name that is declared. -/
theorem typeCount_ofUnits (units : List CompilationUnit) :
    (ofUnits units).typeCount =
      ((declarations units).map (·.decl.qualifiedName)).toFinset.card := by
  have once : (ofUnits units).types.names.Nodup := names_foldl_enter_nodup nodup_nil
  have same : (ofUnits units).types.names.toFinset =
      ((declarations units).map (·.decl.qualifiedName)).toFinset := by
    ext name
    rw [List.mem_toFinset, List.mem_toFinset, ofUnits, mem_names_foldl_enter]
    simp
  rw [← same, toFinset_card_of_nodup once, Table.names, length_map, typeCount]

/-- Every declaration brings a new name or a warning. -/
theorem length_duplicateWarnings (seen : List String) (types : List IndexedType) :
    (duplicateWarnings seen types).length +
      ((types.map (·.decl.qualifiedName)).toFinset \ seen.toFinset).card = types.length := by
  induction types generalizing seen with
  | nil => simp [duplicateWarnings]
  | cons type types ih =>
    rw [duplicateWarnings, map_cons, toFinset_cons, length_cons]
    by_cases known : type.decl.qualifiedName ∈ seen
    · rw [if_pos (contains_iff_mem.mpr known), length_cons,
        Finset.insert_sdiff_of_mem _ (List.mem_toFinset.mpr known), ← ih seen]
      omega
    · have further := ih (type.decl.qualifiedName :: seen)
      rw [toFinset_cons, Finset.sdiff_insert] at further
      rw [if_neg (by simpa using known), Finset.insert_sdiff_of_notMem _ (by simpa using known),
        ← Finset.insert_erase (Finset.mem_insert_self _ _), Finset.erase_insert_eq_erase,
        Finset.card_insert_of_notMem (Finset.notMem_erase _ _)]
      omega

/-- Every type is in the table or gives a warning. -/
theorem length_warnings (units : List CompilationUnit) :
    (ofUnits units).warnings.length + (ofUnits units).typeCount = (declarations units).length := by
  have counted := length_duplicateWarnings [] (declarations units)
  rwa [toFinset_nil, Finset.sdiff_empty, ← typeCount_ofUnits] at counted

/-! ## The last declaration of a name -/

/-- A type is the last one of a name in a list. -/
def LastNamed (name : String) (types : List IndexedType) (type : IndexedType) : Prop :=
  type.decl.qualifiedName = name ∧
    ∃ before after, types = before ++ type :: after ∧ ∀ later ∈ after,
      later.decl.qualifiedName ≠ name

/-- Of types with one name the table holds the last. -/
theorem get?_ofUnits_eq_some_iff :
    (ofUnits units).types.get? name = some type ↔ LastNamed name (declarations units) type := by
  rw [get?_ofUnits, find?_eq_some_iff_append, beq_iff_eq]
  refine and_congr_right fun _ => ⟨?_, ?_⟩
  · rintro ⟨after, before, split, others⟩
    refine ⟨before.reverse, after.reverse, ?_, fun later isLater => ?_⟩
    · have turned := congrArg List.reverse split
      simpa using turned
    · simpa using others later (by simpa using isLater)
  · rintro ⟨before, after, split, others⟩
    exact ⟨after.reverse, before.reverse, by simp [split], fun later isLater => by
      simpa using others later (by simpa using isLater)⟩

/-- The table has no type that is not declared. -/
theorem get?_ofUnits_eq_none_iff :
    (ofUnits units).types.get? name = none ↔
      ∀ type ∈ declarations units, type.decl.qualifiedName ≠ name := by
  rw [get?_ofUnits, find?_eq_none]
  simp

/-- The table of types is exact, whatever is declared twice. The declarations are the types at all
depths of all files, files in turn and inner types first. Under a name the table has the last
declaration of that name and its file, and nothing if there is none. The table that keeps only where
types stand has the same names, and each of its paths leads to the type that the name has. There are
as many entries as names, and a warning for each other declaration. -/
theorem table_holds_last (units : List CompilationUnit) : let index := ofUnits units
    let types := declarations units
    (∃ locations : List Location, locations.Nodup ∧ locations.Pairwise Location.Before ∧
      locations.map (typeAt? units) = types.map some ∧
      ∀ location, location ∈ locations ↔ (typeAt? units location).isSome = true) ∧
    (∀ name unit decl, index.unitOf? name = some unit ∧ index.typeDecl? name = some decl ↔
      LastNamed name types ⟨unit, decl⟩) ∧
    (∀ name, index.unitOf? name = none ↔ ∀ type ∈ types, type.decl.qualifiedName ≠ name) ∧
    (∀ name, index.typeDecl? name = none ↔ ∀ type ∈ types, type.decl.qualifiedName ≠ name) ∧
    (∀ name decl, index.typeDecl? name = some decl → decl.qualifiedName = name) ∧
    (∀ name, ((located units).get? name).map (typeAt? units) = (index.types.get? name).map some) ∧
    index.typeCount = (types.map (·.decl.qualifiedName)).toFinset.card ∧
    index.warnings.length = types.length - index.typeCount := by
  intro index types
  have inOrder : ((placedTypes units).map (·.1)).Pairwise Location.Before :=
    pairwise_map.mpr (pairwise_placedTypes units)
  refine ⟨⟨(placedTypes units).map (·.1), ?_, inOrder, ?_, fun location => ?_⟩,
    fun name unit decl => ?_,
    fun name => ?_, fun name => ?_, named_ofUnits units, map_typeAt?_located units,
    typeCount_ofUnits units, Nat.eq_sub_of_add_eq (length_warnings units)⟩
  · refine inOrder.imp ?_
    rintro first _ before rfl
    exact first.not_before_self before
  · rw [show types = (placedTypes units).map (·.2) from (map_snd_placedTypes units).symm,
      List.map_map, List.map_map]
    exact map_congr_left fun entry placed => typeAt?_eq_some_iff.mpr placed
  · rw [List.mem_map, isSome_iff_exists]
    constructor
    · rintro ⟨entry, placed, rfl⟩
      exact ⟨entry.2, typeAt?_eq_some_iff.mpr placed⟩
    · rintro ⟨type, stands⟩
      exact ⟨(location, type), typeAt?_eq_some_iff.mp stands, rfl⟩
  · rw [← get?_ofUnits_eq_some_iff, unitOf?, typeDecl?]
    constructor
    · rintro ⟨isUnit, isDecl⟩
      obtain ⟨type, found, rfl⟩ := map_eq_some_iff.mp isUnit
      rw [found] at isDecl
      obtain rfl := some.inj isDecl
      exact found
    · intro found
      rw [found]
      exact ⟨rfl, rfl⟩
  · rw [unitOf?, map_eq_none_iff, get?_ofUnits_eq_none_iff]
  · rw [typeDecl?, map_eq_none_iff, get?_ofUnits_eq_none_iff]

end Index

end JavaSlice
