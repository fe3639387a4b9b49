import JavaSlice.Proofs.Index
import Mathlib.Logic.Relation

/-!
# Enclosing types

The types that enclose a type are found by following outer names through the index.
`Index.enclosingTypes` follows at most as many names as the index has types. This is no restriction
where outer names never lead back to where they started: the names passed on the way are distinct
names of the index, so the chain is at its end before the bound is reached
(`Index.chain_enclosingTypes`).

Source files nest types in one way: the outer name of a member type is the qualified name of the
type around it, and its own qualified name is that name, a dot and its simple name. Names get
shorter on the way out, so such files have no cycles, and the whole chain of a type lies in one
file.
-/

namespace JavaSlice

open List Option Source

namespace Index

variable {index : Index} {decl type : TypeDecl}
variable {start : Option String} {chain : List TypeDecl}

/-! ## Chains of outer names -/

/-- The type under one name gives another name as its outer one. -/
def OuterLink (index : Index) (inner outer : String) : Prop :=
  ∃ decl, index.typeDecl? inner = some decl ∧ decl.outer = some outer

/-- Following outer names never leads back to where it started. -/
def OuterAcyclic (index : Index) : Prop :=
  ∀ name, ¬ Relation.TransGen index.OuterLink name name

/-- The types met when outer names are followed from a name, if there is one, to the end. -/
inductive Chain (index : Index) : Option String → List TypeDecl → Prop where
  | top : Chain index none []
  | unknown {name : String} : index.typeDecl? name = none → Chain index (some name) []
  | link {name : String} {decl : TypeDecl} {rest : List TypeDecl} :
      index.typeDecl? name = some decl → Chain index decl.outer rest →
      Chain index (some name) (decl :: rest)

/-- The way out of the type under a name, if there is one, comes to an end. -/
def Ends (index : Index) (name : String) : Prop :=
  ∀ decl, index.typeDecl? name = some decl → ∃ chain, index.Chain decl.outer chain

theorem mem_names_of_typeDecl? (found : index.typeDecl? name = some decl) :
    name ∈ index.types.names := by
  obtain ⟨type, present, -⟩ := map_eq_some_iff.mp found
  exact Table.mem_names_of_get? present

/-- Where outer names lead is determined by where they start. -/
theorem Chain.unique
    (one : Chain index start first) (other : Chain index start second) : first = second := by
  induction one generalizing second with
  | top =>
    cases other
    rfl
  | unknown missing =>
    cases other with
    | unknown => rfl
    | link present => simp [missing] at present
  | link found _ ih =>
    cases other with
    | unknown missing => simp [found] at missing
    | link present further =>
      obtain rfl := some.inj (found.symm.trans present)
      rw [ih further]

/-- A chain that ends passes no name twice, so the table has as many names. -/
theorem Chain.length_le (ends : Chain index start chain) : chain.length ≤ index.typeCount := by
  have passed : ∃ names : List String, names.length = chain.length ∧ names.Nodup ∧
      ∀ name ∈ names, name ∈ index.types.names ∧
        ∃ rest, Chain index (some name) rest ∧ rest.length ≤ chain.length := by
    induction ends with
    | top | unknown => exact ⟨[], rfl, nodup_nil, forall_mem_nil _⟩
    | @link name decl rest found further ih =>
      obtain ⟨names, count, distinct, passed⟩ := ih
      have fresh : name ∉ names := by
        intro again
        obtain ⟨-, other, ends, short⟩ := passed name again
        rw [ends.unique (.link found further), length_cons] at short
        omega
      refine ⟨name :: names, by simp [count], nodup_cons.mpr ⟨fresh, distinct⟩,
        forall_mem_cons.mpr ⟨⟨mem_names_of_typeDecl? found, _, .link found further, Nat.le_refl _⟩,
          ?_⟩⟩
      intro other mem
      obtain ⟨known, rest, ends, short⟩ := passed other mem
      exact ⟨known, rest, ends, Nat.le_succ_of_le short⟩
  obtain ⟨names, count, distinct, passed⟩ := passed
  have bound := (distinct.subperm fun name mem => (passed name mem).1).length_le
  rwa [count, Table.names, length_map] at bound

theorem Chain.outerChain_eq (ends : Chain index start chain)
    (enough : chain.length ≤ bound) : index.outerChain bound start = chain := by
  induction ends generalizing bound with
  | top => cases bound <;> rfl
  | unknown missing => cases bound <;> simp [outerChain, missing]
  | link found _ ih =>
    cases bound with
    | zero => cases enough
    | succ bound => simp [outerChain, found, ih (Nat.le_of_succ_le_succ enough)]

/-- Where the way out of a type ends, nothing of it is cut off. -/
theorem Chain.enclosingTypes_eq (ends : Chain index decl.outer chain) :
    index.enclosingTypes decl = chain :=
  ends.outerChain_eq ends.length_le

/-- The bound is enough if it counts every name that has not been passed on the way. -/
theorem chain_outerChain (acyclic : index.OuterAcyclic) (bound : Nat) :
    ∀ (start : Option String) (passed : List String), passed.Nodup →
      (∀ name ∈ passed, name ∈ index.types.names) →
      (∀ name ∈ passed, ∀ next, start = some next → Relation.TransGen index.OuterLink name next) →
      index.typeCount ≤ passed.length + bound →
        Chain index start (index.outerChain bound start) := by
  induction bound with
  | zero =>
    intro start passed distinct known before enough
    cases start with
    | none => exact .top
    | some name =>
      refine .unknown ?_
      -- one more type would make more names than the index has
      by_contra present
      obtain ⟨decl, found⟩ := ne_none_iff_exists'.mp present
      have fresh : name ∉ passed := fun mem =>
        acyclic name (before name mem name rfl)
      have subset : name :: passed ⊆ index.types.names :=
        cons_subset.mpr ⟨mem_names_of_typeDecl? found, known⟩
      have count := ((nodup_cons.mpr ⟨fresh, distinct⟩).subperm subset).length_le
      simp only [length_cons, Table.names, length_map] at count
      simp only [typeCount] at enough
      omega
  | succ bound ih =>
    intro start passed distinct known before enough
    cases start with
    | none => exact .top
    | some name =>
      unfold outerChain
      split
      next decl found =>
        have fresh : name ∉ passed := fun mem =>
          acyclic name (before name mem name rfl)
        refine .link found (ih decl.outer (name :: passed) ?_ ?_ ?_ ?_)
        · exact nodup_cons.mpr ⟨fresh, distinct⟩
        · exact forall_mem_cons.mpr ⟨mem_names_of_typeDecl? found, known⟩
        · intro other mem next outer
          have step : index.OuterLink name next := ⟨decl, found, outer⟩
          rcases mem_cons.mp mem with rfl | earlier
          · exact .single step
          · exact .tail (before other earlier name rfl) step
        · rw [length_cons]
          omega
      next missing => exact .unknown missing

/-- Without cycles the enclosing types of a type are all types on the way out. -/
theorem chain_enclosingTypes (acyclic : index.OuterAcyclic) (decl : TypeDecl) :
    Chain index decl.outer (index.enclosingTypes decl) := by
  refine chain_outerChain acyclic index.typeCount decl.outer [] nodup_nil ?_ ?_ ?_
  · simp
  · simp
  · simp

/-! ## The types around a type -/

/-- One type names another as its outer type. -/
def OuterStep (index : Index) (inner outer : TypeDecl) : Prop :=
  ∃ name, inner.outer = some name ∧ index.typeDecl? name = some outer

/-- One type is another or encloses it, at any distance. -/
def Encloses (index : Index) (outer inner : TypeDecl) : Prop :=
  Relation.ReflTransGen index.OuterStep inner outer

/-- A bounded chain holds enclosing types only. -/
theorem encloses_of_mem_outerChain (bound : Nat) :
    ∀ {decl : TypeDecl}, type ∈ index.outerChain bound decl.outer → index.Encloses type decl := by
  induction bound with
  | zero =>
    intro decl mem
    simp [outerChain] at mem
  | succ bound ih =>
    intro decl mem
    cases outer : decl.outer with
    | none => simp [outer, outerChain] at mem
    | some name =>
      rw [outer, outerChain] at mem
      split at mem
      next next found =>
        have step : index.OuterStep decl next := ⟨name, outer, found⟩
        rcases mem_cons.mp mem with rfl | further
        · exact .single step
        · exact .head step (ih further)
      next _ => simp at mem

theorem encloses_of_mem_scopeTypes (mem : type ∈ index.scopeTypes decl) :
    index.Encloses type decl := by
  rcases mem_cons.mp mem with rfl | further
  · exact .refl
  · exact encloses_of_mem_outerChain index.typeCount further

/-- The types around a type of the index are types of the index. -/
theorem typeDecl?_of_encloses (found : index.typeDecl? owner = some decl)
    (around : index.Encloses type decl) : ∃ name, index.typeDecl? name = some type := by
  cases around with
  | refl => exact ⟨owner, found⟩
  | tail _ step =>
    obtain ⟨name, -, present⟩ := step
    exact ⟨name, present⟩

/-- A chain that runs to its end holds every enclosing type. -/
theorem Chain.mem_of_encloses (around : index.Encloses type decl) :
    ∀ {rest : List TypeDecl}, Chain index decl.outer rest → type = decl ∨ type ∈ rest := by
  induction around using Relation.ReflTransGen.head_induction_on with
  | refl => exact fun _ => .inl rfl
  | head step _ ih =>
    intro rest chain
    obtain ⟨name, outer, found⟩ := step
    rw [outer] at chain
    cases chain with
    | unknown missing => simp [found] at missing
    | link present further =>
      rw [found, some.injEq] at present
      subst present
      exact .inr (mem_cons.mpr (ih further))

theorem mem_scopeTypes_iff (acyclic : index.OuterAcyclic) :
    type ∈ index.scopeTypes decl ↔ index.Encloses type decl := by
  constructor
  · exact encloses_of_mem_scopeTypes
  · intro around
    exact mem_cons.mpr (Chain.mem_of_encloses around (chain_enclosingTypes acyclic decl))

end Index

/-! ## Nesting as source files write it -/

namespace Source

mutual

/-- Whether the types inside a type are nested in it as source files nest types, at every depth. -/
def TypeDecl.isNested : TypeDecl → Bool
  | ⟨_, qualifiedName, _, _, _, _, _, _, _, _, _, nested⟩ =>
    TypeDecl.areMembersOf qualifiedName nested

/-- Whether all types of a list are member types of the type with a qualified name: it is their
outer name, and they are qualified by it. The types inside them are nested likewise. -/
def TypeDecl.areMembersOf (encloser : String) : List TypeDecl → Bool
  | [] => true
  | decl :: decls =>
    decl.outer == some encloser && decl.qualifiedName == Dotted.join encloser decl.name &&
      decl.isNested && TypeDecl.areMembersOf encloser decls

end

/-- Whether the types of a file are nested as source files nest types: those at the top have no
outer name. -/
def CompilationUnit.isNested (unit : CompilationUnit) : Bool :=
  unit.types.all fun top => top.outer.isNone && top.isNested

namespace TypeDecl

/-- A type stands directly inside another. -/
structure IsMemberOf (member encloser : TypeDecl) : Prop where
  outer : member.outer = some encloser.qualifiedName
  qualifiedName : member.qualifiedName = Dotted.join encloser.qualifiedName member.name

theorem withNested_eq (decl : TypeDecl) :
    decl.withNested = withNestedOfAll decl.nested ++ [decl] := by
  cases decl
  simp [withNested]

theorem mem_withNestedOfAll :
    decl ∈ withNestedOfAll decls ↔ ∃ top ∈ decls, decl ∈ top.withNested := by
  induction decls with
  | nil => simp [withNestedOfAll]
  | cons first rest ih => simp [withNestedOfAll, ih]

mutual

/-- Every type below a well nested one stands directly inside another such type, or is the one at
the top. -/
theorem member_of_mem_withNested :
    ∀ {top decl : TypeDecl}, top.isNested → decl ∈ top.withNested →
      decl = top ∨ ∃ encloser ∈ top.withNested, decl.IsMemberOf encloser
  | ⟨name, qualifiedName, kind, outer, header, preamble, constants, annotations, typeParams,
      headerTypes, members, nested⟩, decl, inside, mem => by
    rw [isNested] at inside
    rw [withNested_eq] at mem ⊢
    rcases mem_append.mp mem with below | itself
    · refine .inr ?_
      rcases member_of_mem_withNestedOfAll inside below
        with ⟨direct, qualified⟩ | ⟨other, further, member⟩
      · exact ⟨_, mem_append_right _ (mem_singleton.mpr rfl), direct, qualified⟩
      · exact ⟨other, mem_append_left _ further, member⟩
    · exact .inl (mem_singleton.mp itself)

/-- Every type below some member types is one of them or stands directly inside another. -/
theorem member_of_mem_withNestedOfAll :
    ∀ {encloser : String} {decls : List TypeDecl} {decl : TypeDecl},
      areMembersOf encloser decls → decl ∈ withNestedOfAll decls →
      (decl.outer = some encloser ∧ decl.qualifiedName = Dotted.join encloser decl.name) ∨
        ∃ other ∈ withNestedOfAll decls, decl.IsMemberOf other
  | _, [], decl, _, mem => by simp [withNestedOfAll] at mem
  | encloser, first :: rest, decl, members, mem => by
    simp only [areMembersOf, Bool.and_eq_true, beq_iff_eq] at members
    obtain ⟨⟨direct, inside⟩, others⟩ := members
    rw [withNestedOfAll] at mem ⊢
    rcases mem_append.mp mem with here | later
    · rcases member_of_mem_withNested inside here with rfl | ⟨other, around, member⟩
      · exact .inl direct
      · exact .inr ⟨other, mem_append_left _ around, member⟩
    · rcases member_of_mem_withNestedOfAll others later with top | ⟨other, around, member⟩
      · exact .inl top
      · exact .inr ⟨other, mem_append_right _ around, member⟩

end

end TypeDecl

/-- A type of a well nested file is a top-level type or stands directly inside another type of the
file. -/
theorem CompilationUnit.member_of_mem_declaredTypes {unit : CompilationUnit} {decl : TypeDecl}
    (nested : unit.isNested) (mem : decl ∈ unit.declaredTypes) :
    decl.outer = none ∨ ∃ encloser ∈ unit.declaredTypes, decl.IsMemberOf encloser := by
  obtain ⟨top, isTop, below⟩ := TypeDecl.mem_withNestedOfAll.mp mem
  have shape := List.all_eq_true.mp nested top isTop
  rw [Bool.and_eq_true, isNone_iff_eq_none] at shape
  rcases TypeDecl.member_of_mem_withNested shape.2 below with rfl | ⟨encloser, around, member⟩
  · exact .inl shape.1
  · exact .inr ⟨encloser, TypeDecl.mem_withNestedOfAll.mpr ⟨top, isTop, around⟩, member⟩

end Source

namespace Index

variable {units : List CompilationUnit}

theorem mem_declarations_iff :
    type ∈ declarations units ↔ type.unit ∈ units ∧ type.decl ∈ type.unit.declaredTypes := by
  simp only [declarations, mem_flatMap, List.mem_map]
  constructor
  · rintro ⟨unit, mem, decl, declared, rfl⟩
    exact ⟨mem, declared⟩
  · rintro ⟨mem, declared⟩
    exact ⟨type.unit, mem, type.decl, declared, rfl⟩

/-- In well nested files the outer name is shorter than the name of the type. -/
theorem length_lt_of_outerLink {inner} (nested : ∀ unit ∈ units, unit.isNested)
    (linked : (ofUnits units).OuterLink inner outer) : outer.length < inner.length := by
  obtain ⟨decl, found, isOuter⟩ := linked
  obtain ⟨type, present, rfl⟩ := map_eq_some_iff.mp found
  obtain ⟨inProject, inFile⟩ := mem_declarations_iff.mp (mem_declarations_of_get? present)
  rcases CompilationUnit.member_of_mem_declaredTypes (nested _ inProject) inFile with
    atTop | ⟨encloser, -, member⟩
  · simp [atTop] at isOuter
  · rw [member.outer, some.injEq] at isOuter
    rw [← qualifiedName_of_get? present, member.qualifiedName, ← isOuter]
    simp only [Dotted.join, String.length_append]
    have dot : (".").length = 1 := rfl
    omega

/-- Well nested files have no cycles of outer names, even if some type is declared twice. -/
theorem outerAcyclic_of_isNested (nested : ∀ unit ∈ units, unit.isNested) :
    (ofUnits units).OuterAcyclic := by
  intro name cycle
  have shorter : ∀ other, Relation.TransGen (ofUnits units).OuterLink name other →
      other.length < name.length := by
    intro other path
    induction path with
    | single linked => exact length_lt_of_outerLink nested linked
    | tail _ linked ih => exact Nat.lt_trans (length_lt_of_outerLink nested linked) ih
  exact Nat.lt_irrefl _ (shorter name cycle)

/-- In well nested files without repeated names, the types around a type are types of the same
file. -/
theorem get?_of_encloses (unique : ((declarations units).map (·.decl.qualifiedName)).Nodup)
    (nested : ∀ unit ∈ units, unit.isNested) (declared : type ∈ declarations units)
    (around : (ofUnits units).Encloses outer type.decl) :
    (ofUnits units).types.get? outer.qualifiedName = some ⟨type.unit, outer⟩ := by
  induction around with
  | refl => exact get?_of_mem_declarations unique declared
  | tail _ step ih =>
    obtain ⟨name, isOuter, found⟩ := step
    obtain ⟨inProject, inFile⟩ := mem_declarations_iff.mp (mem_declarations_of_get? ih)
    rcases CompilationUnit.member_of_mem_declaredTypes (nested _ inProject) inFile with
      atTop | ⟨encloser, declaredThere, member⟩
    · exact absurd (isOuter.symm.trans atTop) (by simp)
    · have same : name = encloser.qualifiedName :=
        some.inj (isOuter.symm.trans member.outer)
      have declared : (⟨type.unit, encloser⟩ : IndexedType) ∈ declarations units :=
        mem_declarations_iff.mpr ⟨inProject, declaredThere⟩
      have present := get?_of_mem_declarations unique declared
      rw [same, typeDecl?, present, map_some, some.injEq] at found
      subst found
      exact present

end Index

end JavaSlice
