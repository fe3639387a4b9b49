import JavaSlice.Proofs.Names

/-!
# The order in which names are looked up

A simple name in a file may be explained in six ways, the *tiers*: by an import of one type, by
an import of one static member, by a type of the file, by a type of its package, by an import of all
types of a package, and by an import of all static members of a type. They are meant to be tried in
this order, and within a tier the import that stands first in the file decides
(`Index.resolveInOrder?`).

The index makes one search among the single imports and one among the wildcards, static ones or not.
So the order holds, except where a static import overtakes (`Index.Overtaken`): it stands before
every plain one of its search, and one of those explains the name too. The static import is taken
then (`resolution_order`).
-/

namespace JavaSlice

open List Source Slice

namespace Index

/-! ## Tiers -/

/-- Where the meaning of a name may come from. -/
inductive Tier where
  /-- Imports of single names or of all names below one, of types or of static members. -/
  | imports (isWildcard isStatic : Bool)
  /-- Types of the file, member types included. -/
  | file
  /-- Types of the package of the file. -/
  | package
deriving DecidableEq, Repr

/-- The tiers in their order. -/
def Tier.all : List Tier :=
  [.imports false false, .imports false true, .file, .package, .imports true false,
    .imports true true]

/-- Whether an import explains a name: a single import by its last segment, and a wildcard if there
is such a type or such a field. -/
def explains (index : Index) (name : String) (line : Import) : Bool :=
  if line.isWildcard then
    if line.isStatic then index.declares (.field line.name name)
      else index.hasType (Dotted.join line.name name)
  else line.simpleName == name

/-- The meaning that an import gives to a name that it explains. -/
def offer (index : Index) (name : String) (line : Import) : Resolution :=
  let target := match line.isWildcard, line.isStatic with
    | false, false => if index.hasType line.name then some (.type line.name) else none
    | false, true => line.qualifier?.bind (index.staticMember? · name)
    | true, false => some (.type (Dotted.join line.name name))
    | true, true => some (.field line.name name)
  ⟨some line, target⟩

/-- The imports of a file that explain a name, single ones or wildcards, in source order. -/
def explaining (index : Index) (unit : CompilationUnit) (name : String) (isWildcard : Bool) :
    List Import :=
  unit.imports.filter fun line => line.isWildcard == isWildcard && index.explains name line

/-- What a tier offers for a name, in source order. -/
def offers (index : Index) (unit : CompilationUnit) (name : String) : Tier → List Resolution
  | .imports isWildcard isStatic =>
    ((index.explaining unit name isWildcard).filter (·.isStatic == isStatic)).map (index.offer name)
  | .file => (unit.findDeclared? name).toList.map fun decl =>
    ⟨none, some (.type decl.qualifiedName)⟩
  | .package =>
    if index.hasType (unit.qualify name) then [⟨none, some (.type (unit.qualify name))⟩] else []

/-- The meaning of a simple name by the first offer, one tier after the other. -/
def resolveInOrder? (index : Index) (unit : CompilationUnit) (name : String) : Option Resolution :=
  (Tier.all.flatMap (index.offers unit name)).head?

/-! ## The two searches among imports -/

theorem resolveImport_eq_offer (index : Index) (name : String)
    (single : line.isWildcard = false) : index.resolveImport line name = index.offer name line := by
  rw [resolveImport, offer, single]
  cases line.isStatic <;> rfl

theorem resolveWildcard?_eq_offer (index : Index) (name : String) (wild : line.isWildcard) :
    index.resolveWildcard? line name = if index.explains name line then some (index.offer name line)
      else none := by
  rw [resolveWildcard?, explains, offer, wild, if_pos rfl]
  cases line.isStatic with
  | false => rfl
  | true =>
    simp only [if_true, declares, Key.field, declaresMember, bind]
    cases index.typeDecl? line.name with
    | none => rfl
    | some decl => cases found : decl.field? name <;> simp [found]

section

variable (index : Index) (unit : CompilationUnit) (name : String)

theorem singleImport?_eq : singleImport? unit name = (index.explaining unit name false).head? := by
  rw [singleImport?, explaining, head?_filter]
  congr 1
  funext line
  cases wild : line.isWildcard <;> simp [explains, wild]

theorem findSome?_resolveWildcard? :
    (unit.imports.filter (·.isWildcard)).findSome? (index.resolveWildcard? · name) =
      (index.explaining unit name true).head?.map (index.offer name) := by
  rw [explaining]
  induction unit.imports with
  | nil => rfl
  | cons line rest ih =>
    cases wild : line.isWildcard with
    | false => simpa [wild] using ih
    | true =>
      have offered := index.resolveWildcard?_eq_offer name wild
      cases explained : index.explains name line <;> simp_all

/-- A simple name means what the first single import that explains it says, else a type of the file
or of its package, else what the first wildcard says that explains it. -/
theorem resolveSimple?_eq :
    index.resolveSimple? unit name =
      ((index.explaining unit name false).head?.map (index.offer name)).or
        ((index.offers unit name .file).head?.or
          ((index.offers unit name .package).head?.or
            ((index.explaining unit name true).head?.map (index.offer name)))) := by
  rw [resolveSimple?, singleImport?_eq index, findSome?_resolveWildcard?]
  cases first : (index.explaining unit name false).head? with
  | some line =>
    have single : line.isWildcard = false := by
      have explained := of_mem_filter (mem_of_head? first)
      simp only [Bool.and_eq_true, beq_iff_eq] at explained
      exact explained.1
    exact congrArg some (index.resolveImport_eq_offer name single)
  | none =>
    rw [offers, offers]
    cases unit.findDeclared? name with
    | some decl => rfl
    | none =>
      dsimp only
      split <;> rfl

theorem resolveInOrder?_eq :
    index.resolveInOrder? unit name =
      ((index.offers unit name (.imports false false)).head?.or
        (index.offers unit name (.imports false true)).head?).or
        ((index.offers unit name .file).head?.or
          ((index.offers unit name .package).head?.or
            ((index.offers unit name (.imports true false)).head?.or
              (index.offers unit name (.imports true true)).head?))) := by
  simp only [resolveInOrder?, Tier.all, flatMap_cons, flatMap_nil, append_nil, head?_append,
    Option.or_assoc]

end

/-! ## Static imports that overtake -/

/-- The first of some imports is static, and a plain one follows. -/
def StaticFirst (lines : List Import) : Prop :=
  (∃ first ∈ lines.head?, first.isStatic = true) ∧ ∃ plain ∈ lines, plain.isStatic = false

instance (lines : List Import) : Decidable (StaticFirst lines) :=
  inferInstanceAs (Decidable ((∃ first ∈ lines.head?, first.isStatic = true) ∧ ∃ plain ∈ lines,
    plain.isStatic = false))

/-- A static import overtakes the plain ones that explain a name, in the search that finds its
meaning. -/
def Overtaken (index : Index) (unit : CompilationUnit) (name : String) : Prop :=
  StaticFirst (index.explaining unit name false) ∨
    index.explaining unit name false = [] ∧ index.offers unit name .file = [] ∧
      index.offers unit name .package = [] ∧ StaticFirst (index.explaining unit name true)

instance (index : Index) (unit : CompilationUnit) (name : String) :
    Decidable (index.Overtaken unit name) :=
  inferInstanceAs (Decidable (_ ∨ _ ∧ _ ∧ _ ∧ _))

/-- Unless the first import is static and a plain one follows, plain imports may as well be searched
first. -/
theorem head?_eq_plain_or_static (ordered : ¬ StaticFirst lines) :
    lines.head? = (lines.filter (·.isStatic == false)).head?.or
      (lines.filter (·.isStatic == true)).head? := by
  cases lines with
  | nil => rfl
  | cons first rest =>
    cases isStatic : first.isStatic with
    | false => simp [isStatic]
    | true =>
      have allStatic : (first :: rest).filter (·.isStatic == false) = [] := by
        rw [filter_eq_nil_iff]
        intro plain listed isPlain
        exact ordered ⟨⟨first, rfl, isStatic⟩, plain, listed, beq_iff_eq.mp isPlain⟩
      rw [allStatic]
      simp [isStatic]

theorem StaticFirst.heads (first : StaticFirst lines) :
    ∃ line plain, lines.head? = some line ∧ line.isStatic ∧ plain.isStatic = false ∧
      (lines.filter (·.isStatic == false)).head? = some plain := by
  obtain ⟨⟨line, isFirst, isStatic⟩, other, listed, isPlain⟩ := first
  cases found : (lines.filter (·.isStatic == false)).head? with
  | none =>
    have absent := filter_eq_nil_iff.mp (head?_eq_none_iff.mp found) other listed
    simp [isPlain] at absent
  | some plain =>
    have kept := of_mem_filter (mem_of_head? found)
    exact ⟨line, plain, isFirst, isStatic, beq_iff_eq.mp kept, rfl⟩

variable {index : Index} {unit : CompilationUnit} {name : String}

theorem head?_offers_imports (isWildcard isStatic : Bool) :
    (index.offers unit name (.imports isWildcard isStatic)).head? =
      ((index.explaining unit name isWildcard).filter (·.isStatic == isStatic)).head?.map
        (index.offer name) :=
  head?_map

/-- Where no static import overtakes, a search among imports of both kinds takes what the two tiers
offer. -/
theorem head?_explaining (ordered : ¬ StaticFirst (index.explaining unit name isWildcard)) :
    (index.explaining unit name isWildcard).head?.map (index.offer name) =
      (index.offers unit name (.imports isWildcard false)).head?.or
        (index.offers unit name (.imports isWildcard true)).head? := by
  rw [head?_eq_plain_or_static ordered, Option.map_or, head?_offers_imports, head?_offers_imports]

theorem resolveSimple?_of_not_overtaken (ordered : ¬ index.Overtaken unit name) :
    index.resolveSimple? unit name = index.resolveInOrder? unit name := by
  obtain ⟨single, wild⟩ := not_or.mp ordered
  rw [resolveSimple?_eq, resolveInOrder?_eq, ← head?_explaining single]
  -- the wildcards count only if nothing explains the name before them
  cases singles : index.explaining unit name false with
  | cons => rfl
  | nil =>
    cases file : index.offers unit name .file with
    | cons => rfl
    | nil =>
      cases package : index.offers unit name .package with
      | cons => rfl
      | nil => rw [head?_explaining fun first => wild ⟨singles, file, package, first⟩]

/-- A static import that overtakes is taken, and a plain one should be. -/
theorem Overtaken.taken (overtaken : index.Overtaken unit name) :
    ∃ isWildcard, ∃ taken ∈ index.explaining unit name isWildcard,
      ∃ plain ∈ index.explaining unit name isWildcard,
      taken.isStatic ∧ plain.isStatic = false ∧
      index.resolveSimple? unit name = some (index.offer name taken) ∧
      index.resolveInOrder? unit name = some (index.offer name plain) := by
  rw [resolveSimple?_eq, resolveInOrder?_eq]
  simp only [head?_offers_imports]
  rcases overtaken with first | ⟨singles, file, package, first⟩
  · obtain ⟨taken, plain, isFirst, isStatic, isPlain, isNext⟩ := first.heads
    refine ⟨false, taken, mem_of_head? isFirst, plain, mem_of_mem_filter (mem_of_head? isNext),
      isStatic, isPlain, ?_, ?_⟩
    · rw [isFirst]
      rfl
    · rw [isNext]
      rfl
  · obtain ⟨taken, plain, isFirst, isStatic, isPlain, isNext⟩ := first.heads
    refine ⟨true, taken, mem_of_head? isFirst, plain, mem_of_mem_filter (mem_of_head? isNext),
      isStatic, isPlain, ?_, ?_⟩
    · rw [singles, file, package, isFirst]
      rfl
    · rw [singles, file, package, isNext]
      rfl

theorem resolve?_of_simple (simple : '.' ∉ name.toList) :
    index.resolve? unit name = index.resolveSimple? unit name := by
  rw [resolve?, Dotted.splitHead?_eq_none_iff.mpr simple]

/-- A simple name means what the tiers offer for it, one after the other, unless a static import
overtakes the plain ones that explain the name. Then the static import is taken, and the order asks
for a plain one. -/
theorem resolution_order (index : Index) (unit : CompilationUnit) {name : String}
    (simple : '.' ∉ name.toList) :
    (¬ index.Overtaken unit name → index.resolve? unit name = index.resolveInOrder? unit name) ∧
      (index.Overtaken unit name → ∃ isWildcard, ∃ taken ∈ index.explaining unit name isWildcard,
        ∃ plain ∈ index.explaining unit name isWildcard, taken.isStatic = true ∧
          plain.isStatic = false ∧ index.resolve? unit name = some (index.offer name taken) ∧
          index.resolveInOrder? unit name = some (index.offer name plain)) := by
  rw [resolve?_of_simple simple]
  exact ⟨resolveSimple?_of_not_overtaken, Overtaken.taken⟩

/-- A class with static fields, a package with types of the same names, and two files that import
both. In the first file plain imports come before static ones, and in the second one after them. -/
def namesakes : List CompilationUnit :=
  let file (package name : String) (imports : List Import) (members : List Member) :
      CompilationUnit :=
    ⟨package ++ "/" ++ name ++ ".java", some package, imports,
      [⟨name, Dotted.join package name, .classType, none, "public class " ++ name, none, [], [], [],
        [], members, []⟩]⟩
  let constant (name : String) : Member :=
    .field ⟨[name], .primitive "int", [], [.literal], "static int " ++ name ++ " = 1;"⟩
  let plain : List Import := [⟨"r.Box", false, false⟩, ⟨"r", false, true⟩]
  let static : List Import := [⟨"q.Sizes.Box", true, false⟩, ⟨"q.Sizes", true, true⟩]
  [file "p" "First" (plain ++ static) [], file "p" "Second" (static ++ plain) [],
    file "q" "Sizes" [] [constant "Box", constant "Lid"], file "r" "Box" [] [],
      file "r" "Lid" [] []]

/-- Where plain imports come first, the two names mean types, as the order has it. -/
theorem namesakes_in_order :
    ∃ unit, (ofUnits namesakes).unitOf? "p.First" = some unit ∧
      (∀ name ∈ ["Box", "Lid"], '.' ∉ name.toList ∧ ¬ (ofUnits namesakes).Overtaken unit name ∧
        (ofUnits namesakes).resolve? unit name = (ofUnits namesakes).resolveInOrder? unit name) ∧
      (ofUnits namesakes).resolveInOrder? unit "Box" =
        some ⟨some ⟨"r.Box", false, false⟩, some (.type "r.Box")⟩ ∧
      (ofUnits namesakes).resolveInOrder? unit "Lid" =
        some ⟨some ⟨"r", false, true⟩, some (.type "r.Lid")⟩ := by
  obtain ⟨unit, isUnit, ordered, box, lid⟩ :
    ∃ unit, (ofUnits namesakes).unitOf? "p.First" = some unit ∧
      (∀ name ∈ ["Box", "Lid"], '.' ∉ name.toList ∧ ¬ (ofUnits namesakes).Overtaken unit name) ∧
      (ofUnits namesakes).resolveInOrder? unit "Box" =
        some ⟨some ⟨"r.Box", false, false⟩, some (.type "r.Box")⟩ ∧
      (ofUnits namesakes).resolveInOrder? unit "Lid" =
        some ⟨some ⟨"r", false, true⟩, some (.type "r.Lid")⟩ :=
    ⟨_, rfl, by decide, by decide, by decide⟩
  refine ⟨unit, isUnit, fun name listed => ?_, box, lid⟩
  obtain ⟨simple, inOrder⟩ := ordered name listed
  exact ⟨simple, inOrder, (resolution_order _ unit simple).1 inOrder⟩

/-- Where static imports come first, the two names mean fields, and the order has types for them. -/
theorem namesakes_out_of_order :
    ∃ unit, (ofUnits namesakes).unitOf? "p.Second" = some unit ∧
      (ofUnits namesakes).resolve? unit "Box" =
        some ⟨some ⟨"q.Sizes.Box", true, false⟩, some (.field "q.Sizes" "Box")⟩ ∧
      (ofUnits namesakes).resolveInOrder? unit "Box" =
        some ⟨some ⟨"r.Box", false, false⟩, some (.type "r.Box")⟩ ∧
      (ofUnits namesakes).resolve? unit "Lid" =
        some ⟨some ⟨"q.Sizes", true, true⟩, some (.field "q.Sizes" "Lid")⟩ ∧
      (ofUnits namesakes).resolveInOrder? unit "Lid" =
        some ⟨some ⟨"r", false, true⟩, some (.type "r.Lid")⟩ :=
  ⟨_, rfl, by decide, by decide, by decide, by decide⟩

end Index

end JavaSlice
