import JavaSlice.Proofs.Index
import JavaSlice.Proofs.Scanning
import JavaSlice.Slice.Outline

/-!
# What scans copy

A scan copies one declaration at most, the one that it scans, and copies it first (`copies_scan`).
Everything else in a scan comes from names, types, annotations and expressions that the declaration
mentions: a mention needs other declarations, uses import lines of the file, or stops the scan
(`Step.IsMention`). Scans of headers and of types are made of mentions alone.
-/

namespace JavaSlice.Slice

open Source

/-! ## Mentions -/

namespace Step

variable {unit : CompilationUnit}

/-- A step that comes from a mention inside a file. -/
def IsMention (unit : CompilationUnit) : Step → Prop
  | .need _ _ | .fail _ => True
  | .useImport line => line ∈ unit.imports
  | .keepField _ | .keepMethod _ _ => False

/-- All steps of a list come from mentions. -/
def Mentions (unit : CompilationUnit) (steps : List Step) : Prop :=
  ∀ step ∈ steps, step.IsMention unit

theorem Mentions.append (first : Mentions unit steps) (second : Mentions unit more) :
    Mentions unit (steps ++ more) :=
  List.forall_mem_append.mpr ⟨first, second⟩

theorem mentions_need (kind : EdgeKind) (keys : List Key) :
    Mentions unit (keys.map (.need kind)) := by
  intro step mem
  obtain ⟨key, -, rfl⟩ := List.mem_map.mp mem
  trivial

theorem mentions_useImport (subset : lines ⊆ unit.imports) :
    Mentions unit (lines.map .useImport) := by
  intro step mem
  obtain ⟨line, used, rfl⟩ := List.mem_map.mp mem
  exact subset used

end Step

end JavaSlice.Slice

namespace JavaSlice.Index

open Source Slice

variable {index : Index} {unit : CompilationUnit} {line : Import} {name : String}
  {resolution : Resolution}

/-! ## The answers of a lookup -/

/-- What a simple name can mean in a file: one case for each place in which it is looked up. -/
inductive MeansSimple (index : Index) (unit : CompilationUnit) (name : String) : Resolution →
    Prop where
  | single {line : Import} : singleImport? unit name = some line →
      MeansSimple index unit name (index.resolveImport line name)
  | declared {decl : TypeDecl} : unit.findDeclared? name = some decl →
      MeansSimple index unit name ⟨none, some (.type decl.qualifiedName)⟩
  | package : index.hasType (unit.qualify name) = true →
      MeansSimple index unit name ⟨none, some (.type (unit.qualify name))⟩
  | staticField {line : Import} {decl : TypeDecl} : line ∈ unit.imports → line.isWildcard = true →
      index.typeDecl? line.name = some decl → (decl.field? name).isSome = true →
      MeansSimple index unit name ⟨some line, some (.field line.name name)⟩
  | packageType {line : Import} : line ∈ unit.imports → line.isWildcard = true →
      index.hasType (Dotted.join line.name name) = true →
      MeansSimple index unit name ⟨some line, some (.type (Dotted.join line.name name))⟩

theorem meansSimple_of_resolveSimple?
    (resolved : index.resolveSimple? unit name = some resolution) :
    index.MeansSimple unit name resolution := by
  unfold resolveSimple? at resolved
  split at resolved
  next line found => exact Option.some.inj resolved ▸ .single found
  next =>
    split at resolved
    next decl found => exact Option.some.inj resolved ▸ .declared found
    next =>
      split at resolved
      next isType => exact Option.some.inj resolved ▸ .package isType
      next =>
        obtain ⟨line, listed, resolved⟩ := List.exists_of_findSome?_eq_some resolved
        obtain ⟨isImport, isWildcard⟩ := List.mem_filter.mp listed
        unfold resolveWildcard? at resolved
        split at resolved
        next =>
          obtain ⟨decl, found, resolved⟩ := Option.bind_eq_some_iff.mp resolved
          obtain ⟨field, isField, resolved⟩ := Option.bind_eq_some_iff.mp resolved
          exact Option.some.inj resolved ▸ .staticField isImport isWildcard found
            (Option.isSome_of_mem isField)
        next =>
          obtain ⟨isType, resolved⟩ := Option.ite_none_right_eq_some.mp resolved
          exact Option.some.inj resolved ▸ .packageType isImport isWildcard isType

/-- What a name can mean in a file. The rest of a dotted name is followed from a type, and else left
alone. -/
inductive Means (index : Index) (unit : CompilationUnit) (name : String) : Resolution → Prop where
  | simple {head : String} {resolution : Resolution} : index.MeansSimple unit head resolution →
      Means index unit name resolution
  | qualified : index.hasType name = true → Means index unit name ⟨none, some (.type name)⟩
  | dotted {head rest owner : String} {line : Option Import} :
      index.MeansSimple unit head ⟨line, some (.type owner)⟩ →
      Means index unit name ⟨line, some (.type (index.followMembers owner (Dotted.segments rest)))⟩

/-- What a name resolves to is what it means by the rules. -/
theorem means_of_resolve? (resolved : index.resolve? unit name = some resolution) :
    index.Means unit name resolution := by
  unfold resolve? at resolved
  split at resolved
  next => exact .simple (meansSimple_of_resolveSimple? resolved)
  next head rest _ =>
    split at resolved
    next isType => exact Option.some.inj resolved ▸ .qualified isType
    next =>
      obtain ⟨⟨line, target⟩, resolvedHead, rfl⟩ := Option.map_eq_some_iff.mp resolved
      have means := meansSimple_of_resolveSimple? resolvedHead
      split
      next owner isType =>
        cases isType
        exact .dotted means
      next => exact .simple means

/-- The line that explains a name is a line of the file. -/
theorem MeansSimple.mem_imports (means : index.MeansSimple unit name resolution)
    (uses : resolution.line = some line) : line ∈ unit.imports := by
  cases means with
  | single found =>
    cases uses
    exact List.mem_of_find?_eq_some found
  | staticField isImport | packageType isImport =>
    cases uses
    exact isImport
  | _ => cases uses

/-- The line that makes a name visible is an import of the file. -/
theorem mem_imports_of_resolve? (resolved : index.resolve? unit name = some resolution)
    (uses : resolution.line = some line) : line ∈ unit.imports := by
  cases means_of_resolve? resolved with
  | simple means | dotted means => exact means.mem_imports uses
  | qualified => cases uses

end JavaSlice.Index

namespace JavaSlice.Slice

open List Option Source

namespace Scope

open Step

/-- Nothing but import lines of the file is taken over for a name. -/
theorem mentions_importSteps {index : Index} {unit : CompilationUnit} {name : String}
    {resolution : Resolution} (resolved : index.resolve? unit name = some resolution) :
    Mentions unit (importSteps resolution) := by
  refine mentions_useImport ?_
  intro line used
  exact Index.mem_imports_of_resolve? resolved (mem_toList.mp used)

/-- A static import explains a call by a method of a type: the one that a wildcard names, or the one
whose member of the right name the line names. -/
theorem staticMethod?_cases {scope : Scope} {call : CallSite} {line : Import} {key : Key}
    (explains : scope.staticMethod? call = some (line, key)) :
    line ∈ scope.unit.imports ∧ line.isStatic = true ∧
      ∃ type decl, scope.index.typeDecl? type = some decl ∧
        scope.index.findMethod? call decl = some key ∧ (line.isWildcard = true ∧ line.name = type ∨
          line.isWildcard = false ∧ line.simpleName = call.name ∧ line.qualifier? = some type) := by
  obtain ⟨candidate, mem, explains⟩ := exists_of_findSome?_eq_some explains
  rw [mem_filter] at mem
  -- whichever name the line gives, the method found is paired with the line
  have paired : ∀ type, ((scope.index.typeDecl? type).bind fun owner =>
      (scope.index.findMethod? call owner).bind fun key => some (candidate, key)) =
        some (line, key) →
      candidate = line ∧ ∃ decl, scope.index.typeDecl? type = some decl ∧
        scope.index.findMethod? call decl = some key := by
    intro type explains
    obtain ⟨decl, found, explains⟩ := bind_eq_some_iff.mp explains
    obtain ⟨method, reaches, explains⟩ := bind_eq_some_iff.mp explains
    cases explains
    exact ⟨rfl, decl, found, reaches⟩
  dsimp only at explains
  split at explains
  next isWildcard =>
    obtain ⟨rfl, decl, found, reaches⟩ := paired _ explains
    exact ⟨mem.1, mem.2, _, decl, found, reaches, .inl ⟨isWildcard, rfl⟩⟩
  next notWildcard =>
    split at explains
    next sameName =>
      obtain ⟨type, qualifier, explains⟩ := bind_eq_some_iff.mp explains
      obtain ⟨rfl, decl, found, reaches⟩ := paired type explains
      exact ⟨mem.1, mem.2, type, decl, found, reaches,
        .inr ⟨Bool.not_eq_true _ ▸ notWildcard, beq_iff_eq.mp sameName, qualifier⟩⟩
    next _ => cases explains

/-- All that a file mentions, in whatever terms, are mentions. -/
theorem mentions_rule (index : Index) (unit : CompilationUnit) (terms : List Expr) :
    ScanRule index unit terms (Mentions unit) where
  append := fun _ _ => Mentions.append
  need := mentions_need
  unread := fun _ _ _ => by simp [Mentions, IsMention]
  wildcards := fun _ => mentions_useImport (filter_subset_self _)
  mention := fun _ _ resolved kind => (mentions_importSteps resolved).append (mentions_need kind _)
  bare := fun _ _ _ resolved _ => mentions_importSteps resolved
  static := by
    rintro scope ⟨rfl, rfl⟩ name args line key _ explains
    have used : [line] ⊆ scope.unit.imports := by simpa using (staticMethod?_cases explains).1
    exact (mentions_useImport used).append (mentions_need .call [key])
  library := by
    rintro scope ⟨rfl, rfl⟩ call line explains
    have used : [line] ⊆ scope.unit.imports := by simpa using mem_of_find?_eq_some explains
    exact mentions_useImport used

end Scope

/-! ## Copies -/

/-- The copy that a step puts into an outline. -/
def Step.copy? : Step → Option OutlineMember
  | .keepField field => some (.ofField field)
  | .keepMethod key method => some (.ofMethod key method)
  | _ => none

/-- The copies that steps put into an outline, in order. -/
def Step.copies (steps : List Step) : List OutlineMember :=
  steps.filterMap Step.copy?

/-- Steps that only mention copy no member. -/
theorem Step.Mentions.copies_eq_nil
    (mentions : Step.Mentions unit steps) : Step.copies steps = [] := by
  rw [Step.copies, filterMap_eq_nil_iff]
  intro step mem
  have mention := mentions step mem
  cases step with
  | need | useImport | fail => rfl
  | keepField | keepMethod => cases mention

namespace OutlineMember

/-- The copy of a member of a type: that of the first declaration that fits its key. The type itself
is not copied. -/
def copy? (decl : TypeDecl) : MemberKey → Option OutlineMember
  | .field name => (decl.field? name).map .ofField
  | key => (callable? decl key).map (.ofMethod key)

/-- What is copied is a field, or a method or constructor. -/
theorem copy?_cases (copied : copy? decl member = some copy) :
    (∃ name field, member = .field name ∧ decl.field? name = some field ∧ copy = .ofField field) ∨
      ∃ method, callable? decl member = some method ∧ copy = .ofMethod member method := by
  cases member with
  | field name =>
    obtain ⟨field, found, rfl⟩ := map_eq_some_iff.mp copied
    exact .inl ⟨name, field, rfl, found, rfl⟩
  | type => cases copied
  | method | constructor =>
    obtain ⟨method, found, rfl⟩ := map_eq_some_iff.mp copied
    exact .inr ⟨method, found, rfl⟩

theorem copy?_of_callable? (found : callable? decl member = some method) :
    copy? decl member = some (.ofMethod member method) := by
  cases member with
  | type | field => cases found
  | method | constructor => exact congrArg (Option.map _) found

theorem ofMethod_kind_ne_field (key : MemberKey) (method : Method) :
    (ofMethod key method).kind ≠ .field := by
  cases key <;> exact nofun

end OutlineMember

/-- The scan of a member copies that member. -/
theorem Step.copies_keptSteps (owner : TypeDecl) (member : MemberKey) :
    Step.copies (keptSteps owner member) = (OutlineMember.copy? owner member).toList := by
  cases member with
  | type => rfl
  | field name =>
    simp only [keptSteps, OutlineMember.copy?]
    cases owner.field? name <;> rfl
  | method | constructor =>
    simp only [keptSteps, OutlineMember.copy?]
    cases callable? owner _ <;> rfl

/-- The scan of a member copies the first declaration that fits its key, and nothing else. -/
theorem copies_scan (present : index.typeDecl? key.owner = some decl) :
    Step.copies (scan index key) = (OutlineMember.copy? decl key.member).toList := by
  obtain ⟨unit, file⟩ := (Index.unitOf?_eq_some_iff index key.owner).mpr ⟨decl, present⟩
  have rule := Scope.mentions_rule index unit
    (memberTerms (Scope.ofOwner index unit decl).owner key.member)
  obtain ⟨mentions, scanned, held⟩ :=
    rule.memberSteps (fun _ => by simp [Step.Mentions, Step.IsMention]) ⟨rfl, rfl⟩
  rw [scan, file, present]
  dsimp only
  rw [scanned, Step.copies, filterMap_append, ← Step.copies, ← Step.copies, held.copies_eq_nil,
    append_nil]
  exact Step.copies_keptSteps decl key.member

/-- The scan of a header copies no member. -/
theorem copies_scanHeader (index : Index) (name : String) :
    Step.copies (scanHeader index name) = [] := by
  unfold scanHeader
  split
  next unit owner _ _ =>
    have rule := Scope.mentions_rule index unit (headerTerms (Scope.ofOwner index unit owner).owner)
    exact (rule.headerSteps ⟨rfl, rfl⟩).copies_eq_nil
  next => rfl

end JavaSlice.Slice
