import JavaSlice.Proofs.Discovery
import JavaSlice.Proofs.Hierarchy
import JavaSlice.Proofs.NameAgreement

/-!
# Keys that queries return

The index answers questions with keys: what a seed means, what a name means in a file, which method
a call reaches and which constructor a creation. Every key that is returned is declared
(`Index.Queried.declares`). Its owner is found among the types of the index, and it is the type
found there that has the member, where a name is declared twice.

So the walk never passes over such a key. In particular a seed is remembered as unresolved exactly
if the index finds no meaning for it, and nothing that the walk does later changes what it remembers
(`queried_keys_declared`).
-/

namespace JavaSlice

open List Source Slice

namespace Index

variable {index : Index} {unit : CompilationUnit}
variable {name : String} {key : Key} {resolution : Resolution}

/-! ## Types and fields that names mean -/

theorem declares_type_iff : index.declares (.type name) ↔ index.hasType name := by
  rw [declares_iff, hasType_iff]
  exact ⟨fun ⟨decl, present, _⟩ => ⟨decl, present⟩, fun ⟨decl, present⟩ => ⟨decl, present, rfl⟩⟩

theorem declares_of_field? (present : index.typeDecl? owner = some decl)
    (isField : (decl.field? name).isSome) : index.declares (.field owner name) :=
  (declares_iff index _).mpr ⟨decl, present, isField⟩

theorem declares_of_staticMember?
    (means : index.staticMember? owner member = some key) : index.declares key := by
  obtain ⟨decl, present, rfl⟩ := Option.map_eq_some_iff.mp means
  split
  next isField => exact declares_of_field? present isField
  next _ => exact declares_type_iff.mpr (hasType_iff.mpr ⟨decl, present⟩)

/-- A single import gives a name a declared meaning, if any. -/
theorem declares_of_resolveImport
    (means : (index.resolveImport line name).target = some key) : index.declares key := by
  unfold resolveImport at means
  dsimp only at means
  split at means
  next _ =>
    obtain ⟨owner, -, means⟩ := Option.bind_eq_some_iff.mp means
    exact declares_of_staticMember? means
  next _ =>
    split at means
    next isType =>
      cases means
      exact declares_type_iff.mpr isType
    next _ => cases means

/-- A simple name means a declared key, in a file whose types are in the index. -/
theorem MeansSimple.declares
    (indexed : ∀ decl ∈ unit.declaredTypes, index.hasType decl.qualifiedName)
    (means : index.MeansSimple unit name resolution) (target : resolution.target = some key) :
    index.declares key := by
  cases means with
  | single => exact declares_of_resolveImport target
  | declared inFile =>
    cases target
    exact declares_type_iff.mpr
      (indexed _ (CompilationUnit.mem_declaredTypes_of_findDeclared? inFile).1)
  | package isType | packageType _ _ isType =>
    cases target
    exact declares_type_iff.mpr isType
  | staticField _ _ present isField =>
    cases target
    exact declares_of_field? present isField

/-- A name means a declared key, also where it is followed through member types. -/
theorem declares_of_resolve?
    (indexed : ∀ decl ∈ unit.declaredTypes, index.hasType decl.qualifiedName)
    (resolved : index.resolve? unit name = some resolution)
    (target : resolution.target = some key) : index.declares key := by
  cases means_of_resolve? resolved with
  | simple means => exact means.declares indexed target
  | qualified isType =>
    cases target
    exact declares_type_iff.mpr isType
  | dotted means =>
    cases target
    exact declares_type_iff.mpr
      (hasType_followMembers (declares_type_iff.mp (means.declares indexed rfl)) _)

/-! ## All queries -/

theorem declares_of_findConstructor? (named : index.Named) {decl}
    (present : index.typeDecl? name = some decl) {count}
    (found : findConstructor? decl count = some key) : index.declares key := by
  obtain ⟨constructor, first, rfl⟩ := Option.map_eq_some_iff.mp found
  refine (declares_iff index _).mpr ⟨decl, ?_,
    declaresMember_constructor (mem_of_find?_eq_some first)⟩
  rw [Key.constructor, named name decl present, present]

/-- The keys that queries return. -/
inductive Queried (index : Index) : Key → Prop where
  | seed {owner member : String} {key : Key} : index.resolveSeed? owner member = some key →
      Queried index key
  | name {unit : CompilationUnit} {name : String} {resolution : Resolution} {key : Key} :
      unit ∈ index.units →
      index.resolve? unit name = some resolution → resolution.target = some key → Queried index key
  | method {name : String} {decl : TypeDecl} {call : CallSite} {key : Key} :
      index.typeDecl? name = some decl → index.findMethod? call decl = some key → Queried index key
  | constructor {name : String} {decl : TypeDecl} {count : Nat} {key : Key} :
      index.typeDecl? name = some decl → findConstructor? decl count = some key → Queried index key

/-- Every key that a query returns is declared. -/
theorem Queried.declares {units} (queried : (ofUnits units).Queried key) :
    (ofUnits units).declares key := by
  have named := named_ofUnits units
  cases queried with
  | seed resolved => exact declares_of_resolveSeed? resolved
  | name listed resolved means =>
    exact declares_of_resolve? (fun _ => hasType_of_mem_declaredTypes listed) resolved means
  | method present found => exact declares_of_findMethod? named present found
  | constructor present found => exact declares_of_findConstructor? named present found

end Index

namespace Slice

namespace Walk

variable {index : Index}

/-! ## Seeds that mean nothing -/

theorem unresolved_foldl_ensureFile (unit : CompilationUnit) (number : Nat) (decls : List TypeDecl)
    (walk : Walk) : (decls.foldl (ensureFile unit number) walk).unresolved = walk.unresolved := by
  induction decls generalizing walk with
  | nil => rfl
  | cons decl rest ih =>
    rw [foldl_cons, ih, ensureFile]
    split <;> rfl

theorem unresolved_push (walk : Walk) (source : Option (Nat × EdgeKind)) (key : Key) :
    (walk.push index source key).2.unresolved = walk.unresolved := by
  by_cases declared : index.declares key = true
  · obtain ⟨unit, decl, -, -, pushed⟩ := push_of_declares declared walk source
    rw [pushed, unresolved_foldl_ensureFile]
  · rw [push_of_not_declares declared]

theorem unresolved_performAll (number : Nat) (owner : String) (walk : Walk) (steps : List Step) :
    (performAll index number owner walk steps).1.unresolved = walk.unresolved := by
  induction steps generalizing walk with
  | nil => rfl
  | cons step rest ih =>
    cases step with
    | need kind key => exact (ih _).trans (unresolved_push walk (some (number, kind)) key)
    | useImport | keepField | keepMethod => exact ih _
    | fail => rfl

/-- A turn does not change what is remembered. -/
theorem unresolved_turn? {walk next : Walk} {error : Option ScanError}
    (turned : walk.turn? index = some (next, error)) : next.unresolved = walk.unresolved := by
  unfold turn? at turned
  split at turned
  next name number pending _ =>
    cases turned
    exact unresolved_performAll number name _ _
  next _ =>
    split at turned
    next _ => cases turned
    next number popped _ =>
      split at turned
      next registry node _ _ =>
        cases turned
        exact unresolved_performAll number node.key.owner _ _
      next _ =>
        cases turned
        rfl

theorem unresolved_turns (bound : Nat) (walk : Walk) :
    (turns index bound walk).1.unresolved = walk.unresolved := by
  induction bound generalizing walk with
  | zero => rfl
  | succ bound ih =>
    rw [turns]
    split
    next _ => rfl
    next _ _ turned => exact unresolved_turn? turned
    next _ turned => exact (ih _).trans (unresolved_turn? turned)

/-- A seed has no node exactly if it means nothing. -/
theorem addSeed_eq_none_iff (walk : Walk) (seed : Seed) :
    (walk.addSeed index seed).1 = none ↔ index.resolveSeed? seed.owner seed.member = none := by
  cases resolved : index.resolveSeed? seed.owner seed.member with
  | none => simp [addSeed, resolved]
  | some key =>
    obtain ⟨_, _, -, -, pushed⟩ :=
      push_of_declares (Index.declares_of_resolveSeed? resolved) walk none
    simp [addSeed, resolved, pushed]

/-- The seeds that mean nothing are remembered in order. -/
theorem unresolved_addSeeds (walk : Walk) (seeds : List Seed) :
    (walk.addSeeds index seeds).unresolved = walk.unresolved ++
      (seeds.filter fun seed => (index.resolveSeed? seed.owner seed.member).isNone).map
        Seed.display := by
  induction seeds generalizing walk with
  | nil => simp [addSeeds]
  | cons seed rest ih =>
    rw [addSeeds, foldl_cons, ← addSeeds, ih]
    cases resolved : index.resolveSeed? seed.owner seed.member with
    | some key =>
      rw [addSeed_of_resolved resolved, unresolved_push, filter_cons_of_neg (by simp [resolved])]
    | none =>
      rw [addSeed_of_unresolved resolved, filter_cons_of_pos (by simp [resolved]), map_cons,
        append_assoc, singleton_append]

end Walk

/-- Every key that a query returns names a type of the project that declares the member. Where the
way out of that type ends, finding the key gives it a node; nothing is said of a way without end,
which cannot be followed. So a seed has no node exactly if it means nothing, and the walk remembers
these seeds, in order. -/
theorem queried_keys_declared (units : List CompilationUnit) : let index := Index.ofUnits units
    (∀ key, index.Queried key → ∃ decl, index.typeDecl? key.owner = some decl ∧
      Index.declaresMember decl key.member = true ∧
      ∀ chain, index.Chain decl.outer chain → index.scopeTypes decl = decl :: chain ∧
        ∀ (walk : Walk) source, (walk.push index source key).1.isSome = true ∧
          key ∈ (walk.push index source key).2.keys) ∧
    (∀ (walk : Walk) seed,
      (∀ key, index.resolveSeed? seed.owner seed.member = some key → index.Ends key.owner) →
        ((walk.addSeed index seed).1 = none ↔ index.resolveSeed? seed.owner seed.member = none)) ∧
    ((∀ name, index.Ends name) → ∀ (walk : Walk) seeds,
      (walk.solve index seeds).1.unresolved = walk.unresolved ++
        (seeds.filter fun seed => (index.resolveSeed? seed.owner seed.member).isNone).map
          Seed.display) := by
  intro index
  refine ⟨fun key queried => ?_, fun walk seed _ => Walk.addSeed_eq_none_iff walk seed,
    fun _ walk seeds => ?_⟩
  · obtain ⟨decl, present, declared⟩ := (Index.declares_iff index key).mp queried.declares
    refine ⟨decl, present, declared, fun chain ends => ⟨?_, fun walk source => ⟨?_, ?_⟩⟩⟩
    · rw [Index.scopeTypes, ends.enclosingTypes_eq]
    · obtain ⟨_, _, -, -, pushed⟩ := Walk.push_of_declares queried.declares walk source
      rw [pushed, Option.isSome_some]
    · rw [(Walk.progress_push index "" walk source .call key).keys, Step.needs_singleton]
      exact .inr ⟨rfl, queried.declares⟩
  · rw [Walk.solve_eq, Walk.run, Walk.unresolved_turns, Walk.unresolved_addSeeds]

/-- A project in which two files declare one type with different fields, and a third imports the
field of the first. -/
def twoSizes : List CompilationUnit :=
  let sizes (name : String) : TypeDecl :=
    ⟨"Sizes", "q.Sizes", .classType, none, "public class Sizes", none, [], [], [], [],
      [.field ⟨[name], .primitive "int", [], [], "static int " ++ name ++ ";"⟩], []⟩
  [⟨"p/Main.java", some "p", [⟨"q.Sizes.limit", true, false⟩],
      [⟨"Main", "p.Main", .classType, none, "public class Main", none, [], [], [], [], [], []⟩]⟩,
    ⟨"q/Sizes.java", some "q", [], [sizes "limit"]⟩,
      ⟨"q/Other.java", some "q", [], [sizes "bound"]⟩]

/-- The imported field is gone with the first declaration of its type, so the import means the type.
Of two seeds for the type, the one for that field is remembered, and so is a seed for an unknown
type. -/
theorem twoSizes_queried_declared : let index := Index.ofUnits twoSizes
    (∃ unit ∈ twoSizes, ∃ resolution, index.resolve? unit "limit" = some resolution ∧
      resolution.target = some (.type "q.Sizes") ∧
      ∀ (walk : Walk) source, (walk.push index source (.type "q.Sizes")).1.isSome = true) ∧
    (Walk.start.solve index [⟨"q.Sizes", "limit"⟩, ⟨"q.Sizes", "bound"⟩,
      ⟨"p.Gone", "run"⟩]).1.unresolved = ["q.Sizes#limit", "p.Gone#run"] := by
  obtain ⟨declared, -, remembered⟩ := queried_keys_declared twoSizes
  have nested : ∀ unit ∈ twoSizes, unit.isNested = true := by decide
  have ends := Index.chain_enclosingTypes (Index.outerAcyclic_of_isNested nested)
  constructor
  · obtain ⟨unit, listed, resolution, resolved, means⟩ : ∃ unit ∈ twoSizes, ∃ resolution,
        (Index.ofUnits twoSizes).resolve? unit "limit" = some resolution ∧
        resolution.target = some (.type "q.Sizes") := ⟨_, .head _, _, rfl, rfl⟩
    obtain ⟨decl, -, -, pushed⟩ := declared _ (.name listed resolved means)
    exact ⟨unit, listed, resolution, resolved, means,
      fun walk source => ((pushed _ (ends decl)).2 walk source).1⟩
  · rw [remembered fun name decl _ => ⟨_, ends decl⟩]
    decide

end Slice

end JavaSlice
