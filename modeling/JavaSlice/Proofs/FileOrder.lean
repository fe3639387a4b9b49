import JavaSlice.Proofs.Independence

/-!
# The order of files

The files of a project come in some order, which decides in what order its types are entered into an
index. The order matters where a name is declared twice, because the last declaration counts. It
does not matter otherwise.

Two indexes are *reordered* if they hold the same files and the same types in another order, each
name once. What is looked up by a name is then the same in both, and nothing else about a list of
files or types is ever asked for but its length and sums over it, which bound searches. So every
scan lists the same steps, every turn of a walk leads to the same state, and in the end there is one
slice for all orders of the files (`slice_eq_of_perm`).
-/

namespace JavaSlice

open List Source Slice

namespace Index

/-! ## Reordered indexes -/

/-- Two indexes hold the same files and the same types, each name once, in some order. -/
structure Reordered (index other : Index) : Prop where
  units : index.units.Perm other.units
  types : index.types.Perm other.types
  once : index.types.names.Nodup

/-- If no name is declared twice, the types of an index are those of its files as they come. -/
theorem types_ofUnits {units} (unique : ((declarations units).map (·.decl.qualifiedName)).Nodup) :
    (ofUnits units).types = (declarations units).map fun type =>
      (type.decl.qualifiedName, type) := by
  have entered : ∀ (types : List IndexedType) (table : Table IndexedType),
      (table.names ++ types.map (·.decl.qualifiedName)).Nodup →
        types.foldl enter table = table ++ types.map fun type =>
          (type.decl.qualifiedName, type) := by
    intro types
    induction types with
    | nil => intro table _; simp
    | cons type rest ih =>
      intro table distinct
      rw [map_cons, append_cons] at distinct
      have absent : type.decl.qualifiedName ∉ table.names := fun present =>
        disjoint_of_nodup_append (nodup_append.mp distinct).1 present (mem_singleton_self _)
      have stillDistinct : (Table.names (table ++ [(type.decl.qualifiedName, type)]) ++
          rest.map (·.decl.qualifiedName)).Nodup := by
        simpa [Table.names] using distinct
      rw [foldl_cons, enter, Table.put_of_not_mem absent, ih _ stillDistinct, map_cons,
        append_assoc, singleton_append]
  exact entered (declarations units) [] unique

/-- Files in another order give a reordered index. -/
theorem reordered_ofUnits {units others} (perm : units.Perm others)
    (unique : ((declarations units).map (·.decl.qualifiedName)).Nodup) :
    (ofUnits units).Reordered (ofUnits others) := by
  have declared : (declarations units).Perm (declarations others) := perm.flatMap_right _
  refine ⟨perm, ?_, ?_⟩
  · rw [types_ofUnits unique, types_ofUnits ((declared.map _).nodup_iff.mp unique)]
    exact declared.map _
  · rw [types_ofUnits unique, Table.names, map_map]
    exact unique

/-- A project is seen as one with the same files and types in another order. -/
theorem Reordered.shows (reordered : index.Reordered other) :
    (View.mk id id id id).Shows index other := by
  have get? : other.types.get? = index.types.get? :=
    (funext (Table.get?_eq_of_perm reordered.once reordered.types)).symm
  constructor
  case unitOf? => simp [unitOf?, get?]
  case typeDecl? => simp [typeDecl?, get?]
  case hasType => funext name; rw [hasType, Table.has, get?, hasType, Table.has]
  case hasPackage => funext name; exact reordered.units.any_eq.symm
  case typeCount => exact reordered.types.length_eq.symm
  case total => exact fun size => (Table.total_eq_of_perm reordered.types size).symm
  all_goals simp

end Index

namespace Slice

/-! ## Walks -/

section Reordered

variable {index other : Index} (reordered : index.Reordered other)

include reordered

theorem scan_reordered : scan other = scan index := by
  funext key
  have unitOf? : other.unitOf? key.owner = index.unitOf? key.owner := by
    simpa using reordered.shows.unitOf? key.owner
  have typeDecl? : other.typeDecl? key.owner = index.typeDecl? key.owner := by
    simpa using reordered.shows.typeDecl? key.owner
  have members : ∀ unit owner,
      (Scope.ofOwner other unit owner).memberSteps =
        (Scope.ofOwner index unit owner).memberSteps := by
    intro unit owner
    funext member
    have seen := Scope.seen_ofOwner reordered.shows unit owner
    exact Scope.memberSteps_congr seen.fieldDeclSteps seen.methodSteps rfl (fun _ _ => rfl) rfl
  simp only [scan, unitOf?, typeDecl?, members]

theorem turns_reordered : Walk.turns other = Walk.turns index := by
  have turn? : Walk.turn? other = Walk.turn? index := by
    unfold Walk.turn? Walk.scanPending Walk.scanNode
    rw [reordered.shows.performAll, reordered.shows.scanHeader, scan_reordered reordered]
  funext bound walk
  induction bound generalizing walk with
  | zero => rfl
  | succ bound ih => simp only [Walk.turns, turn?, ih]

theorem solve_reordered : Walk.solve other = Walk.solve index := by
  unfold Walk.solve Walk.run
  rw [turns_reordered reordered, reordered.shows.turnBound, reordered.shows.addSeed]

end Reordered

/-- The order of files does not matter. If no qualified name is declared twice, a list of files has
the same slice in every order: the same error, or the same files, declarations, edges, unresolved
seeds and numbers, and the same warnings. -/
theorem slice_eq_of_perm (units others : List CompilationUnit) (perm : units.Perm others)
    (unique : ((Index.declarations units).map (·.decl.qualifiedName)).Nodup) (seeds : List Seed) :
    slice (Index.ofUnits units) seeds = slice (Index.ofUnits others) seeds := by
  rw [slice, slice, solve_reordered (Index.reordered_ofUnits perm unique)]

/-- Files read in the opposite order are indexed in another order and give the same slice. -/
theorem slice_reversed_eq_of_perm :
    pingPong.Perm pingPong.reverse ∧
      ((Index.declarations pingPong).map (·.decl.qualifiedName)).Nodup ∧
      (Index.ofUnits pingPong).types.names ≠ (Index.ofUnits pingPong.reverse).types.names ∧
      slice (Index.ofUnits pingPong) pingPongSeeds =
        slice (Index.ofUnits pingPong.reverse) pingPongSeeds := by
  have perm : pingPong.Perm pingPong.reverse := (reverse_perm pingPong).symm
  have unique : ((Index.declarations pingPong).map (·.decl.qualifiedName)).Nodup := by decide
  exact ⟨perm, unique, by decide, slice_eq_of_perm pingPong pingPong.reverse perm unique
    pingPongSeeds⟩

end Slice

end JavaSlice
