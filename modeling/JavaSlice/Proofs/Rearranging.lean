import JavaSlice.Proofs.Folding

/-!
# Finished files

A file is finished by sorting it. Two files are *rearranged* if they differ only in the order of
imports, of members and of member types, at whatever depth. The order of members does not tell all
members apart, and that of member types looks at their names only; still, rearranged files are
finished to the same text if no two types beside each other share a name. For members with one place
in the order have one text, and a type with a name of its own has a place of its own.

In a finished file the fields of every type come first, then its constructors, its methods and its
member types (`Outline.LaidOut`). Finishing a file again changes nothing, and what is finished is
the file rearranged, so that nothing is lost and nothing doubled (`finalize_canonical`).
-/

namespace JavaSlice.Slice

open List Source

namespace Outline

/-! ## Sorted outlines -/

theorem orders_nameLe : Orders nameLe :=
  orders_names.comap Outline.name

theorem name_sort (outline : Outline) : outline.sort.name = outline.name := by
  rw [sort_eq]

theorem sort_sort (outline : Outline) : outline.sort.sort = outline.sort := by
  have inner : (outline.nested.map sort).map sort = outline.nested.map sort := by
    rw [map_map]
    exact map_congr_left fun inner inside => inner.sort_sort
  -- sorting a type keeps its name, so the types may be sorted inside before they are sorted by name
  have commutes : ((outline.nested.map sort).mergeSort nameLe).map sort =
      ((outline.nested.map sort).map sort).mergeSort nameLe :=
    map_mergeSort fun first _ second _ => by rw [nameLe, nameLe, name_sort, name_sort]
  rw [sort_eq outline, sort_eq]
  dsimp only
  rw [commutes, inner, OutlineMember.orders_members.mergeSort_mergeSort,
    orders_nameLe.mergeSort_mergeSort]
termination_by sizeOf outline
decreasing_by exact sizeOf_lt_of_mem_nested inside

/-- The texts of the members of a kind, in order. -/
def textsOf (kind : MemberKind) (members : List OutlineMember) : List String :=
  (members.filter (·.kind == kind)).map (·.text)

mutual

/-- The text of a type that is laid out by kinds: fields, constructors, methods and then the member
types, which are laid out themselves. -/
def layout (depth : Nat) : Outline → String
  | ⟨_, kind, header, preamble, members, nested⟩ =>
    assemble depth kind header preamble (textsOf .field members ++ textsOf .constructor members ++
      textsOf .method members) (layoutAll (depth + 1) nested)

/-- The texts of types that are laid out by kinds. -/
def layoutAll (depth : Nat) : List Outline → List String
  | [] => []
  | outline :: outlines => outline.layout depth :: layoutAll depth outlines

end

theorem layoutAll_eq (depth : Nat) (outlines : List Outline) :
    layoutAll depth outlines = outlines.map (layout depth) := by
  induction outlines with
  | nil => rfl
  | cons outline outlines ih => rw [layoutAll, ih, map_cons]

theorem layout_eq (depth : Nat) (outline : Outline) :
    outline.layout depth = assemble depth outline.kind outline.header outline.preamble
      (textsOf .field outline.members ++ textsOf .constructor outline.members ++
        textsOf .method outline.members)
      (outline.nested.map (layout (depth + 1))) := by
  cases outline
  rw [layout, layoutAll_eq]

/-- Members in the order of their kinds are the fields, the constructors and the methods, one after
the other. -/
theorem split_of_pairwise {members : List OutlineMember}
    (inOrder : members.Pairwise fun first second => first.kind.rank ≤ second.kind.rank) :
    members = members.filter (·.kind == .field) ++ members.filter (·.kind == .constructor) ++
      members.filter (·.kind == .method) := by
  induction members with
  | nil => rfl
  | cons member members ih =>
    obtain ⟨first, rest⟩ := pairwise_cons.mp inOrder
    have none : ∀ kind : MemberKind, kind.rank < member.kind.rank →
        members.filter (·.kind == kind) = [] := by
      intro kind before
      refine filter_eq_nil_iff.mpr fun other inside => ?_
      have after := first other inside
      rintro same
      rw [beq_iff_eq.mp same] at after
      omega
    have split := ih rest
    cases isKind : member.kind with
    | field => simpa [filter_cons, isKind] using split
    | constructor =>
      rw [none .field (by rw [isKind]; decide)] at split
      simpa [filter_cons, isKind, none .field (by rw [isKind]; decide)] using split
    | method =>
      rw [none .field (by rw [isKind]; decide), none .constructor (by rw [isKind]; decide)] at split
      simpa [filter_cons, isKind, none .field (by rw [isKind]; decide),
        none .constructor (by rw [isKind]; decide)] using split

theorem rank_le_of_le {first second : OutlineMember} (before : first.le second) :
    first.kind.rank ≤ second.kind.rank := by
  rw [OutlineMember.le, OutlineMember.compare, Ordering.isLE_then_iff_and] at before
  exact Nat.isLE_compare.mp before.1

theorem renderAt_sort (outline : Outline) (depth : Nat) :
    outline.sort.renderAt depth = outline.sort.layout depth := by
  have inner : outline.sort.nested.map (renderAt (depth + 1)) =
      outline.sort.nested.map (layout (depth + 1)) := by
    refine map_congr_left fun type inside => ?_
    rw [sort_eq, mem_mergeSort, mem_map] at inside
    obtain ⟨original, within, rfl⟩ := inside
    exact original.renderAt_sort (depth + 1)
  have sorted := pairwise_mergeSort OutlineMember.orders_members.trans
    OutlineMember.orders_members.total outline.members
  have split := congrArg (List.map (·.text)) (split_of_pairwise (sorted.imp rank_le_of_le))
  rw [map_append, map_append] at split
  rw [renderAt_eq, layout_eq, inner, sort_eq]
  dsimp only
  rw [split]
  rfl
termination_by sizeOf outline
decreasing_by exact sizeOf_lt_of_mem_nested within

/-! ## Rearranged outlines -/

mutual

/-- Two outlines differ in the order of members and of member types only, at every depth. What they
are called themselves does not matter. -/
def Rearranged : Outline → Outline → Prop
  | ⟨_, kind, header, preamble, members, nested⟩, other =>
    kind = other.kind ∧ header = other.header ∧ preamble = other.preamble ∧
      members.Perm other.members ∧ AllRearranged nested other.nested

/-- Every outline of a list has a partner in another list, of the same name and rearranged, and no
partner is left over. -/
def AllRearranged : List Outline → List Outline → Prop
  | [], others => others = []
  | outline :: outlines, others => ∃ before partner after, others = before ++ partner :: after ∧
      outline.name = partner.name ∧ outline.Rearranged partner ∧
        AllRearranged outlines (before ++ after)

end

mutual

/-- No two types beside each other have one name, at every depth. -/
def Distinct : Outline → Prop
  | ⟨_, _, _, _, _, nested⟩ => (nested.map (·.name)).Nodup ∧ AllDistinct nested

/-- Of each of some outlines, no two types beside each other have one name. -/
def AllDistinct : List Outline → Prop
  | [] => True
  | outline :: outlines => outline.Distinct ∧ AllDistinct outlines

end

/-- Types with distinct names are sorted in one way. -/
theorem sorted_nested_eq_of_perm {outlines others : List Outline}
    (distinct : (outlines.map (·.name)).Nodup) (perm : outlines.Perm others) :
    (outlines.map sort).mergeSort nameLe = (others.map sort).mergeSort nameLe := by
  refine orders_nameLe.mergeSort_eq ?_ (perm.map sort)
  intro first isFirst second isSecond before after
  obtain ⟨original, within, rfl⟩ := mem_map.mp isFirst
  obtain ⟨other, otherWithin, rfl⟩ := mem_map.mp isSecond
  rw [nameLe, decide_eq_true_eq, name_sort, name_sort] at before after
  rw [inj_on_of_nodup_map distinct within otherWithin (String.le_antisymm before after)]

mutual

/-- Rearranged outlines have one text when they are sorted. -/
theorem Rearranged.text :
    ∀ {first second : Outline}, first.Rearranged second → first.Distinct → ∀ depth,
    first.sort.renderAt depth = second.sort.renderAt depth
  | ⟨_, kind, header, preamble, members, nested⟩, second, rearranged, distinct, depth => by
    rw [Rearranged] at rearranged
    rw [Distinct] at distinct
    obtain ⟨sameKind, sameHeader, samePreamble, sameMembers, sameNested⟩ := rearranged
    obtain ⟨partners, perm, names, same⟩ := sameNested.partners distinct.2
    have inner := sorted_nested_eq_of_perm (names ▸ distinct.1) perm
    rw [renderAt_eq, renderAt_eq, sort_eq, sort_eq]
    dsimp only
    rw [sameKind, sameHeader, samePreamble, OutlineMember.sorted_texts_eq_of_perm sameMembers,
      ← inner, sorted_nested_texts same]

/-- The partners of some outlines, put into their order, have the same texts one by one. -/
theorem AllRearranged.partners : ∀ {outlines others : List Outline}, AllRearranged outlines others →
    AllDistinct outlines → ∃ partners : List Outline, partners.Perm others ∧
      outlines.map (·.name) = partners.map (·.name) ∧ Forall₂ SameText outlines partners
  | [], _, rearranged, _ => by
    rw [AllRearranged] at rearranged
    exact ⟨[], by rw [rearranged], rfl, .nil⟩
  | outline :: outlines, others, rearranged, distinct => by
    rw [AllRearranged] at rearranged
    rw [AllDistinct] at distinct
    obtain ⟨before, partner, after, rfl, name, first, rest⟩ := rearranged
    obtain ⟨partners, perm, names, same⟩ := rest.partners distinct.2
    refine ⟨partner :: partners, (perm.cons partner).trans perm_middle.symm, ?_,
      .cons ⟨name, first.text distinct.1⟩ same⟩
    rw [map_cons, map_cons, name, names]

end

/-- Outlines that are rearranged one by one are rearranged in any order. -/
theorem allRearranged_of_perm (change : Outline → Outline)
    (each : ∀ outline ∈ outlines, outline.name = (change outline).name ∧
      outline.Rearranged (change outline))
    (perm : (outlines.map change).Perm others) : AllRearranged outlines others := by
  induction outlines generalizing others with
  | nil => exact nil_perm.mp perm
  | cons outline outlines ih =>
    obtain ⟨⟨name, rearranged⟩, rest⟩ := forall_mem_cons.mp each
    rw [map_cons] at perm
    obtain ⟨before, after, rfl⟩ := append_of_mem (perm.subset mem_cons_self)
    exact ⟨before, change outline, after, rfl, name, rearranged,
      ih rest (perm_cons _ |>.mp (perm.trans perm_middle))⟩

theorem rearranged_sort (outline : Outline) : outline.Rearranged outline.sort := by
  have inner : AllRearranged outline.nested ((outline.nested.map sort).mergeSort nameLe) :=
    allRearranged_of_perm sort (fun type inside => ⟨type.name_sort.symm, type.rearranged_sort⟩)
      (mergeSort_perm _ _).symm
  rw [sort_eq]
  cases outline
  exact ⟨rfl, rfl, rfl, (mergeSort_perm _ _).symm, inner⟩
termination_by sizeOf outline
decreasing_by exact sizeOf_lt_of_mem_nested inside

end Outline

/-! ## Files -/

namespace OutputFile

/-- Two files differ in the order of imports, members and member types only. -/
structure Rearranged (first second : OutputFile) : Prop where
  package : first.package = second.package
  imports : first.imports.Perm second.imports
  type : first.type.Rearranged second.type

theorem Rearranged.render_finalize {first second : OutputFile}
    (rearranged : first.Rearranged second) (distinct : first.type.Distinct) :
    first.finalize.render = second.finalize.render := by
  have imports : first.imports.mergeSort Import.le = second.imports.mergeSort Import.le :=
    orders_imports.mergeSort_eq (fun _ _ _ _ before after => Import.le_antisymm before after)
      rearranged.imports
  unfold render finalize
  dsimp only
  rw [rearranged.package, imports, rearranged.type.text distinct 0]

theorem finalize_finalize (file : OutputFile) : file.finalize.finalize = file.finalize := by
  unfold finalize
  dsimp only
  rw [orders_imports.mergeSort_mergeSort, Outline.sort_sort]

theorem rearranged_finalize (file : OutputFile) : file.Rearranged file.finalize :=
  ⟨rfl, (mergeSort_perm _ _).symm, file.type.rearranged_sort⟩

/-- Finishing a file is canonical. Rearranged files are finished to one text, if no two types beside
each other share a name. The types of a finished file are laid out by kinds, at every depth;
finishing it again changes nothing; and it holds what the file held, in another order, under the
name it had. -/
theorem finalize_canonical (file : OutputFile) :
    (∀ other : OutputFile, file.Rearranged other → file.type.Distinct →
      file.finalize.render = other.finalize.render) ∧
    file.finalize.type.renderAt 0 = file.finalize.type.layout 0 ∧
    file.finalize.finalize = file.finalize ∧
    file.Rearranged file.finalize ∧ file.finalize.type.name = file.type.name :=
  ⟨fun _ rearranged distinct => rearranged.render_finalize distinct, file.type.renderAt_sort 0,
    file.finalize_finalize, file.rearranged_finalize, file.type.name_sort⟩

/-- A file in which two constructors have one place in the order, and two member types stand beside
each other. -/
def counters (constructors nested : List String) : OutputFile :=
  ⟨"p.Counter", none, some "p", [],
    ⟨"Counter", .classType, "class Counter", none,
      ⟨.field, .field "count", ["count"], 0, "int count;"⟩ :: constructors.map fun name =>
        ⟨.constructor, .constructor 0, [name], 0, "Counter() \x7b\x7d"⟩,
      nested.map fun name => ⟨name, .classType, "class " ++ name, none, [], []⟩⟩⟩

/-- The two constructors stay in the order in which they were found, but nobody can read that off
the text. -/
theorem counters_finalized_alike : let first := counters ["Counter", "counter"] ["Up", "Down"]
    let second := counters ["counter", "Counter"] ["Down", "Up"]
    first.Rearranged second ∧ first.finalize.type.members ≠ second.finalize.type.members ∧
      first.finalize.render = second.finalize.render := by
  intro first second
  have rearranged : first.Rearranged second :=
    ⟨rfl, .nil, rfl, rfl, rfl, (Perm.swap _ _ _).cons _, [_], _, [], rfl, rfl,
      ⟨rfl, rfl, rfl, .nil, rfl⟩, [], _, [], rfl, rfl, ⟨rfl, rfl, rfl, .nil, rfl⟩, rfl⟩
  have distinct : first.type.Distinct := ⟨by decide, ⟨.nil, trivial⟩, ⟨.nil, trivial⟩, trivial⟩
  have kept : first.finalize.type.members = first.type.members := mergeSort_of_pairwise (by decide)
  have keptToo : second.finalize.type.members = second.type.members :=
    mergeSort_of_pairwise (by decide)
  refine ⟨rearranged, ?_, (finalize_canonical first).1 second rearranged distinct⟩
  rw [kept, keptToo]
  decide

end OutputFile

end JavaSlice.Slice
