import JavaSlice.Proofs.Filling
import JavaSlice.Proofs.Sorting

/-!
# Files that read alike

Two walks may fill their files in different orders. Two files are *alike* if they differ in the
order of imports and members only. Alike files have one text when they are finished, because
finishing a file sorts it.

Files of member types are folded into those of their enclosing types first, in an order that depends
on the names of the files alone. So folding keeps tables of files alike, whatever the order of their
entries, and the output that is made of alike tables is the same text for text
(`FilesAlike.outputTexts_eq`).
-/

namespace JavaSlice.Slice

open List Source

/-! ## Outlines -/

namespace Outline

theorem sizeOf_lt_of_mem_nested {outline inner : Outline} (inside : inner ∈ outline.nested) :
    sizeOf inner < sizeOf outline := by
  have := sizeOf_lt_of_mem inside
  cases outline
  simp_all
  omega

theorem sortAll_eq (outlines : List Outline) : sortAll outlines = outlines.map sort := by
  induction outlines with
  | nil => rfl
  | cons outline rest ih => rw [sortAll, ih, map_cons]

theorem renderAllAt_eq (depth : Nat) (outlines : List Outline) :
    renderAllAt depth outlines = outlines.map (renderAt depth) := by
  induction outlines with
  | nil => rfl
  | cons outline rest ih => rw [renderAllAt, ih, map_cons]

/-- The text of an outline, made of the texts of its members and of its member types. -/
def assemble (depth : Nat) (kind : TypeKind) (header : String) (preamble : Option String)
    (texts inner : List String) : String :=
  let lead := leadText? kind preamble (!texts.isEmpty || !inner.isEmpty)
  let blocks := (lead.toList ++ texts).map fun text => indent (depth + 1) ++ text ++ "\n"
  indent depth ++ header ++ " \x7b\n" ++ joinBlocks (blocks ++ inner) ++ indent depth ++ "\x7d\n"

/-- The text of an outline in terms of its parts. -/
theorem renderAt_eq (depth : Nat) (outline : Outline) :
    outline.renderAt depth =
      assemble depth outline.kind outline.header outline.preamble (outline.members.map (·.text))
        (outline.nested.map (renderAt (depth + 1))) := by
  cases outline
  simp only [renderAt, renderAllAt_eq, assemble, isEmpty_map]

/-- The order of member types. -/
def nameLe (first second : Outline) : Bool :=
  decide (first.name ≤ second.name)

/-- Sorting in terms of the parts of an outline. -/
theorem sort_eq (outline : Outline) :
    outline.sort =
      { outline with
        members := outline.members.mergeSort OutlineMember.le
        nested := (outline.nested.map sort).mergeSort nameLe } := by
  cases outline
  simp only [sort, sortAll_eq]
  rfl

/-- Two outlines read the same when they are sorted. -/
structure SameText (first second : Outline) : Prop where
  name : first.name = second.name
  text : ∀ depth, first.sort.renderAt depth = second.sort.renderAt depth

/-- Member types that read the same one by one read the same when they are sorted. -/
theorem sorted_nested_texts (same : Forall₂ SameText outlines others) (depth : Nat) :
    ((outlines.map sort).mergeSort nameLe).map (renderAt depth) =
      ((others.map sort).mergeSort nameLe).map (renderAt depth) := by
  -- the order looks at names only, so that sorting commutes with taking the texts
  have sorted : ∀ list : List Outline,
      ((list.map sort).mergeSort nameLe).map
        (fun outline => (outline.name, outline.renderAt depth)) =
        ((list.map sort).map fun outline => (outline.name, outline.renderAt depth)).mergeSort
          fun first second => decide (first.1 ≤ second.1) :=
    fun list => map_mergeSort fun _ _ _ _ => rfl
  have pairs : (outlines.map sort).map (fun outline => (outline.name, outline.renderAt depth)) =
      (others.map sort).map fun outline => (outline.name, outline.renderAt depth) := by
    induction same with
    | nil => rfl
    | cons first _ ih =>
      simp only [map_cons, ih, first.text depth]
      rw [sort_eq, sort_eq, first.name]
  have texts := congrArg (List.map Prod.snd) (sorted outlines)
  rw [pairs, ← sorted others, map_map, map_map] at texts
  exact texts

/-- Two outlines differ in the order of their members only, at every depth. -/
structure Alike (first second : Outline) : Prop where
  name : first.name = second.name
  kind : first.kind = second.kind
  header : first.header = second.header
  preamble : first.preamble = second.preamble
  members : first.members.Perm second.members
  nested : Forall₂ SameText first.nested second.nested

theorem Alike.sameText (alike : Alike first second) : SameText first second := by
  refine ⟨alike.name, fun depth => ?_⟩
  rw [renderAt_eq, renderAt_eq, sort_eq, sort_eq]
  simp only [alike.kind, alike.header, alike.preamble,
    OutlineMember.sorted_texts_eq_of_perm alike.members, sorted_nested_texts alike.nested]

end Outline

/-! ## Files -/

namespace OutputFile

variable {first second file : OutputFile}

/-- Two files differ in the order of their imports and members only. -/
structure Alike (first second : OutputFile) : Prop where
  qualifiedName : first.qualifiedName = second.qualifiedName
  outer : first.outer = second.outer
  package : first.package = second.package
  distinct : first.imports.Nodup
  imports : first.imports.Perm second.imports
  type : first.type.Alike second.type

/-- Files with nothing folded in are alike if they agree apart from the order of imports and
members. -/
theorem alike_of_bare_eq (bare : first.bare = second.bare) (distinct : first.imports.Nodup)
    (imports : first.imports.Perm second.imports)
    (members : first.type.members.Perm second.type.members) (flat : first.type.nested = []) :
    Alike first second := by
  have flatToo : second.type.nested = [] := (congrArg (·.type.nested) bare).symm.trans flat
  refine ⟨congrArg (·.qualifiedName) bare, congrArg (·.outer) bare, congrArg (·.package) bare,
    distinct, imports,
    congrArg (·.type.name) bare, congrArg (·.type.kind) bare, congrArg (·.type.header) bare,
    congrArg (·.type.preamble) bare, members, ?_⟩
  rw [flat, flatToo]
  exact .nil

/-- Alike files have the same text when finished. -/
theorem Alike.render_finalize (alike : Alike first second) :
    first.finalize.render = second.finalize.render := by
  have imports : first.imports.mergeSort Import.le = second.imports.mergeSort Import.le :=
    orders_imports.mergeSort_eq (fun _ _ _ _ before after => Import.le_antisymm before after)
      alike.imports
  unfold render finalize
  dsimp only
  rw [alike.package, imports, alike.type.sameText.text 0]

/-- Recording lines changes the imports only. -/
theorem foldl_addImport (file : OutputFile) (lines : List Import) :
    lines.foldl addImport file = { file with imports := (lines.foldl addImport file).imports } := by
  induction lines generalizing file with
  | nil => rfl
  | cons line rest ih =>
    have one : file.addImport line = { file with imports := (file.addImport line).imports } := by
      rw [addImport]
      split <;> rfl
    rw [foldl_cons, ih, one]

theorem imports_foldl_addImport (distinct : file.imports.Nodup) (lines : List Import) :
    (lines.foldl addImport file).imports.Nodup ∧
      ∀ line, line ∈ (lines.foldl addImport file).imports ↔
        line ∈ file.imports ∨ line ∈ lines ∧ file.isOwnPackage line = false := by
  have taken := imports_foldl_takeIn distinct (lines.map .useImport)
  rw [foldl_map] at taken
  simpa [takeIn] using taken

theorem absorb_eq (file member : OutputFile) :
    file.absorb member =
      { file with
        imports := (member.imports.foldl addImport file).imports
        type := { file.type with nested := file.type.nested ++ [member.type] } } := by
  rw [absorb, foldl_addImport]

theorem mem_imports_foldl_addImport {lines : List Import} {line : Import} :
    line ∈ (lines.foldl addImport file).imports ↔
      line ∈ file.imports ∨ line ∈ lines ∧ file.isOwnPackage line = false := by
  induction lines generalizing file with
  | nil => simp
  | cons first rest ih =>
    have package : (file.addImport first).isOwnPackage line = file.isOwnPackage line :=
      isOwnPackage_takeIn file (.useImport first) line
    rw [foldl_cons, ih, package, mem_imports_addImport, mem_cons, or_and_right, or_assoc]

/-- A folded file has no new imports. -/
theorem mem_imports_absorb (imported : line ∈ (file.absorb member).imports) :
    line ∈ file.imports ∨ line ∈ member.imports := by
  rw [absorb_eq] at imported
  exact (mem_imports_foldl_addImport.mp imported).imp_right And.left

/-- Alike files stay alike when they absorb alike files. -/
theorem Alike.absorb (alike : Alike first second) (members : Alike member other) :
    Alike (first.absorb member) (second.absorb other) := by
  obtain ⟨firstOnce, firstHolds⟩ := imports_foldl_addImport alike.distinct member.imports
  obtain ⟨secondOnce, secondHolds⟩ :=
    imports_foldl_addImport (alike.imports.nodup_iff.mp alike.distinct) other.imports
  rw [absorb_eq, absorb_eq]
  refine ⟨alike.qualifiedName, alike.outer, alike.package, firstOnce, ?_, ?_⟩
  · refine (perm_ext_iff_of_nodup firstOnce secondOnce).mpr fun line => ?_
    rw [firstHolds, secondHolds, alike.imports.mem_iff, members.imports.mem_iff, isOwnPackage,
      isOwnPackage, alike.package]
  · have type := alike.type
    refine { type with nested := ?_ }
    exact rel_append type.nested (.cons members.type.sameText .nil)

end OutputFile

/-! ## Tables of files -/

/-- Under a name two tables have alike files, or both have none. -/
def AlikeAt (first second : Table OutputFile) (name : String) : Prop :=
  (first.get? name = none ∧ second.get? name = none) ∨
    ∃ file other, first.get? name = some file ∧ second.get? name = some other ∧ file.Alike other

/-- Two tables have alike files under the same names; the order of their entries may differ. -/
structure FilesAlike (first second : Table OutputFile) : Prop where
  firstOnce : first.names.Nodup
  secondOnce : second.names.Nodup
  files : ∀ name, AlikeAt first second name

namespace FilesAlike

variable {first second : Table OutputFile}

section

variable (alike : FilesAlike first second) (name : String)
include alike name

theorem has_eq : first.has name = second.has name := by
  rcases alike.files name with ⟨noFirst, noSecond⟩ | ⟨file, other, inFirst, inSecond, -⟩
  · rw [Table.has, Table.has, noFirst, noSecond]
  · rw [Table.has, Table.has, inFirst, inSecond, Option.isSome_some, Option.isSome_some]

theorem drop :
    FilesAlike (first.drop name) (second.drop name) where
  firstOnce := Table.names_drop_nodup alike.firstOnce name
  secondOnce := Table.names_drop_nodup alike.secondOnce name
  files := by
    intro other
    rw [AlikeAt, Table.get?_drop, Table.get?_drop]
    by_cases same : other = name
    · simp only [if_pos same, and_self, true_or]
    · simp only [if_neg same]
      exact alike.files other

theorem put (files : file.Alike other) :
    FilesAlike (first.put name file) (second.put name other) where
  firstOnce := Table.names_put_nodup alike.firstOnce name file
  secondOnce := Table.names_put_nodup alike.secondOnce name other
  files := by
    intro place
    rw [AlikeAt, Table.get?_put, Table.get?_put]
    by_cases same : name = place
    · simp only [if_pos same]
      exact .inr ⟨file, other, rfl, rfl, files⟩
    · simp only [if_neg same]
      exact alike.files place

theorem absorb (members : member.Alike other) :
    FilesAlike (first.update name (·.absorb member)) (second.update name (·.absorb other)) where
  firstOnce := by
    rw [Table.names_update]
    exact alike.firstOnce
  secondOnce := by
    rw [Table.names_update]
    exact alike.secondOnce
  files := by
    intro place
    rw [AlikeAt, Table.get?_update, Table.get?_update]
    by_cases same : place = name
    · simp only [if_pos same]
      rcases alike.files place with ⟨noFirst, noSecond⟩ | ⟨file, mate, inFirst, inSecond, files⟩
      · exact .inl ⟨by rw [noFirst, Option.map_none], by rw [noSecond, Option.map_none]⟩
      · refine .inr ⟨file.absorb member, mate.absorb other, ?_, ?_, files.absorb members⟩
        · rw [inFirst, Option.map_some]
        · rw [inSecond, Option.map_some]
    · simp only [if_neg same]
      exact alike.files place

/-- Folding one file keeps tables alike. -/
theorem foldFile : FilesAlike (Registry.foldFile first name).1
    (Registry.foldFile second name).1 := by
  have rest := alike.drop name
  unfold Registry.foldFile
  rcases alike.files name with ⟨noFirst, noSecond⟩ | ⟨file, other, inFirst, inSecond, files⟩
  · simp only [noFirst, noSecond]
    exact alike
  · simp only [inFirst, inSecond, files.outer, rest.has_eq]
    split
    next _ => exact rest.absorb _ files
    next _ => exact rest.put name files

end

/-- Folding keeps files alike. -/
theorem foldFiles (alike : FilesAlike first second) (names : List String) :
    FilesAlike (Registry.foldFiles first names).1 (Registry.foldFiles second names).1 := by
  induction names generalizing first second with
  | nil => exact alike
  | cons name rest ih => exact ih (alike.foldFile name)

end FilesAlike

/-! ## The output -/

namespace Registry

/-- The names of the files that are folded away. -/
def memberNames (files : Table OutputFile) : List String :=
  (files.filter (·.2.outer.isSome)).map (·.2.qualifiedName)

/-- Every file has the qualified name under which it is found. -/
def FilesNamed (files : Table OutputFile) : Prop :=
  ∀ entry ∈ files, entry.2.qualifiedName = entry.1

theorem memberNames_nodup {files} (once : files.names.Nodup) (named : FilesNamed files) :
    (memberNames files).Nodup := by
  have names : memberNames files = (files.filter (·.2.outer.isSome)).map (·.1) :=
    map_congr_left fun entry mem => named entry (mem_of_mem_filter mem)
  rw [names]
  exact once.sublist (filter_sublist.map _)

theorem mem_memberNames {files} (once : files.names.Nodup) (named : FilesNamed files) {name} :
    name ∈ memberNames files ↔ ∃ file, files.get? name = some file ∧ file.outer.isSome := by
  rw [memberNames, mem_map]
  constructor
  · rintro ⟨⟨key, file⟩, mem, rfl⟩
    obtain ⟨present, isMember⟩ := mem_filter.mp mem
    rw [named _ present]
    exact ⟨file, Table.get?_of_mem once present, isMember⟩
  · rintro ⟨file, found, isMember⟩
    have present := Table.mem_of_get? found
    exact ⟨(name, file), mem_filter.mpr ⟨present, isMember⟩, named _ present⟩

/-- The name and the text of each file of the output. -/
def outputTexts (registry : Registry) : List (String × String) :=
  registry.outputFiles.1.map fun entry => (entry.1, entry.2.render)

end Registry

namespace FilesAlike

variable {first second : Table OutputFile}

theorem filesNamed (alike : FilesAlike first second) (named : Registry.FilesNamed first) :
    Registry.FilesNamed second := by
  rintro ⟨name, other⟩ mem
  have found := Table.get?_of_mem alike.secondOnce mem
  rcases alike.files name with ⟨-, noSecond⟩ | ⟨file, mate, inFirst, inSecond, files⟩
  · rw [noSecond] at found
    cases found
  · rw [inSecond, Option.some.injEq] at found
    rw [← found, ← files.qualifiedName]
    exact named _ (Table.mem_of_get? inFirst)

/-- Alike tables are folded in one order. -/
theorem memberNames_sorted_eq (alike : FilesAlike first second)
    (named : Registry.FilesNamed first) :
    (Registry.memberNames first).mergeSort Registry.foldLe =
      (Registry.memberNames second).mergeSort Registry.foldLe := by
  have otherNamed := alike.filesNamed named
  refine orders_foldLe.mergeSort_eq
    (fun _ _ _ _ before after => Registry.foldLe_antisymm before after) ?_
  refine (perm_ext_iff_of_nodup (Registry.memberNames_nodup alike.firstOnce named)
    (Registry.memberNames_nodup alike.secondOnce otherNamed)).mpr fun name => ?_
  rw [Registry.mem_memberNames alike.firstOnce named,
    Registry.mem_memberNames alike.secondOnce otherNamed]
  rcases alike.files name with ⟨noFirst, noSecond⟩ | ⟨file, other, inFirst, inSecond, files⟩
  · simp only [noFirst, noSecond]
  · simp only [inFirst, inSecond, Option.some.injEq, exists_eq_left', files.outer]

/-- The text of a finished file with its name. -/
def finalText (entry : String × OutputFile) : String × String :=
  (entry.1, entry.2.finalize.render)

/-- Alike files have the same texts in the end. -/
theorem finalTexts_perm (alike : FilesAlike first second) :
    (first.map finalText).Perm (second.map finalText) := by
  have once : ∀ {table : Table OutputFile}, table.names.Nodup → (table.map finalText).Nodup := by
    intro table names
    refine Nodup.of_map Prod.fst ?_
    rwa [map_map]
  have mem : ∀ {table : Table OutputFile}, table.names.Nodup → ∀ name text,
      (name, text) ∈ table.map finalText ↔
        ∃ file, table.get? name = some file ∧ file.finalize.render = text := by
    intro table names name text
    simp only [Table.get?_eq_some_iff names, mem_map, finalText, Prod.exists, Prod.mk.injEq]
    constructor
    · rintro ⟨_, file, membership, rfl, same⟩
      exact ⟨file, membership, same⟩
    · rintro ⟨file, membership, same⟩
      exact ⟨name, file, membership, rfl, same⟩
  refine (perm_ext_iff_of_nodup (once alike.firstOnce) (once alike.secondOnce)).mpr ?_
  rintro ⟨name, text⟩
  rw [mem alike.firstOnce, mem alike.secondOnce]
  rcases alike.files name with ⟨noFirst, noSecond⟩ | ⟨file, other, inFirst, inSecond, files⟩
  · simp only [noFirst, noSecond]
  · simp only [inFirst, inSecond, Option.some.injEq, exists_eq_left', files.render_finalize]

/-- Alike tables are finished into the same texts under the same names, in the same order. -/
theorem finalTexts_sorted_eq (alike : FilesAlike first second) :
    (first.mergeSort fun one other => decide (one.1 ≤ other.1)).map finalText =
      (second.mergeSort fun one other => decide (one.1 ≤ other.1)).map finalText := by
  have sorted : ∀ table : Table OutputFile,
      (table.mergeSort fun one other => decide (one.1 ≤ other.1)).map finalText =
        (table.map finalText).mergeSort fun one other => decide (one.1 ≤ other.1) :=
    fun table => map_mergeSort fun _ _ _ _ => rfl
  rw [sorted, sorted]
  refine (orders_names.comap Prod.fst).mergeSort_eq ?_ alike.finalTexts_perm
  -- names are compared only, but no name stands for two texts
  intro one isOne other isOther before after
  obtain ⟨entry, inTable, rfl⟩ := mem_map.mp isOne
  obtain ⟨mate, mateInTable, rfl⟩ := mem_map.mp isOther
  have sameName : entry.1 = mate.1 :=
    String.le_antisymm (of_decide_eq_true before) (of_decide_eq_true after)
  rw [inj_on_of_nodup_map alike.firstOnce inTable mateInTable sameName]

end FilesAlike

/-- Alike files give the same output: the same names and texts, in the same order. -/
theorem FilesAlike.outputTexts_eq {first second : Registry}
    (alike : FilesAlike first.files second.files) (named : Registry.FilesNamed first.files) :
    first.outputTexts = second.outputTexts := by
  have texts : ∀ registry : Registry, registry.outputTexts =
      (((Registry.foldFiles registry.files
        ((Registry.memberNames registry.files).mergeSort Registry.foldLe)).1
        |>.mergeSort fun one other => decide (one.1 ≤ other.1))).map finalText := by
    intro registry
    rw [Registry.outputTexts, Registry.outputFiles, map_map]
    rfl
  rw [texts, texts, alike.memberNames_sorted_eq named]
  exact (alike.foldFiles _).finalTexts_sorted_eq

/-! ## The files that are left -/

namespace Registry

variable {files : Table OutputFile} {name : String} {rest : List String} {registry : Registry}
  {line : Import}

/-- Some member types can be folded away one after the other: each has a file, and so has its
enclosing type, under a shorter name; and longer names come first. -/
structure Foldable (files : Table OutputFile) (members : List String) : Prop where
  once : files.names.Nodup
  distinct : members.Nodup
  sorted : members.Pairwise fun first second => second.utf8ByteSize ≤ first.utf8ByteSize
  enclosed : ∀ name ∈ members, ∃ file outer, files.get? name = some file ∧ file.outer = some outer ∧
    outer ∈ files.names ∧ outer.utf8ByteSize < name.utf8ByteSize

section

variable (foldable : Foldable files (name :: rest))
include foldable

/-- The first member type is folded into the file of its enclosing type. -/
theorem Foldable.foldFile_eq :
    ∃ member outer, (foldFile files name).1 = (files.drop name).update outer (·.absorb member) := by
  obtain ⟨member, outer, found, isOuter, present, shorter⟩ := foldable.enclosed name mem_cons_self
  have different : outer ≠ name := by
    rintro rfl
    exact Nat.lt_irrefl _ shorter
  have stays : (files.drop name).has outer = true := by
    rw [Table.has_iff, ← Table.get?_isSome_iff, Table.get?_drop, if_neg different,
      Table.get?_isSome_iff]
    exact present
  refine ⟨member, outer, ?_⟩
  simp only [foldFile, found, isOuter, Option.getD_some, stays, if_true]

theorem Foldable.mem_names_foldFile (other : String) :
    other ∈ (foldFile files name).1.names ↔ other ∈ files.names ∧ other ≠ name := by
  obtain ⟨member, outer, folded⟩ := foldable.foldFile_eq
  rw [folded, Table.names_update, ← Table.get?_isSome_iff, Table.get?_drop, ← Table.get?_isSome_iff]
  by_cases same : other = name
  · simp [same]
  · simp [same]

/-- The other member types can still be folded then, because their enclosing types have shorter
names. -/
theorem Foldable.foldFile : Foldable (foldFile files name).1 rest := by
  have names := foldable.mem_names_foldFile
  obtain ⟨fresh, distinct⟩ := nodup_cons.mp foldable.distinct
  obtain ⟨longest, sorted⟩ := pairwise_cons.mp foldable.sorted
  obtain ⟨member, parent, folded⟩ := foldable.foldFile_eq
  refine ⟨?_, distinct, sorted, ?_⟩
  · rw [folded, Table.names_update]
    exact Table.names_drop_nodup foldable.once name
  · intro other mem
    have different : other ≠ name := by
      rintro rfl
      exact fresh mem
    obtain ⟨file, outer, found, isOuter, present, shorter⟩ :=
      foldable.enclosed other (mem_cons_of_mem _ mem)
    have stays : outer ≠ name := by
      rintro rfl
      have := longest other mem
      omega
    -- the file may be the one that has absorbed the first, which leaves its outer name as it was
    obtain ⟨next, becomes, sameOuter⟩ : ∃ next,
      (Registry.foldFile files name).1.get? other = some next ∧
        next.outer = file.outer := by
      rw [folded, Table.get?_update, Table.get?_drop, if_neg different, found]
      split
      next _ => exact ⟨file.absorb member, rfl, by rw [OutputFile.absorb_eq]⟩
      next _ => exact ⟨file, rfl, rfl⟩
    exact ⟨next, outer, becomes, sameOuter.trans isOuter, (names outer).mpr ⟨present, stays⟩,
      shorter⟩

end

/-- Folding takes away the files of member types. -/
theorem Foldable.mem_names_foldFiles (foldable : Foldable files members) (name : String) :
    name ∈ (foldFiles files members).1.names ↔ name ∈ files.names ∧ name ∉ members := by
  induction members generalizing files with
  | nil => simp [foldFiles]
  | cons member rest ih =>
    rw [foldFiles, ih foldable.foldFile, foldable.mem_names_foldFile, mem_cons, not_or, and_assoc]

/-- If the enclosing type of every member type has a file, under a shorter name, then the output has
the files of the types that are no member types. -/
theorem mem_names_outputFiles (once : registry.files.names.Nodup)
    (named : FilesNamed registry.files)
    (enclosed : ∀ name file outer, registry.file? name = some file → file.outer = some outer →
      outer ∈ registry.files.names ∧ outer.utf8ByteSize < name.utf8ByteSize)
    (name : String) :
    name ∈ registry.outputFiles.1.names ↔ ∃ file, registry.file? name = some file ∧
      file.outer = none := by
  have members := @mem_memberNames registry.files once named
  have foldable : Foldable registry.files ((memberNames registry.files).mergeSort foldLe) := by
    refine ⟨once, ?_, ?_, ?_⟩
    · exact (mergeSort_perm _ foldLe).nodup_iff.mpr (memberNames_nodup once named)
    · refine (pairwise_mergeSort orders_foldLe.trans orders_foldLe.total _).imp ?_
      intro first second before
      simp only [foldLe] at before
      grind
    · intro member mem
      obtain ⟨file, found, isMember⟩ := members.mp (mem_mergeSort.mp mem)
      obtain ⟨outer, isOuter⟩ := Option.isSome_iff_exists.mp isMember
      obtain ⟨present, shorter⟩ := enclosed member file outer found isOuter
      exact ⟨file, outer, found, isOuter, present, shorter⟩
  have names : name ∈ registry.outputFiles.1.names ↔
      name ∈
        (foldFiles registry.files ((memberNames registry.files).mergeSort foldLe)).1.names := by
    simp only [outputFiles, memberNames, Table.names, map_map, mem_map, mem_mergeSort]
    rfl
  rw [names, foldable.mem_names_foldFiles, mem_mergeSort, members, ← Table.get?_isSome_iff,
    Option.isSome_iff_exists]
  constructor
  · rintro ⟨⟨file, found⟩, top⟩
    refine ⟨file, found, Option.not_isSome_iff_eq_none.mp fun isMember =>
      top ⟨file, found, isMember⟩⟩
  · rintro ⟨file, found, top⟩
    refine ⟨⟨file, found⟩, ?_⟩
    rintro ⟨other, again, isMember⟩
    obtain rfl : file = other := Option.some.inj (found.symm.trans again)
    simp [top] at isMember

/-- Without member types, every file is in the output. -/
theorem mem_outputFiles (top : ∀ entry ∈ registry.files, entry.2.outer = none)
    (mem : entry ∈ registry.files) : (entry.1, entry.2.finalize) ∈ registry.outputFiles.1 := by
  have noMembers : registry.files.filter (·.2.outer.isSome) = [] := by
    rw [filter_eq_nil_iff]
    intro other present
    simp [top other present]
  simp only [outputFiles, noMembers, map_nil, mergeSort_nil, foldFiles, mem_map, mem_mergeSort]
  exact ⟨entry, mem, rfl⟩

/-! ## Where the imports of the output come from -/

/-- Some file of a table has a line among its imports. -/
def HasImport (files : Table OutputFile) (line : Import) : Prop :=
  ∃ entry ∈ files, line ∈ entry.2.imports

theorem hasImport_of_foldFile (imported : HasImport (foldFile files name).1 line) :
    HasImport files line := by
  obtain ⟨entry, mem, isImport⟩ := imported
  cases found : files.get? name with
  | none =>
    rw [foldFile, found] at mem
    exact ⟨entry, mem, isImport⟩
  | some member =>
    have present : (name, member) ∈ files := Table.mem_of_get? found
    simp only [foldFile, found] at mem
    split at mem
    next _ =>
      obtain ⟨old, before, rfl⟩ := mem_map.mp mem
      have original : old ∈ files := mem_of_mem_filter before
      dsimp only at isImport
      split at isImport
      next _ =>
        rcases OutputFile.mem_imports_absorb isImport with own | absorbed
        · exact ⟨old, original, own⟩
        · exact ⟨(name, member), present, absorbed⟩
      next _ => exact ⟨old, original, isImport⟩
    next _ =>
      rcases Table.mem_put mem with before | same
      · exact ⟨entry, mem_of_mem_filter before, isImport⟩
      · exact ⟨(name, member), present, same ▸ isImport⟩

/-- Folding adds no imports. -/
theorem hasImport_of_foldFiles (imported : HasImport (foldFiles files members).1 line) :
    HasImport files line := by
  induction members generalizing files with
  | nil => exact imported
  | cons name rest ih => exact hasImport_of_foldFile (ih imported)

/-- Every import of the output is one of a file before folding. -/
theorem hasImport_of_outputFiles (imported : HasImport registry.outputFiles.1 line) :
    HasImport registry.files line := by
  obtain ⟨entry, mem, isImport⟩ := imported
  simp only [outputFiles, mem_map, mem_mergeSort] at mem
  obtain ⟨folded, isFolded, rfl⟩ := mem
  exact hasImport_of_foldFiles ⟨folded, isFolded, mem_mergeSort.mp isImport⟩

end Registry

end JavaSlice.Slice
