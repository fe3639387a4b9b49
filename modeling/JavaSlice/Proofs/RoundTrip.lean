import JavaSlice.Proofs.Folding
import JavaSlice.Proofs.Writing.Rereading
import Mathlib.Data.Set.List

/-!
# Reading what was written

The file of a type with every import and every member is read again. Where the header of the type
ends with a comment that goes to the end of its line, the comment takes the brace, and the file is
no source any more (`brace_after_comment_lost`). A comment inside the name of a package or an import
is copied as a part of the name. Apart from that the file is read without errors, and what is read
is the package, the imports and the type that were written (`reading_undoes_writing`).

Of two members that clash only the first is written. The constants of an enumeration are read again
as they are, but their lines may be indented by another width.
-/

namespace JavaSlice.Slice

open List Source

/-- Copies a member into the file of its type. -/
def OutputFile.addMember (file : OutputFile) : Member → OutputFile
  | .field field => file.addField field
  | .method method => file.addMethod (.method method.name method.arity) method
  | .constructor method => file.addMethod (.constructor method.arity) method

/-- The file of a type with every import of its source and every member. -/
def OutputFile.whole (unit : CompilationUnit) (decl : TypeDecl) : OutputFile :=
  (decl.members.foldl addMember (unit.imports.foldl addImport (.ofDecl unit decl))).finalize

/-- A class whose header ends with a comment. -/
def commentedHeader : String :=
  "package p;\n\npublic class Main // entry\n\x7b\n    void run() \x7b\n    \x7d\n\x7d\n"

/-- A file is read without errors, but its header ends in a line comment; written again, the file
has no opening brace any more. -/
theorem brace_after_comment_lost :
    (Syntax.Tree.ofSource commentedHeader.toList).hasError = false ∧
      ((CompilationUnit.ofSource "Main.java" commentedHeader).types.map fun decl =>
        (decl.header, decl.nested.length, (Syntax.Tree.ofSource (OutputFile.whole
          (CompilationUnit.ofSource "Main.java" commentedHeader) decl).render.toList).hasError)) =
        [("public class Main // entry", 0, true)] := by
  decide +kernel

/-! ## The text of a file -/

section Texts

open Syntax Syntax.Grammar Reading

theorem intercalate_blockText (texts : List (List Char)) :
    ['\n'].intercalate (texts.map blockText) = blocksText texts := by
  induction texts with
  | nil => rfl
  | cons x texts ih =>
    cases texts with
    | nil => simp [blocksText, blockGap]
    | cons y texts =>
      have gap : blockGap (y :: texts) = ['\n'] := rfl
      rw [map_cons, map_cons, intercalate_cons_cons, ← map_cons, ih, append_assoc,
        ← gap]
      rfl

theorem intercalate_cons (separator x : List Char) (texts : List (List Char)) :
    separator.intercalate (x :: texts) = x ++ texts.flatMap (separator ++ ·) := by
  induction texts generalizing x with
  | nil => simp
  | cons y texts ih =>
    rw [intercalate_cons_cons, ih, flatMap_cons, append_assoc, append_assoc]

theorem toList_of_preambleText (read : preambleText indent constants = some text) :
    constants ≠ [] ∧ text.toList = constantsText indent (constants.map String.toList) ++ [';'] := by
  rw [preambleText] at read
  split at read
  · cases read
  · next nonempty =>
    obtain rfl := Option.some.inj read
    cases constants with
    | nil => exact (nonempty rfl).elim
    | cons first constants =>
      refine ⟨cons_ne_nil _ _, ?_⟩
      rw [String.toList_append, String.toList_intercalate, map_cons, intercalate_cons,
        constantsText, laterConstants, String.toList_append]
      simp

/-- The blocks of a body are its constants and its members. -/
theorem blocks_eq {form indent constants texts} (plain : form ≠ .ofEnum → constants = []) :
    ((Outline.leadText? (typeKindOf form) (preambleText indent constants)
        (!texts.isEmpty)).toList ++ texts).map String.toList =
      form.blocks indent (constants.map String.toList) (texts.map String.toList) := by
  cases read : preambleText indent constants with
  | some text =>
    obtain ⟨nonempty, same⟩ := toList_of_preambleText read
    have isEnum : form = .ofEnum := Classical.byContradiction fun other => nonempty (plain other)
    rw [TypeForm.blocks, if_pos isEnum, enumBlocks, if_neg (by simp [nonempty])]
    simp [Outline.leadText?, same]
  | none =>
    have empty : constants = [] := by
      rw [preambleText] at read
      split at read
      · next empty => exact List.isEmpty_iff.mp empty
      · cases read
    subst empty
    by_cases isEnum : form = .ofEnum
    · subst isEnum
      cases texts with
      | nil => rfl
      | cons first texts => rfl
    · have other : typeKindOf form ≠ .enumType := by cases form <;> simp_all [typeKindOf]
      rw [TypeForm.blocks, if_neg isEnum]
      simp [Outline.leadText?, other]

/-- The text of a type without member types. -/
theorem toList_assemble (plain : form ≠ .ofEnum → constants = []) :
    (Outline.assemble 0 (typeKindOf form) header (preambleText indent constants) texts []).toList =
      typeText form header.toList indent (constants.map String.toList)
        (texts.map String.toList) := by
  have blocks : ∀ texts : List String,
      (Outline.joinBlocks ((texts.map fun text => Outline.indent 1 ++ text ++ "\n") ++ [])).toList =
        blocksText (texts.map String.toList) := by
    intro texts
    rw [Outline.joinBlocks, String.toList_intercalate, append_nil, map_map, ← intercalate_blockText,
      map_map]
    congr 1
    refine map_congr_left fun text _ => ?_
    simp [blockText, Outline.indent]
  have same := @blocks_eq form indent constants texts plain
  rw [Outline.assemble, typeText, ← same, bodyText, ← blocks]
  simp [Outline.indent]

/-- The text of a file. -/
theorem toList_render {file : OutputFile} {package : Option QualifiedName}
    {imports : List NamedImport} {form : TypeForm} {indent : Nat} {constants : List String}
    (packageName : file.package = package.map fun name => String.ofList name.text)
    (importNames : file.imports = imports.map (·.line)) (kind : file.type.kind = typeKindOf form)
    (preamble : file.type.preamble = preambleText indent constants)
    (plain : form ≠ .ofEnum → constants = []) (nested : file.type.nested = []) :
    file.render.toList = packageLines package ++ (importLines imports ++
      typeText form file.type.header.toList indent (constants.map String.toList)
        (file.type.members.map (·.text.toList))) := by
  have text : (file.type.renderAt 0).toList = typeText form file.type.header.toList indent
      (constants.map String.toList) (file.type.members.map (·.text.toList)) := by
    rw [Outline.renderAt_eq, kind, preamble, nested, map_nil, toList_assemble plain, map_map]
    rfl
  have lines : (if file.imports.isEmpty then "" else
      String.join (file.imports.map fun line => line.render ++ "\n") ++ "\n").toList =
        importLines imports := by
    rw [importNames]
    cases imports <;> simp [importLines, linesText, blockGap, String.toList_join, flatMap_map]
  rw [OutputFile.render, String.toList_append, String.toList_append, text, lines, packageName,
    append_assoc]
  congr 1
  cases package with
  | none => rfl
  | some name =>
    have ending : ";\n\n".toList = [';'] ++ ['\n', '\n'] := rfl
    dsimp only [Option.map_some]
    rw [packageLines, QualifiedName.packageText_eq, String.toList_append, String.toList_append,
      @String.toList_ofList name.text, ending,
      append_assoc, append_assoc, append_assoc]

end Texts

/-! ## The package, the imports and the type of a source -/

section Sources

open Syntax Syntax.Grammar Reading

variable {source : List Char}
variable {trees : List Tree} {name : String} {tree : Tree} {line : Import}

/-- The package of a file is read off one of its phrases. -/
theorem exists_of_packageAfter
    (read : packageAfter source package (Phrase.ofTrees source trees) = some name) :
    package = some name ∨ ∃ tree ∈ trees, tree.kind = .packageDeclaration ∧
      packageName? source (Phrase.ofTree source tree) = some name := by
  induction trees generalizing package with
  | nil => exact .inl read
  | cons tree trees ih =>
    rw [Phrase.ofTrees, packageAfter, foldl_cons] at read
    rcases ih read with here | ⟨tree, inside, later⟩
    · rw [kind_ofTree] at here
      split at here
      · next kind => exact .inr ⟨tree, mem_cons_self, by simpa using kind, here⟩
      · exact .inl here
    · exact .inr ⟨tree, mem_cons_of_mem _ inside, later⟩

/-- A package without comments in its name can be written. -/
theorem exists_qualifiedName_of_isPackagePhrase (isPackage : IsPackagePhrase source tree)
    (read : packageName? source (Phrase.ofTree source tree) = some name)
    (noComment : '/' ∉ name.toList) :
    ∃ qualified : QualifiedName, name = String.ofList qualified.text := by
  obtain ⟨start, stop, marks, part, z, named, first, rest, rfl, others, kind, spans, said, names⟩ :=
    isPackage
  obtain rfl := Option.some.inj ((packageName?_eq others kind).symm.trans read)
  rw [String.toList_ofList] at noComment
  have bare : '/' ∉ cut source part.start part.stop := fun comment =>
    noComment (mem_filter.mpr ⟨comment, by decide⟩)
  have plain : ∀ token ∈ named, token.IsPlain := fun token inside =>
    isPlain_of_nameLine (said ▸ mem_map_of_mem inside)
  refine ⟨⟨first, rest, isSegment_of_spans spans said (fun _ => id) names⟩, ?_⟩
  rw [spans.filter_blanks bare plain, flatMap_text_of_said said, flatMap_nameLine]
  rfl

/-- An import without comments in its name can be written. -/
theorem exists_namedImport_of_isImportPhrase (isImport : IsImportPhrase source tree)
    (read : Import.ofString? (textBetween source tree.start tree.stop) = some line)
    (noComment : '/' ∉ line.name.toList) : ∃ item : NamedImport, item.line = line := by
  obtain ⟨z, tokens, isStatic, isWildcard, first, rest, spans, zero, said, names⟩ := isImport
  rw [Import.ofString?, textBetween, String.toList_ofList] at read
  have bare : '/' ∉ cut source tree.start tree.stop :=
    fun comment => noComment (slash_of_ofChars? read comment)
  have segments := isSegment_of_spans spans said (by simp +contextual [importLine]) names
  have same := (ofChars?_of_spans spans zero bare said names).symm.trans read
  exact ⟨⟨isStatic, isWildcard, first, rest, segments⟩, Option.some.inj same⟩

/-- The imports of a file are read off its phrases. -/
theorem exists_of_mem_importsOfFile
    (listed : line ∈ importsOfFile source (Phrase.ofTrees source trees)) :
    ∃ tree ∈ trees, tree.kind = .importDeclaration ∧
      Import.ofString? (textBetween source tree.start tree.stop) = some line := by
  rw [importsOfFile, ofTrees_eq_map] at listed
  obtain ⟨phrase, inside, read⟩ := mem_filterMap.mp listed
  obtain ⟨listed, kind⟩ := mem_filter.mp inside
  obtain ⟨tree, present, rfl⟩ := mem_map.mp listed
  rw [kind_ofTree] at kind
  rw [text_ofTree] at read
  exact ⟨tree, present, by simpa using kind, read⟩

variable {path text : String} (lexical : Token.isLexical text.toList = true)
  (sound : (Tree.ofSource text.toList).hasError = false)

include lexical sound

/-- The package of a source can be written. -/
theorem exists_package
    (noComment : ∀ name ∈ (CompilationUnit.ofSource path text).package, '/' ∉ name.toList) :
    ∃ package : Option QualifiedName,
      (CompilationUnit.ofSource path text).package = package.map fun name =>
        String.ofList name.text := by
  cases read : (CompilationUnit.ofSource path text).package with
  | none => exact ⟨none, rfl⟩
  | some name =>
    have found := read
    rw [CompilationUnit.ofSource, CompilationUnit.ofTree, parts_ofTree] at found
    rcases exists_of_packageAfter found with none | ⟨tree, inside, kind, found⟩
    · cases none
    · obtain ⟨qualified, rfl⟩ := exists_qualifiedName_of_isPackagePhrase
        ((filePhrase_of_mem lexical sound inside).package kind) found (noComment name read)
      exact ⟨some qualified, rfl⟩

/-- The imports of a source can be written. -/
theorem exists_imports
    (noComment : ∀ line ∈ (CompilationUnit.ofSource path text).imports, '/' ∉ line.name.toList)
    (listed : ∀ line ∈ lines, line ∈ (CompilationUnit.ofSource path text).imports) :
    ∃ imports : List NamedImport, lines = imports.map (·.line) := by
  have each : lines ∈ {lines : List Import | ∀ line ∈ lines,
      line ∈ Set.range NamedImport.line} := by
    intro line inside
    have found := listed line inside
    rw [CompilationUnit.ofSource, CompilationUnit.ofTree, parts_ofTree] at found
    obtain ⟨tree, present, kind, read⟩ := exists_of_mem_importsOfFile found
    exact exists_namedImport_of_isImportPhrase
      ((filePhrase_of_mem lexical sound present).line kind) read
      (noComment line (listed line inside))
  rw [← Set.range_list_map] at each
  obtain ⟨imports, same⟩ := each
  exact ⟨imports, same.symm⟩

/-- The types of a source are excerpts of it. -/
theorem exists_excerpt (listed : decl ∈ (CompilationUnit.ofSource path text).types) :
    ∃ type : TypeExcerpt text.toList, Rejects packageDeclaration AtBrace type.tokens ∧
      Rejects (fun _ => importDeclaration) AtBrace type.tokens ∧
      ∃ package, typeDecl? text.toList package none (Phrase.ofTree text.toList type.tree) =
        some decl := by
  rw [CompilationUnit.ofSource, CompilationUnit.ofTree, parts_ofTree] at listed
  obtain ⟨tree, inside, package, read⟩ := exists_of_mem_typesOfFile listed
  obtain ⟨type, rfl, notPackage, notImport⟩ :=
    (filePhrase_of_mem lexical sound inside).type (isTypeKind_of_typeDecl? read)
  exact ⟨type, notPackage, notImport, package, read⟩

end Sources

/-! ## The file of a type with every member -/

namespace OutlineMember

/-- The copy of a member. -/
def ofMember : Member → OutlineMember
  | .field field => .ofField field
  | .method method => .ofMethod (.method method.name method.arity) method
  | .constructor method => .ofMethod (.constructor method.arity) method

theorem text_ofMember (member : Member) : (ofMember member).text = member.text := by
  cases member <;> rfl

/-- What is kept of some copies: all of them, apart from those that clash with one that is kept. -/
structure Keeps (copies kept : List OutlineMember) : Prop where
  sublist : kept.Sublist copies
  others : ∀ copy ∈ copies, copy ∈ kept ∨ ∃ other ∈ kept, other.clashes copy = true
  all : copies.Pairwise (fun first second => first.clashes second = false) → kept = copies

theorem keeps_foldl_insert (copies : List OutlineMember) :
    Keeps copies (copies.foldl insert []) := by
  -- the last copy is either put at the end or kept out
  induction copies using reverseRecOn with
  | nil => exact ⟨.slnil, nofun, fun _ => rfl⟩
  | append_singleton copies last keeps =>
    rw [foldl_append, foldl_cons, foldl_nil, insert]
    split
    · next clash =>
      obtain ⟨other, inside, clashes⟩ := any_eq_true.mp clash
      refine ⟨keeps.sublist.trans (sublist_append_left _ _), ?_, fun apart => ?_⟩
      · rw [forall_mem_append, forall_mem_singleton]
        exact ⟨keeps.others, .inr ⟨other, inside, clashes⟩⟩
      · obtain ⟨-, -, apart⟩ := pairwise_append.mp apart
        rw [apart other (keeps.sublist.subset inside) last mem_cons_self] at clashes
        cases clashes
    · refine ⟨keeps.sublist.append_right _, ?_, fun apart => ?_⟩
      · rw [forall_mem_append, forall_mem_singleton]
        refine ⟨fun copy inside => ?_, .inl (by simp)⟩
        rcases keeps.others copy inside with kept | ⟨other, kept, clashes⟩
        · exact .inl (mem_append_left _ kept)
        · exact .inr ⟨other, mem_append_left _ kept, clashes⟩
      · rw [keeps.all (pairwise_append.mp apart).1]

end OutlineMember

/-- The step that keeps a member. -/
def Step.ofMember : Member → Step
  | .field field => .keepField field
  | .method method => .keepMethod (.method method.name method.arity) method
  | .constructor method => .keepMethod (.constructor method.arity) method

theorem Step.copies_useImport_ofMember (lines : List Import) (members : List Member) :
    Step.copies (lines.map .useImport ++ members.map .ofMember) = members.map .ofMember := by
  have one : Step.copy? ∘ Step.ofMember = some ∘ OutlineMember.ofMember := by
    funext member
    cases member <;> rfl
  have none : Step.copy? ∘ Step.useImport = fun _ => none := rfl
  rw [Step.copies, filterMap_append, filterMap_map, filterMap_map, one, none, ← filterMap_eq_map]
  simp

namespace OutputFile

/-- The file of a type before it is finished. -/
def filled (unit : CompilationUnit) (decl : TypeDecl) : OutputFile :=
  (unit.imports.map Step.useImport ++ decl.members.map Step.ofMember).foldl takeIn
    (.ofDecl unit decl)

variable (unit : CompilationUnit) (decl : TypeDecl)

theorem whole_eq : whole unit decl = (filled unit decl).finalize := by
  have one : addMember = fun file member => file.takeIn (.ofMember member) := by
    funext file member
    cases member <;> rfl
  rw [whole, filled, one, foldl_append, foldl_map, foldl_map]
  rfl

theorem bare_filled : (filled unit decl).bare = ofDecl unit decl :=
  bare_foldl_takeIn _ _

theorem mem_imports_whole (line : Import) :
    line ∈ (whole unit decl).imports ↔ line ∈ unit.imports ∧
      (ofDecl unit decl).isOwnPackage line = false := by
  have foreign : ∀ member, Step.ofMember member ≠ .useImport line := fun member => by
    cases member <;> nofun
  rw [whole_eq, finalize, mem_mergeSort, filled, (imports_foldl_takeIn nodup_nil _).2]
  simp [foreign, ofDecl]

theorem members_whole : ∃ kept, OutlineMember.Keeps (decl.members.map .ofMember) kept ∧
    (whole unit decl).type.members = kept.mergeSort OutlineMember.le := by
  refine ⟨_, OutlineMember.keeps_foldl_insert _, ?_⟩
  rw [whole_eq, finalize, Outline.sort_eq, filled, members_foldl_takeIn,
    Step.copies_useImport_ofMember]
  rfl

/-- Apart from imports and members the file has what the type has. -/
theorem bare_whole : (whole unit decl).bare = ofDecl unit decl := by
  have same := bare_filled unit decl
  have flat : (filled unit decl).type.nested = [] := congrArg (·.type.nested) same
  rw [whole_eq, finalize, Outline.sort_eq, ← same, bare, bare]
  simp [flat]

end OutputFile

/-! ## Reading a file again -/

section Again

open Syntax Syntax.Grammar Reading

/-- What is read when the file of a type with every member is read again. -/
structure IsReadAgain (unit : CompilationUnit) (decl : TypeDecl) (again : CompilationUnit)
    (type : TypeDecl) : Prop where
  package : again.package = unit.package
  imports : again.imports = (OutputFile.whole unit decl).imports
  recorded : ∀ line, line ∈ again.imports ↔
    line ∈ unit.imports ∧ (OutputFile.ofDecl unit decl).isOwnPackage line = false
  types : again.types = [type]
  name : type.name = decl.name
  kind : type.kind = decl.kind
  header : type.header = decl.header
  /-- The constants stay, and how far they are indented may change. -/
  constants : ∃ constants indent indent', (∀ text ∈ constants, IsConstantText text.toList) ∧
    decl.preamble = preambleText indent constants ∧ type.preamble = preambleText indent' constants
  members : ∃ kept, OutlineMember.Keeps (decl.members.map .ofMember) kept ∧
    type.members.map Member.text = (kept.mergeSort OutlineMember.le).map (·.text)
  nested : type.nested = []

/-- The members of a file come from its type. -/
theorem OutputFile.isMemberText_whole
    (good : ∀ member ∈ decl.members, IsMemberText kind member.text.toList) :
    ∀ copy ∈ (whole unit decl).type.members, IsMemberText kind copy.text.toList := by
  intro copy inside
  obtain ⟨kept, keeps, same⟩ := members_whole unit decl
  rw [same, mem_mergeSort] at inside
  obtain ⟨member, present, rfl⟩ := mem_map.mp (keeps.sublist.subset inside)
  rw [OutlineMember.text_ofMember]
  exact good member present

/-- The file of a type is read without errors, and gives the package, the imports and the type that
were written, if names hold no comments and a brace can follow the header. -/
theorem reading_undoes_writing {path text : String} {decl : TypeDecl}
    (lexical : Token.isLexical text.toList = true)
    (sound : (Tree.ofSource text.toList).hasError = false)
    (one : (CompilationUnit.ofSource path text).types = [decl])
    (noComment : ∀ name ∈ (CompilationUnit.ofSource path text).package, '/' ∉ name.toList)
    (noComments : ∀ line ∈ (CompilationUnit.ofSource path text).imports, '/' ∉ line.name.toList)
    (opens : opensAfter decl.header.toList = true) (path' : String) :
    (Tree.ofSource (OutputFile.whole (.ofSource path text) decl).render.toList).hasError = false ∧
      ∃ type, IsReadAgain (.ofSource path text) decl
        (.ofSource path' (OutputFile.whole (.ofSource path text) decl).render) type := by
  obtain ⟨type, notPackage, notImport, _, read⟩ :=
    exists_excerpt lexical sound (one ▸ mem_cons_self)
  obtain ⟨name, inside, named, indent, constants, reading⟩ := exists_sourceReading type read
  obtain ⟨package, packageName⟩ := exists_package lexical sound noComment
  obtain ⟨imports, importNames⟩ := exists_imports lexical sound noComments fun line inside =>
    ((OutputFile.mem_imports_whole _ decl line).mp inside).1
  have bare := OutputFile.bare_whole (.ofSource path text) decl
  set file := OutputFile.whole (.ofSource path text) decl with isWhole
  have header : file.type.header.toList = type.head :=
    congrArg (·.type.header.toList) bare |>.trans reading.header
  have rendered := @toList_render file package imports type.form indent
    (constants.map String.ofList)
    ((congrArg (·.package) bare).trans packageName) importNames
      ((congrArg (·.type.kind) bare).trans reading.kind)
    ((congrArg (·.type.preamble) bare).trans reading.preamble)
      (fun other => by rw [reading.plain other, map_nil])
    (congrArg (·.type.nested) bare)
  have same : (constants.map String.ofList).map String.toList = constants := by simp
  rw [header, same] at rendered
  have good : IsBodyText type.form constants (file.type.members.map (·.text.toList)) := by
    refine ⟨reading.plain, reading.constants, fun x listed => ?_⟩
    obtain ⟨copy, present, rfl⟩ := mem_map.mp listed
    exact OutputFile.isMemberText_whole reading.members copy present
  obtain ⟨written, parsed⟩ :=
    exists_writtenFile (reading.header ▸ opens) notPackage notImport rendered good
  obtain ⟨again, types, reread⟩ := exists_typesOfFile written inside named
  obtain ⟨kept, keeps, members⟩ := OutputFile.members_whole (.ofSource path text) decl
  obtain ⟨indent', preamble⟩ := reread.preamble
  have reads : CompilationUnit.ofSource path' file.render =
      ⟨path', (CompilationUnit.ofSource path text).package, file.imports, [again]⟩ := by
    rw [packageName, importNames, ← packageAfter_phrases written, ← importsOfFile_phrases written,
      ← types, CompilationUnit.ofSource, CompilationUnit.ofTree, parsed, parts_ofTree]
    rfl
  refine ⟨by rw [parsed]; exact Tree.hasError_node_iff.mpr ⟨nofun, written.hasError_phrases⟩,
    again, ?_⟩
  rw [reads]
  exact {
    package := rfl
    imports := rfl
    recorded := OutputFile.mem_imports_whole _ decl
    types := rfl
    name := reread.name.trans reading.name.symm
    kind := reread.kind.trans reading.kind.symm
    header := String.toList_injective (reread.header.trans reading.header.symm)
    constants := ⟨constants.map String.ofList, indent, indent', by simpa using reading.constants,
      reading.preamble, preamble⟩
    members :=
      ⟨kept, keeps, by rw [reread.members, ← members, map_map]; simp [Function.comp_def, isWhole]⟩
    nested := reread.nested }

/-- An enumeration with a comment in its header, an import of its own package, and members in
another order than that of output. -/
def lampSource : String :=
  "package p;\nimport p.Other;\nimport java.util.*;\nenum Lamp /* lit */ \x7b\n  LOW, HIGH;\n  " ++
    "int b() \x7b return 1; \x7d\n  int a;\n\x7d\n"

/-- An enumeration with a comment in its header and members in another order is read again. -/
theorem lampSource_read_again :
    ∃ decl, (CompilationUnit.ofSource "Lamp.java" lampSource).types = [decl] ∧
      opensAfter decl.header.toList = true ∧
      (Tree.ofSource (OutputFile.whole (.ofSource "Lamp.java" lampSource)
        decl).render.toList).hasError = false ∧
      ∃ type, IsReadAgain (.ofSource "Lamp.java" lampSource) decl
        (.ofSource "out/Lamp.java"
          (OutputFile.whole (.ofSource "Lamp.java" lampSource) decl).render) type := by
  -- evaluated together, so that the source is read once
  obtain ⟨lexical, sound, single, headers, noComment, noComments⟩ :
      Token.isLexical lampSource.toList = true ∧
        (Tree.ofSource lampSource.toList).hasError = false ∧
        (CompilationUnit.ofSource "Lamp.java" lampSource).types.length = 1 ∧
        (∀ decl ∈ (CompilationUnit.ofSource "Lamp.java" lampSource).types,
          opensAfter decl.header.toList = true) ∧
        (∀ name ∈ (CompilationUnit.ofSource "Lamp.java" lampSource).package, '/' ∉ name.toList) ∧
        ∀ line ∈ (CompilationUnit.ofSource "Lamp.java" lampSource).imports,
          '/' ∉ line.name.toList := by
    decide +kernel
  obtain ⟨decl, one⟩ := length_eq_one_iff.mp single
  have opens : opensAfter decl.header.toList = true := headers decl (one ▸ mem_cons_self)
  exact ⟨decl, one, opens, reading_undoes_writing lexical sound one noComment noComments opens
    "out/Lamp.java"⟩

end Again

end JavaSlice.Slice
