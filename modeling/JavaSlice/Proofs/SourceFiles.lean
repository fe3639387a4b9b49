import JavaSlice.Project
import JavaSlice.Proofs.Sorting
import JavaSlice.Proofs.Storage
import Mathlib.Data.List.Induction

/-!
# The source files that are found

A walk from a source directory is meant to find the source files below it, except where a directory
on the way is hidden or has an excluded name (`Project.Intended`). It looks at more names than that.
A file is passed over if its own name is excluded, and nothing is found at all if the source
directory itself has an excluded name.

Nothing else is passed over, and nothing else is found. The files are found once each and in the
order of their paths, and each is read where it was found (`index_unless_named`). This takes a tree
of files that is well-formed: everything in it is in a directory, and there is one thing at a place.
-/

namespace JavaSlice

open List Option Storage

/-! ## Well-formed trees -/

/-- Whether a text can be the name of a file or a directory. -/
def Path.isName (name : String) : Bool :=
  !isStill name && name != ".." && !name.toList.contains '/'

namespace Storage.Tree

/-- There is one thing at a place, under a name and in a directory. -/
structure WellFormed (tree : Tree) : Prop where
  once : (tree.items.map (·.1)).Nodup
  named : ∀ entry ∈ tree.items, entry.1 ≠ [] ∧ ∀ name ∈ entry.1, Path.isName name = true
  inside : ∀ entry ∈ tree.items, tree.isDirectory entry.1.dropLast = true

variable {tree : Tree}

theorem mem_items_of_find? {place : Place} (below : place ≠ [])
    (found : tree.find? place = some item) : (place, item) ∈ tree.items := by
  rw [find?, if_neg (by simpa using below)] at found
  obtain ⟨before, after, split, -⟩ := lookup_eq_some_iff.mp found
  rw [split]
  exact mem_append_right _ mem_cons_self

namespace WellFormed

variable {place : Place} {item : Item}

section

variable (wellFormed : tree.WellFormed)
include wellFormed

theorem find?_of_mem (listed : (place, item) ∈ tree.items) : tree.find? place = some item := by
  have below : place ≠ [] := (wellFormed.named _ listed).1
  rw [find?, if_neg (by simpa using below), lookup_eq_some_iff]
  obtain ⟨before, after, split⟩ := append_of_mem listed
  refine ⟨before, after, split, fun entry earlier => ?_⟩
  have once := wellFormed.once
  rw [split, map_append, map_cons, nodup_append] at once
  have apart := once.2.2 entry.1 (List.mem_map_of_mem earlier) place mem_cons_self
  simpa using Ne.symm apart

/-- What something is in is a directory. -/
theorem isDirectory_of_append (found : tree.find? (place ++ rest) = some item)
    (proper : rest ≠ []) : tree.isDirectory place := by
  induction rest using reverseRecOn generalizing item with
  | nil => exact absurd rfl proper
  | append_singleton front name ih =>
    have listed := mem_items_of_find? (by simp) found
    have inside := wellFormed.inside _ listed
    rw [← append_assoc, dropLast_concat] at inside
    by_cases top : front = []
    · rwa [top, append_nil] at inside
    · exact ih (by simpa [isDirectory] using inside) top

theorem isName_of_find? (found : tree.find? place = some item)
    (within : name ∈ place) : Path.isName name :=
  (wellFormed.named _ (mem_items_of_find? (ne_nil_of_mem within) found)).2 name within

/-- From any place, names lead to what is there. -/
theorem foldlM_step? (names : List String) (found : tree.find? (place ++ names) = some item) :
    names.foldlM tree.step? place = some (place ++ names) := by
  induction names generalizing place with
  | nil => simp
  | cons name rest ih =>
    have around := wellFormed.isDirectory_of_append found (cons_ne_nil _ _)
    have isName : Path.isName name = true :=
      wellFormed.isName_of_find? found (mem_append_right _ mem_cons_self)
    have stepped : tree.step? place name = some (place ++ [name]) := by
      simp only [Path.isName, Bool.and_eq_true, Bool.not_eq_true', bne_iff_ne] at isName
      rw [step?_eq, if_pos around, Path.step, if_neg (by simp [isName.1.1]),
        if_neg (by simp [isName.1.2])]
    rw [append_cons] at found
    rw [foldlM_cons, stepped, append_cons place name rest]
    exact ih found

end

end WellFormed

/-- What is below a place. -/
theorem mem_under :
    (place, item) ∈ tree.under base ↔ place ≠ [] ∧ (base ++ place, item) ∈ tree.items := by
  simp only [under, mem_filterMap, Prod.exists]
  constructor
  · rintro ⟨found, _, listed, kept⟩
    split at kept
    next name rest below =>
      cases kept
      rw [isPrefixOf?_eq_some_iff_append_eq.mp below]
      exact ⟨cons_ne_nil _ _, listed⟩
    next _ => cases kept
  · rintro ⟨proper, listed⟩
    obtain ⟨name, rest, rfl⟩ := exists_cons_of_ne_nil proper
    have below : base.isPrefixOf? (base ++ name :: rest) = some (name :: rest) :=
      isPrefixOf?_eq_some_iff_append_eq.mpr rfl
    exact ⟨_, item, listed, by rw [below]⟩

theorem under_pairwise (once : (tree.items.map (·.1)).Nodup) (base : Place) :
    (tree.under base).Pairwise fun first second => first.1 ≠ second.1 := by
  refine (pairwise_map.mp once).filterMap _ fun one other apart first isFirst second isSecond => ?_
  dsimp only at isFirst isSecond
  split at isFirst
  next _ _ below =>
    split at isSecond
    next _ _ belowToo =>
      cases isFirst
      cases isSecond
      rw [← isPrefixOf?_eq_some_iff_append_eq.mp below,
        ← isPrefixOf?_eq_some_iff_append_eq.mp belowToo] at apart
      exact fun same => apart (congrArg (base ++ ·) same)
    next _ => cases isSecond
  next _ => cases isFirst

end Storage.Tree

/-! ## Paths to what is below a directory -/

namespace Path

variable {root path : String}

theorem not_mem_of_isName (named : isName name) : '/' ∉ name.toList := by
  simp only [isName, Bool.and_eq_true, Bool.not_eq_true', contains_eq_mem, decide_eq_false_iff_not]
    at named
  exact named.2

theorem components_intercalate {place : Place} (below : place ≠ [])
    (named : ∀ name ∈ place, isName name) : components ("/".intercalate place) = place := by
  have parts : Dotted.splitAt '/' ("/".intercalate place).toList = place.map String.toList := by
    rw [String.toList_intercalate, Dotted.splitAt_eq]
    refine splitOn_intercalate _ (fun part isPart => ?_) (by simpa using below)
    obtain ⟨name, within, rfl⟩ := List.mem_map.mp isPart
    exact not_mem_of_isName (named name within)
  rw [components, parts, List.map_map]
  exact (map_congr_left fun name _ => String.ofList_toList).trans (List.map_id place)

/-- The components after a directory, whose path may end in a slash. -/
theorem components_join (proper : root.isEmpty = false) (relative : isAbsolute path = false) :
    components (join root path) = components root ++ components path ∨
      ∃ front, components root = front ++ [""] ∧
        components (join root path) = front ++ components path := by
  rw [join, relative, proper]
  by_cases slash : root.toList.getLast? = some '/'
  · obtain ⟨front, ends⟩ := getLast?_eq_some_iff.mp slash
    refine .inr ⟨(Dotted.splitAt '/' front).map String.ofList, ?_, ?_⟩
    · rw [components, ends, Dotted.splitAt_append, map_append]
      rfl
    · simp [components, ends, Dotted.splitAt_append]
  · refine .inl ?_
    simp [slash, components, Dotted.splitAt_append]

theorem isAbsolute_intercalate {place : Place} (below : place ≠ [])
    (named : ∀ name ∈ place, isName name) : isAbsolute ("/".intercalate place) = false := by
  rw [← Bool.not_eq_true]
  intro absolute
  rw [isAbsolute, beq_iff_eq, head?_eq_some_iff] at absolute
  obtain ⟨rest, starts⟩ := absolute
  -- an absolute path has a first component without text
  have empty : "" ∈ components ("/".intercalate place) := by
    rw [components, starts, ← nil_append ('/' :: rest), Dotted.splitAt_append]
    exact mem_cons_self
  rw [components_intercalate below named] at empty
  exact absurd (named "" empty) (by decide)

theorem isEmpty_join (proper : root.isEmpty = false) (relative : isAbsolute path = false) :
    (join root path).isEmpty = false := by
  rw [join, relative, proper]
  by_cases slash : root.toList.getLast? = some '/' <;> simp_all

end Path

namespace Storage.Tree.WellFormed

variable {tree : Tree}

/-- The path of a directory and the names from there on lead to what is there. -/
theorem place?_join (wellFormed : tree.WellFormed) {base place : Place}
    (leads : tree.place? root = some base) (below : place ≠ [])
    (found : tree.find? (base ++ place) = some item) :
    tree.place? (Path.join root ("/".intercalate place)) = some (base ++ place) := by
  have named : ∀ name ∈ place, Path.isName name = true := fun name within =>
    wellFormed.isName_of_find? found (mem_append_right _ within)
  have onward := wellFormed.foldlM_step? place found
  rw [place?, ite_none_left_eq_some, Bool.not_eq_true] at leads
  obtain ⟨proper, arrives⟩ := leads
  have relative := Path.isAbsolute_intercalate below named
  rw [place?, if_neg (by simp [Path.isEmpty_join proper relative])]
  rcases Path.components_join proper relative with joined | ⟨front, ends, joined⟩
  · rw [joined, Path.components_intercalate below named, foldlM_append, arrives]
    exact onward
  · rw [ends, foldlM_append] at arrives
    obtain ⟨stop, toFront, stays⟩ := bind_eq_some_iff.mp arrives
    obtain rfl : stop = base := by
      rw [foldlM_cons, step?_eq] at stays
      obtain ⟨next, stepped, same⟩ := bind_eq_some_iff.mp stays
      exact (some.inj (ite_none_right_eq_some.mp stepped).2).trans
        (some.inj same)
    rw [joined, Path.components_intercalate below named, foldlM_append, toFront]
    exact onward

end Storage.Tree.WellFormed

namespace Project

variable {excluded : List String} {place : Place}
variable {name : String} {depth : Nat} {content : Content} {α β : Type}

/-! ## Which files are found -/

/-- The own name of the source directory. -/
def ownName (root : String) : String :=
  (Path.fileName? root).getD root

/-- A source file below the place `base` that is to be found: no directory on the way to it, from
`base` on, is hidden or has an excluded name. -/
structure Intended (tree : Tree) (base : Place) (excluded : List String) (place : Place) :
    Prop where
  isFile : ∃ content, tree.find? (base ++ place) = some (.file content)
  isJava : ∃ stem, stem ≠ "" ∧ place.getLast? = some (stem ++ ".java")
  isOpen : ∀ name ∈ place.dropLast, name.toList.head? ≠ some '.' ∧ name ∉ alwaysExcluded ++ excluded

theorem isSource_iff : isSource name ↔ ∃ stem, stem ≠ "" ∧ name = stem ++ ".java" := by
  rw [isSource, beq_iff_eq, Path.extension?]
  constructor
  · intro found
    have whole := takeWhile_append_dropWhile (p := (· != '.')) (l := name.toList.reverse)
    have dot := head?_dropWhile_not (· != '.') name.toList.reverse
    split at found
    next first second rest cut =>
      rw [cut] at whole dot
      obtain rfl : first = '.' := by simpa using dot
      have ending := congrArg String.toList (some.inj found)
      rw [String.toList_ofList, reverse_eq_iff] at ending
      refine ⟨String.ofList (second :: rest).reverse, by simp, String.toList_inj.mp ?_⟩
      rw [← reverse_reverse name.toList, ← whole, ending]
      simp
    next _ => cases found
  · rintro ⟨stem, proper, rfl⟩
    have reversed : (stem ++ ".java").toList.reverse = ['a', 'v', 'a', 'j'] ++ '.' ::
        stem.toList.reverse := by
      rw [String.toList_append, reverse_append]
      rfl
    obtain ⟨first, rest, start⟩ :=
      exists_cons_of_ne_nil (l := stem.toList.reverse) (by simpa using proper)
    rw [reversed, start]
    rfl

theorem visits_eq_true_iff :
    visits excluded depth isDirectory name ↔
      (0 < depth → isDirectory → name.toList.head? ≠ some '.') ∧
        name ∉ alwaysExcluded ++ excluded := by
  simp only [visits, Bool.and_eq_true, Bool.not_eq_true', Bool.and_eq_false_iff,
    decide_eq_false_iff_not, beq_eq_false_iff_ne, contains_eq_mem]
  grind

/-- A walk gets to a file if the directories on the way are open and its own name is not
excluded. -/
theorem reaches_iff (deep : 0 < depth) (below : place ≠ []) :
    Tree.reaches (visits excluded) false depth place ↔
      (∀ name ∈ place.dropLast, name.toList.head? ≠ some '.' ∧ name ∉ alwaysExcluded ++ excluded) ∧
        ∀ own, place.getLast? = some own → own ∉ alwaysExcluded ++ excluded := by
  fun_induction Tree.reaches (visits excluded) false depth place with
  | case1 => exact absurd rfl below
  | case2 depth name =>
    rw [visits_eq_true_iff]
    simp
  | case3 depth name rest further ih =>
    have onward : rest ≠ [] := further
    obtain ⟨next, after, rfl⟩ := exists_cons_of_ne_nil onward
    rw [Bool.and_eq_true, visits_eq_true_iff, ih (Nat.succ_pos _) onward,
      dropLast_cons_of_ne_nil onward, forall_mem_cons, getLast?_cons_cons]
    simp only [deep, true_implies, and_assoc]

variable {tree : Tree} {root : String} {base : Place}

/-- The files below a directory that a walk gets to. -/
def reached (tree : Tree) (base : Place) (excluded : List String) : List Place :=
  (tree.under base).filterMap fun (found, item) =>
    if item != .directory && Tree.reaches (visits excluded) false 1 found then some found else none

/-- The files that a walk from a directory visits: none if the directory itself has an excluded
name. -/
def visited (tree : Tree) (root : String) (base : Place) (excluded : List String) : List Place :=
  if ownName root ∈ alwaysExcluded ++ excluded then [] else reached tree base excluded

theorem walk?_eq (leads : tree.place? root = some base) (isDirectory : tree.isDirectory base)
    (excluded : List String) :
    tree.walk? root (visits excluded) = some (visited tree root base excluded) := by
  have here : tree.find? base = some .directory := by simpa [Tree.isDirectory] using isDirectory
  have entered : visits excluded 0 true (ownName root) = true ↔
      ownName root ∉ alwaysExcluded ++ excluded := by
    simp [visits_eq_true_iff]
  rw [Tree.walk?, leads, Option.bind_eq_bind, bind_some, here, Option.bind_eq_bind,
    bind_some, visited]
  by_cases passed : ownName root ∈ alwaysExcluded ++ excluded
  · rw [if_pos passed]
    exact if_pos (by rw [Bool.not_eq_true', ← Bool.not_eq_true]; exact
      fun visit => entered.mp visit passed)
  · rw [if_neg passed]
    exact if_neg (by rw [Bool.not_eq_true', Bool.not_eq_false]; exact entered.mpr passed)

/-- There is no file where the directory itself is. -/
theorem ne_nil_of_isFile (isDirectory : tree.isDirectory base)
    (isFile : tree.find? (base ++ place) = some (.file content)) : place ≠ [] := by
  rintro rfl
  rw [append_nil] at isFile
  simp [Tree.isDirectory, isFile] at isDirectory

theorem mem_reached (wellFormed : tree.WellFormed) (isDirectory : tree.isDirectory base) :
    place ∈ reached tree base excluded ↔
      (∃ content, tree.find? (base ++ place) = some (.file content)) ∧
        (∀ name ∈ place.dropLast, name.toList.head? ≠ some '.' ∧
          name ∉ alwaysExcluded ++ excluded) ∧
        ∀ own, place.getLast? = some own → own ∉ alwaysExcluded ++ excluded := by
  simp only [reached, mem_filterMap, Prod.exists, ite_none_right_eq_some, Bool.and_eq_true,
    bne_iff_ne, Tree.mem_under, some.injEq]
  constructor
  · rintro ⟨_, item, ⟨below, listed⟩, ⟨notDirectory, within⟩, rfl⟩
    refine ⟨?_, (reaches_iff Nat.one_pos below).mp within⟩
    cases item with
    | directory => exact absurd rfl notDirectory
    | file content => exact ⟨content, wellFormed.find?_of_mem listed⟩
  · rintro ⟨⟨content, isFile⟩, within⟩
    have below := ne_nil_of_isFile isDirectory isFile
    have listed := Tree.mem_items_of_find? (by simp [below]) isFile
    exact ⟨place, _, ⟨below, listed⟩,
      ⟨Item.noConfusion, (reaches_iff Nat.one_pos below).mpr within⟩, rfl⟩

theorem visited_nodup (wellFormed : tree.WellFormed) (root : String) (base : Place)
    (excluded : List String) : (visited tree root base excluded).Nodup := by
  rw [visited]
  split
  next _ => exact nodup_nil
  next _ =>
    refine (Tree.under_pairwise wellFormed.once base).filterMap _ ?_
    intro one other apart first isFirst second isSecond
    rw [ite_none_right_eq_some, some.injEq] at isFirst isSecond
    rwa [← isFirst.2, ← isSecond.2]

theorem mem_sourcePlaces (wellFormed : tree.WellFormed) (isDirectory : tree.isDirectory base) :
    place ∈ sourcePlaces root (visited tree root base excluded) ↔
      Intended tree base excluded place ∧ ownName root ∉ alwaysExcluded ++ excluded ∧
        ∀ own, place.getLast? = some own → own ∉ alwaysExcluded ++ excluded := by
  rw [sourcePlaces, mem_mergeSort, mem_filter, visited]
  by_cases passed : ownName root ∈ alwaysExcluded ++ excluded
  · rw [if_pos passed]
    exact iff_of_false (fun within => not_mem_nil within.1) fun found => found.2.1 passed
  · rw [if_neg passed, mem_reached wellFormed isDirectory]
    constructor
    · rintro ⟨⟨⟨content, isFile⟩, isOpen, notNamed⟩, source⟩
      obtain ⟨own, last⟩ := ne_none_iff_exists'.mp fun none =>
        ne_nil_of_isFile isDirectory isFile (getLast?_eq_none_iff.mp none)
      rw [last, getD_some, isSource_iff] at source
      obtain ⟨stem, proper, rfl⟩ := source
      exact ⟨⟨⟨content, isFile⟩, ⟨stem, proper, last⟩, isOpen⟩, passed, notNamed⟩
    · rintro ⟨⟨isFile, ⟨stem, proper, last⟩, isOpen⟩, -, notNamed⟩
      refine ⟨⟨isFile, isOpen, notNamed⟩, ?_⟩
      rw [last, getD_some, isSource_iff]
      exact ⟨stem, proper, rfl⟩

/-! ## Reading -/

/-- The path and the text of the file at a place below `base`, if a text is there. -/
def source? (tree : Tree) (base place : Place) : Option (String × String) := do
  let content ← tree.content? (base ++ place)
  let text ← content.text?
  some ("/".intercalate place, text)

theorem run_bind_of_reads {action : OptionT (StateM Tree) α} {found : Option α}
    (reads : action.run.run tree = (found, tree)) (next : α → OptionT (StateM Tree) β) :
    (action >>= next).run.run tree = found.elim (none, tree) fun value =>
      (next value).run.run tree := by
  rw [OptionT.run_bind, Option.elimM, StateT.run_bind, reads]
  cases found <;> rfl

/-- Reading one after the other is done in a single tree. -/
theorem run_mapM {action : α → OptionT (StateM Tree) β} {result : α → Option β} {items : List α}
    (each : ∀ item ∈ items, (action item).run.run tree = (result item, tree)) :
    (items.mapM action).run.run tree = (items.mapM result, tree) := by
  induction items with
  | nil => rfl
  | cons item rest ih =>
    rw [forall_mem_cons] at each
    rw [mapM_cons, mapM_cons, run_bind_of_reads each.1]
    cases result item with
    | none => rfl
    | some value =>
      rw [elim_some, run_bind_of_reads (ih each.2)]
      cases rest.mapM result <;> rfl

/-- A source is read where it was found. -/
theorem readText?_join (wellFormed : tree.WellFormed) (leads : tree.place? root = some base)
    (below : place ≠ []) (isFile : tree.find? (base ++ place) = some (.file content)) :
    (tree.readText? (Path.join root ("/".intercalate place))).bind
      (fun text => some ("/".intercalate place, text)) = source? tree base place := by
  rw [Tree.readText?, wellFormed.place?_join leads below isFile, source?]
  exact (Option.bind_assoc (tree.content? (base ++ place)) Content.text? _)

theorem units_of_mapM {places : List Place} {files : List (String × String)}
    (read : places.mapM (source? tree base) = some files) :
    (Index.ofSources files).units.map (·.path) = places.map "/".intercalate := by
  have paths : files.map (·.1) = places.map "/".intercalate := by
    induction places generalizing files with
    | nil =>
      cases read
      rfl
    | cons place rest ih =>
      rw [mapM_cons] at read
      obtain ⟨file, found, further⟩ := bind_eq_some_iff.mp read
      obtain ⟨others, readRest, same⟩ := bind_eq_some_iff.mp further
      cases same
      obtain ⟨content, -, text⟩ := bind_eq_some_iff.mp found
      obtain ⟨_, -, same⟩ := bind_eq_some_iff.mp text
      cases same
      rw [map_cons, map_cons, ih readRest]
  rw [← paths, Index.ofSources, Index.ofUnits, List.map_map]
  rfl

theorem run_sources (wellFormed : tree.WellFormed) (leads : tree.place? root = some base)
    (isDirectory : tree.isDirectory base) (excluded : List String) :
    (sources Access.ofTree root excluded).run.run tree =
      ((sourcePlaces root (visited tree root base excluded)).mapM (source? tree base), tree) := by
  have visit : (OptionT.mk (Access.ofTree.walk root (visits excluded))).run.run tree =
      (some (visited tree root base excluded), tree) := by
    rw [← walk?_eq leads isDirectory]
    rfl
  rw [sources, run_bind_of_reads visit, elim_some]
  refine run_mapM fun place isPlace => ?_
  obtain ⟨content, isFile⟩ := ((mem_sourcePlaces wellFormed isDirectory).mp isPlace).1.isFile
  have read : (OptionT.mk (Access.ofTree.readText (Path.join root ("/".intercalate place)))).run.run
      tree = (tree.readText? (Path.join root ("/".intercalate place)), tree) := rfl
  rw [run_bind_of_reads read, ← readText?_join wellFormed leads
    (ne_nil_of_isFile isDirectory isFile) isFile]
  cases tree.readText? (Path.join root ("/".intercalate place)) <;> rfl

theorem run_index (wellFormed : tree.WellFormed) (leads : tree.place? root = some base)
    (isDirectory : tree.isDirectory base) (excluded : List String) :
    (index Access.ofTree root excluded).run.run tree =
      (((sourcePlaces root (visited tree root base excluded)).mapM (source? tree base)).map
        Index.ofSources, tree) := by
  rw [index, run_bind_of_reads (run_sources wellFormed leads isDirectory excluded)]
  cases (sourcePlaces root (visited tree root base excluded)).mapM (source? tree base) <;> rfl

/-- The sources below a directory are read once each, in the order of their paths. A file is left
out if its own name is excluded, and all files are if the own name of the directory is. -/
theorem index_unless_named (wellFormed : tree.WellFormed) (leads : tree.place? root = some base)
    (isDirectory : tree.isDirectory base = true) (excluded : List String) :
    ∃ places : List Place,
      places.Pairwise (fun first second => List.compareLex Ord.compare first second = .lt) ∧
      (∀ place, place ∈ places ↔
        Intended tree base excluded place ∧ ownName root ∉ alwaysExcluded ++ excluded ∧
          ∀ own, place.getLast? = some own → own ∉ alwaysExcluded ++ excluded) ∧
      (index Access.ofTree root excluded).run.run tree =
        ((places.mapM (source? tree base)).map Index.ofSources, tree) ∧
      ∀ found, ((index Access.ofTree root excluded).run.run tree).1 = some found →
        found.units.map (·.path) = places.map "/".intercalate := by
  have sorted : (sourcePlaces root (visited tree root base excluded)).Pairwise fun first second =>
      List.compareLex Ord.compare first second = .lt :=
    pairwise_lt_mergeSort (List.compareLex Ord.compare)
      ((visited_nodup wellFormed root base excluded).filter _)
  have indexed := run_index wellFormed leads isDirectory excluded
  refine ⟨_, sorted, fun place => mem_sourcePlaces wellFormed isDirectory, indexed,
    fun found isFound => ?_⟩
  rw [indexed] at isFound
  obtain ⟨files, read, rfl⟩ := map_eq_some_iff.mp isFound
  exact units_of_mapM read

/-- A tree with a source directory in which one source is open, one is in a hidden directory, one is
in an excluded directory and one has an excluded name. -/
def sampleTree : Tree :=
  ⟨[(["src"], .directory), (["src", "p"], .directory),
    (["src", "p", "Main.java"], .file (.text "class Main {}")),
    (["src", ".old"], .directory), (["src", ".old", "Main.java"], .file (.text "class Main {}")),
    (["src", "out"], .directory), (["src", "out", "Main.java"], .file (.text "class Main {}")),
    (["src", "p", "Part.java"], .file (.text "class Part {}"))]⟩

theorem sampleTree_wellFormed : sampleTree.WellFormed :=
  ⟨by decide, by decide, by decide⟩

/-- A tree in which one file is excluded by its name. -/
theorem sampleTree_indexed :
    sampleTree.WellFormed ∧ sampleTree.place? "src/" = some ["src"] ∧
      sampleTree.isDirectory ["src"] = true ∧
    ∃ places : List Place,
      places.Pairwise (fun first second => List.compareLex Ord.compare first second = .lt) ∧
      (∀ place, place ∈ places ↔
        Intended sampleTree ["src"] ["Part.java"] place ∧
          ownName "src/" ∉ alwaysExcluded ++ ["Part.java"] ∧
          ∀ own, place.getLast? = some own → own ∉ alwaysExcluded ++ ["Part.java"]) ∧
      (index Access.ofTree "src/" ["Part.java"]).run.run sampleTree =
        ((places.mapM (source? sampleTree ["src"])).map Index.ofSources, sampleTree) ∧
      ∀ found, ((index Access.ofTree "src/" ["Part.java"]).run.run sampleTree).1 = some found →
        found.units.map (·.path) = places.map "/".intercalate :=
  ⟨sampleTree_wellFormed, by decide, by decide,
    index_unless_named sampleTree_wellFormed (by decide) (by decide) ["Part.java"]⟩

/-- A tree whose source directory has a name that is always excluded. -/
def buildTree : Tree :=
  ⟨[(["build"], .directory), (["build", "Main.java"], .file (.text "class Main {}"))]⟩

/-- The own name of a source directory excludes everything in it, and the own name of a file
excludes the file. -/
theorem own_names_exclude :
    Intended buildTree ["build"] [] ["Main.java"] ∧
    ((index Access.ofTree "build" []).run.run buildTree).1.map (·.units.map (·.path)) = some [] ∧
    Intended sampleTree ["src"] ["Part.java"] ["p", "Part.java"] ∧
    ((index Access.ofTree "src" ["Part.java"]).run.run sampleTree).1.map (·.units.map (·.path)) =
      some ["p/Main.java"] := by
  have buildTree_wellFormed : buildTree.WellFormed := ⟨by decide, by decide, by decide⟩
  have none : sourcePlaces "build" (visited buildTree "build" ["build"] []) = [] := mergeSort_nil
  have one : sourcePlaces "src" (visited sampleTree "src" ["src"] ["Part.java"]) =
      [["p", "Main.java"]] :=
    mergeSort_singleton _
  refine ⟨⟨⟨_, rfl⟩, ⟨"Main", by decide, by decide⟩, by decide⟩, ?_,
    ⟨⟨_, rfl⟩, ⟨"Part", by decide, by decide⟩, by decide⟩, ?_⟩
  · rw [@run_index buildTree "build" ["build"] buildTree_wellFormed (by decide) (by decide), none]
    rfl
  · rw [@run_index sampleTree "src" ["src"] sampleTree_wellFormed (by decide) (by decide), one]
    rfl

end Project

end JavaSlice
