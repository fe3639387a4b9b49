import JavaSlice.Proofs.Names
import JavaSlice.Storage.Access

/-!
# What becomes of a tree

A path leads to the same place in all trees in which it leads to one (`place?_eq_some_iff`), so that
the places that a change can reach are known before it is made. No change of a tree takes anything
away. A place stays as it is, or a file is written there, or it was free and is a directory now
(`Grows`). Directories are made on the way along a path only, and a change that fails leaves nothing
but such directories.
-/

namespace JavaSlice

open List Option

/-! ## Places of paths -/

namespace Path

/-- One step from a place, whatever is there. -/
def step (place : Storage.Place) (component : String) : Storage.Place :=
  if isStill component then place
  else if component == ".." then place.dropLast
  else place ++ [component]

/-- The place that a path leads to, if it leads to one. -/
def target (path : String) : Storage.Place :=
  (components path).foldl step []

/-- The places that a path comes through, from the root on. -/
def way (path : String) : List Storage.Place :=
  (components path).scanl step []

theorem trimReversed_suffix (cs : List Char) : trimReversed cs <:+ cs := by
  fun_induction trimReversed cs with
  | case1 c rest ih => exact ih.trans (suffix_cons _ _)
  | case2 => exact suffix_cons _ _
  | case3 rest _ ih => exact ih.trans (suffix_cons _ _)
  | case4 => exact suffix_rfl

/-- The end of a path is trimmed up to a slash, unless nothing but the root is left. -/
theorem trimReversed_slash (cs : List Char) :
    trimReversed ('/' :: cs) = ['/'] ∨ '/' :: trimReversed ('/' :: cs) <:+ '/' :: cs := by
  fun_cases trimReversed cs with
  | case1 c rest =>
    rw [trimReversed]
    exact (trimReversed_slash (c :: rest)).imp_right fun cut => cut.trans (suffix_cons _ _)
  | case2 => exact .inl rfl
  | case3 rest further =>
    rw [trimReversed, trimReversed]
    · exact (trimReversed_slash rest).imp_right fun cut => cut.trans ⟨['/', '.'], rfl⟩
    · exact further
  | case4 notSlash notRoot notDot =>
    cases cs with
    | nil => exact .inl rfl
    | cons c rest =>
      rw [trimReversed, trimReversed]
      · exact .inr suffix_rfl
      all_goals assumption

theorem mem_scanl_self (components : List String) (place : Storage.Place) :
    place ∈ components.scanl step place := by
  cases components <;> simp

/-- A path without steps stays at the root, where every path begins. -/
theorem way_subset_of_still (stays : ∀ component ∈ components still, isStill component)
    (path : String) : way still ⊆ way path := by
  have atRoot : ∀ passed : List String, (∀ component ∈ passed, isStill component = true) →
      ∀ place ∈ passed.scanl step [], place = [] := by
    intro passed
    induction passed with
    | nil => simp
    | cons component rest ih =>
      intro stays
      rw [forall_mem_cons] at stays
      rw [scanl_cons, forall_mem_cons, step, if_pos stays.1]
      exact ⟨rfl, ih stays.2⟩
  intro place onWay
  rw [atRoot _ stays place onWay]
  exact mem_scanl_self _ []

/-- A path comes through all places on the way to the directory that it is in. -/
theorem way_parent?_subset (isIn : parent? path = some parent) : way parent ⊆ way path := by
  rw [parent?] at isIn
  dsimp only at isIn
  split at isIn
  next _ => cases isIn
  next _ =>
    obtain rfl := some.inj isIn
    have suffix := (dropWhile_suffix (· != '/')).trans (trimReversed_suffix path.toList.reverse)
    have slash := head?_dropWhile_not (· != '/') (trimReversed path.toList.reverse)
    generalize (trimReversed path.toList.reverse).dropWhile (· != '/') = before at suffix slash
    cases before with
    | nil => exact @way_subset_of_still "" (by decide) path
    | cons c cs =>
      obtain rfl : c = '/' := by simpa using slash
      rcases trimReversed_slash cs with root | cut
      · rw [root]
        exact @way_subset_of_still "/" (by decide) path
      · -- the text is cut off at a slash, so the path begins with the components of its parent
        obtain ⟨dropped, whole⟩ := cut.trans suffix
        have split : path.toList = (trimReversed ('/' :: cs)).reverse ++ '/' ::
            dropped.reverse := by
          rw [← reverse_reverse path.toList, ← whole, reverse_append, reverse_cons, append_assoc]
          rfl
        rw [way, way, components, components, split, Dotted.splitAt_append, map_append,
          scanl_append, String.toList_ofList]
        exact subset_append_left _ _

end Path

namespace Storage.Tree

variable {tree : Tree} {path : String} {place : Place}
variable {next : Tree} {there : Place} {component : String} {components : List String}

theorem step?_eq (tree : Tree) (place : Place) (component : String) :
    tree.step? place component = if tree.isDirectory place then some (Path.step place component)
      else none := by
  unfold step? Path.step
  cases tree.isDirectory place with
  | false => rfl
  | true => grind

/-- A path leads to its target if every place on the way there is a directory. -/
theorem place?_eq_some_iff : tree.place? path = some place ↔ path.isEmpty = false ∧
    place = Path.target path ∧ ∀ passed ∈ (Path.way path).dropLast,
      tree.isDirectory passed := by
  have along : ∀ (components : List String) (start : Place),
      components.foldlM tree.step? start = some place ↔ place = components.foldl Path.step start ∧
        ∀ passed ∈ (components.scanl Path.step start).dropLast, tree.isDirectory passed = true := by
    intro components
    induction components with
    | nil =>
      intro start
      rw [foldlM_nil, foldl_nil, scanl_nil, eq_comm]
      simp
    | cons component rest ih =>
      intro start
      rw [foldlM_cons, step?_eq, scanl_cons, dropLast_cons_of_ne_nil scanl_ne_nil,
        forall_mem_cons, foldl_cons]
      split
      next directory => simp [ih, directory]
      next outside => simp [outside]
  rw [place?]
  split
  next empty => simp [empty]
  next proper => simp [proper, along, Path.target, Path.way]

theorem find?_put (below : place ≠ []) (item : Item) (other : Place) :
    (tree.put place item).find? other = if other = place then some item else tree.find? other := by
  have replaced : ∀ items : List (Place × Item),
      (items.filter (·.1 != place) ++ [(place, item)]).lookup other =
      if other = place then some item else items.lookup other := by
    intro items
    induction items with
    | nil => grind
    | cons entry rest ih => grind
  rw [find?, find?, put, replaced]
  grind

/-! ## Growth -/

/-- What becomes of a place while a tree changes. It stays as it is, or it is one of the `files` and
a file is written there, or it is one of the `ways`, nothing was there, and a directory is made. -/
inductive Fate (files ways : List Place) (before after : Tree) (place : Place) : Prop where
  | stays (same : after.find? place = before.find? place)
  | written (isTarget : place ∈ files) (free : before.isDirectory place = false) (content : Content)
      (isFile : after.find? place = some (.file content))
  | made (onWay : place ∈ ways) (free : before.find? place = none)
      (isDirectory : after.find? place = some .directory)

/-- A tree changes by files that are written and directories that are made, and by nothing else. -/
def Grows (files ways : List Place) (before after : Tree) : Prop :=
  ∀ place, Fate files ways before after place

namespace Grows

variable {files ways moreFiles moreWays : List Place} {before middle after : Tree}

theorem refl (tree : Tree) : Grows files ways tree tree :=
  fun _ => .stays rfl

theorem mono (grows : Grows files ways before after) (subFiles : files ⊆ moreFiles)
    (subWays : ways ⊆ moreWays) : Grows moreFiles moreWays before after := by
  intro place
  cases grows place with
  | stays same => exact .stays same
  | written isTarget free content isFile => exact .written (subFiles isTarget) free content isFile
  | made onWay free isDirectory => exact .made (subWays onWay) free isDirectory

theorem addFiles (grows : Grows [] ways before after) : Grows files ways before after :=
  grows.mono (nil_subset _) (Subset.refl _)

theorem addWays (grows : Grows files [] before after) : Grows files ways before after :=
  grows.mono (Subset.refl _) (nil_subset _)

/-- A directory stays one, and a place with a file is never made a directory. -/
theorem trans (first : Grows files ways before middle) (second : Grows files ways middle after) :
    Grows files ways before after := by
  intro place
  cases first place with
  | stays same =>
    cases second place with
    | stays sameAgain => exact .stays (sameAgain.trans same)
    | written isTarget free content isFile =>
      rw [isDirectory, same] at free
      exact .written isTarget free content isFile
    | made onWay free isDirectory => exact .made onWay (same ▸ free) isDirectory
  | written isTarget free content isFile =>
    cases second place with
    | stays same => exact .written isTarget free content (same.trans isFile)
    | written _ _ content isFile => exact .written isTarget free content isFile
    | made _ nothing _ => rw [isFile] at nothing; cases nothing
  | made onWay free isDirectory =>
    cases second place with
    | stays same => exact .made onWay free (same.trans isDirectory)
    | written _ notDirectory _ _ => simp [Tree.isDirectory, isDirectory] at notDirectory
    | made _ nothing _ => rw [isDirectory] at nothing; cases nothing

variable {place : Place}

section

variable (grows : Grows files ways before after)
include grows

/-- A directory stays one. -/
theorem isDirectory (directory : before.isDirectory place) : after.isDirectory place := by
  rw [Tree.isDirectory, beq_iff_eq] at *
  cases grows place with
  | stays same => rw [same, directory]
  | written _ free => simp [Tree.isDirectory, directory] at free
  | made _ _ isDirectory => exact isDirectory

/-- A place is a directory afterwards if it was one or has been made one. -/
theorem isDirectory_or_mem (directory : after.isDirectory place) :
    before.isDirectory place ∨ place ∈ ways ∧ before.find? place = none := by
  rw [Tree.isDirectory, beq_iff_eq] at *
  cases grows place with
  | stays same => exact .inl (same.symm.trans directory)
  | written _ _ _ isFile => simp [isFile] at directory
  | made onWay free => exact .inr ⟨onWay, free⟩

/-- Where there is a directory afterwards, there was no file. -/
theorem content?_of_isDirectory
    (directory : after.isDirectory place) : before.content? place = none := by
  rcases grows.isDirectory_or_mem directory with was | ⟨-, free⟩
  · rw [content?, beq_iff_eq.mp was]
  · rw [content?, free]

/-- No file appears but those that are written. -/
theorem content?_eq_none (apart : place ∉ files)
    (nothing : before.content? place = none) : after.content? place = none := by
  cases grows place with
  | stays same => rw [content?, same, ← content?, nothing]
  | written isTarget => exact absurd isTarget apart
  | made _ _ isDirectory => rw [content?, isDirectory]

/-- A path leads where it led before. -/
theorem place? (leads : before.place? path = some place) : after.place? path = some place := by
  rw [place?_eq_some_iff] at *
  exact ⟨leads.1, leads.2.1, fun passed onWay => grows.isDirectory (leads.2.2 passed onWay)⟩

end

end Grows

theorem grows_put (free : tree.isDirectory place = false)
    (here : ∀ after : Tree, after.find? place = some item → Fate files ways tree after place) :
    Grows files ways tree (tree.put place item) := by
  have below : place ≠ [] := fun atRoot => by
    rw [atRoot] at free
    cases free
  intro other
  by_cases same : other = place
  · subst same
    exact here _ (by rw [find?_put below, if_pos rfl])
  · exact .stays (by rw [find?_put below, if_neg same])

theorem grows_put_directory (free : tree.find? place = none) :
    Grows [] [place] tree (tree.put place .directory) :=
  grows_put (by rw [isDirectory, free]; rfl) fun _ => .made mem_cons_self free

theorem grows_put_file (free : tree.isDirectory place = false) (content : Content) :
    Grows [place] [] tree (tree.put place (.file content)) :=
  grows_put free fun _ => .written mem_cons_self free content

/-! ## Making directories -/

theorem grows_enter? (entered : enter? (tree, place) component = some (next, there)) :
    there = Path.step place component ∧ Grows [] [there] tree next := by
  obtain ⟨stepped, isStep, further⟩ := bind_eq_some_iff.mp entered
  rw [step?_eq] at isStep
  obtain rfl := some.inj (ite_none_right_eq_some.mp isStep).2
  split at further
  next _ =>
    cases further
    exact ⟨rfl, .refl _⟩
  next _ _ => cases further
  next free =>
    cases further
    exact ⟨rfl, grows_put_directory free⟩

/-- Directories are made on the way only, whether the way can be taken to its end or not. -/
theorem grows_enterAll (components : List String) (state : Tree × Place) :
    Grows [] (components.scanl Path.step state.2) state.1 (enterAll components state).2 := by
  induction components generalizing state with
  | nil => exact .refl _
  | cons component rest ih =>
    rw [enterAll, scanl_cons]
    cases entered : enter? state component with
    | none => exact .refl _
    | some next =>
      obtain ⟨there, grows⟩ := grows_enter? entered
      have further := ih next
      rw [there] at grows further
      refine (grows.mono (Subset.refl _) ?_).trans (further.mono (Subset.refl _) ?_)
      · intro place here
        obtain rfl := mem_singleton.mp here
        exact mem_cons_of_mem _ (Path.mem_scanl_self rest _)
      · exact subset_cons_self _ _

theorem grows_createAll (path : String) (tree : Tree) :
    Grows [] (Path.way path) tree (tree.createAll path).2 := by
  rw [createAll]
  split
  next _ => exact .refl _
  next _ =>
    split
    next _ =>
      refine (grows_enterAll _ (tree, [])).mono (Subset.refl _) ?_
      cases isIn : Path.parent? path with
      | none => exact @Path.way_subset_of_still "" (by decide) path
      | some parent => exact Path.way_parent?_subset isIn
    next _ => exact grows_enterAll _ (tree, [])

theorem isDirectory_of_enter? (entered : enter? (tree, place) component = some (next, there)) :
    next.isDirectory there := by
  obtain ⟨stepped, -, further⟩ := bind_eq_some_iff.mp entered
  split at further
  next directory =>
    cases further
    exact beq_iff_eq.mpr directory
  next _ _ => cases further
  next free =>
    cases further
    have below : there ≠ [] := by
      rintro rfl
      cases free
    rw [isDirectory, find?_put below, if_pos rfl]
    rfl

/-- A way that is taken to its end consists of directories. -/
theorem isDirectory_of_enterAll (here : tree.isDirectory place)
    (entered : (enterAll components (tree, place)).1) :
    ∀ passed ∈ components.scanl Path.step place,
      (enterAll components (tree, place)).2.isDirectory passed := by
  induction components generalizing tree place with
  | nil => exact forall_mem_singleton.mpr here
  | cons component rest ih =>
    rw [scanl_cons]
    refine forall_mem_cons.mpr ⟨(grows_enterAll (component :: rest) (tree, place)).isDirectory here,
      ?_⟩
    rw [enterAll] at entered ⊢
    split at entered
    next next isNext =>
      rw [← (grows_enter? isNext).1]
      exact ih (isDirectory_of_enter? isNext) entered
    next _ => cases entered

/-- A way can be taken to its end if there is no file on it. -/
theorem enterAll_of_clear (here : tree.isDirectory place)
    (clear : ∀ passed ∈ components.scanl Path.step place, tree.content? passed = none) :
    (enterAll components (tree, place)).1 := by
  induction components generalizing tree place with
  | nil => rfl
  | cons component rest ih =>
    rw [scanl_cons, forall_mem_cons] at clear
    have next := clear.2 _ (Path.mem_scanl_self rest _)
    have entered : ∃ next, enter? (tree, place) component =
        some (next, Path.step place component) := by
      simp only [enter?, step?_eq, if_pos here, Option.bind_eq_bind, bind_some]
      cases found : tree.find? (Path.step place component) with
      | none => exact ⟨_, rfl⟩
      | some item =>
        cases item with
        | directory => exact ⟨_, rfl⟩
        | file content => simp [content?, found] at next
    obtain ⟨next, isNext⟩ := entered
    rw [enterAll, isNext]
    exact ih (isDirectory_of_enter? isNext) fun passed onWay =>
      (grows_enter? isNext).2.content?_eq_none not_mem_nil (clear.2 passed onWay)

/-- Once a path has been made, the directories are those that were there and those on the way. -/
theorem isDirectory_createAll_iff (made : (tree.createAll path).1) (place : Place) :
    (tree.createAll path).2.isDirectory place ↔
      tree.isDirectory place ∨ place ∈ Path.way path := by
  refine ⟨fun directory => ((grows_createAll path tree).isDirectory_or_mem directory).imp_right
    And.left, ?_⟩
  rintro (was | onWay)
  · exact (grows_createAll path tree).isDirectory was
  · rw [createAll] at made ⊢
    split at made
    next empty =>
      obtain rfl := String.isEmpty_iff.mp empty
      obtain rfl : place = [] := by simpa using (show place ∈ [[], []] from onWay)
      rfl
    next proper =>
      split at made
      next _ => cases made
      next straight =>
        rw [if_neg proper, if_neg straight]
        exact isDirectory_of_enterAll rfl made place onWay

/-- A path that can be made can still be made later, unless a file has been written on its way. -/
theorem Grows.createAll {files ways before after} (grows : Grows files ways before after)
    (apart : ∀ place ∈ Path.way path, place ∉ files) (made : (before.createAll path).1) :
    (after.createAll path).1 := by
  rw [Tree.createAll] at made ⊢
  split at made
  next empty => rw [if_pos empty]
  next proper =>
    split at made
    next _ => cases made
    next straight =>
      have straight' : ¬ (Path.endsInDot path &&
          !((after.place? path).map after.isDirectory).getD false) = true := by
        cases leads : before.place? path with
        | none => simp_all
        | some place =>
          rw [grows.place? leads]
          intro detour
          simp only [leads, map_some, getD_some, Bool.and_eq_true, Bool.not_eq_true',
            not_and, Bool.not_eq_false] at straight detour
          rw [grows.isDirectory (straight detour.1)] at detour
          cases detour.2
      rw [if_neg proper, if_neg straight']
      refine enterAll_of_clear rfl fun passed onWay =>
        grows.content?_eq_none (apart passed onWay) ?_
      exact (grows_enterAll _ _).content?_of_isDirectory
        (isDirectory_of_enterAll rfl made passed onWay)

/-! ## Writing files -/

theorem grows_write? {after content} (written : tree.write? path content = some after) :
    Grows [Path.target path] [] tree after := by
  obtain ⟨place, leads, further⟩ := bind_eq_some_iff.mp written
  obtain ⟨-, rfl, -⟩ := place?_eq_some_iff.mp leads
  split at further
  next _ => cases further
  next free =>
    obtain rfl := some.inj further
    exact grows_put_file (by simpa using free) content

theorem grows_copy? {after source} (copied : tree.copy? source path = some after) :
    Grows [Path.target path] [] tree after := by
  obtain ⟨place, leads, further⟩ := bind_eq_some_iff.mp copied
  obtain ⟨content, isFile, written⟩ := bind_eq_some_iff.mp further
  split at written
  next _ => exact grows_write? written
  next _ => exact grows_write? written

end Storage.Tree

end JavaSlice
