import TagScope.Files.Collect
import TagScope.Proofs.Files.Outline
import TagScope.Proofs.Report.Order

/-!
# What is collected

Which files are linted at a path depends on the names on the disk and on its ignore files, so it is
the same for disks with the same outline (`SameOutline.sources_eq`). On a disk whose names are names
(`Disk.IsProper`) every file that is collected is the text of a plain path to a source
(`exists_isPlain_of_mem_sources`).
-/

set_option autoImplicit false

namespace TagScope

/-! ### Trees with the same outline -/

namespace Entry

variable (keepsDirectory keepsFile : Path → Bool)

theorem keptOfAll_eq_flatMap (above : Path) (entries : List Entry) :
    keptOfAll keepsDirectory keepsFile above entries =
      entries.flatMap (kept keepsDirectory keepsFile above) := by
  induction entries with
  | nil => rfl
  | cons entry rest ih => rw [keptOfAll, ih, List.flatMap_cons]

theorem ignoreFilesBelow_eq_flatMap (base : List String) (entries : List Entry) :
    ignoreFilesBelow base entries = entries.flatMap (ignoreFiles base) := by
  induction entries with
  | nil => rfl
  | cons entry rest ih => rw [ignoreFilesBelow, ih, List.flatMap_cons]

theorem kept_outline (e : Entry) (above : Path) :
    e.outline.kept keepsDirectory keepsFile above = e.kept keepsDirectory keepsFile above := by
  induction e using Entry.induction generalizing above with
  | file name content => rfl
  | directory name entries ih =>
    rw [outline, kept, kept, keptOfAll_eq_flatMap, keptOfAll_eq_flatMap, outlineAll_eq_map,
      List.flatMap_map]
    rw [List.flatMap_congr fun e he ↦ ih e he (above.join name)]

theorem ownIgnoreFile_outlineAll (base : List String) (entries : List Entry) :
    ownIgnoreFile base (outlineAll entries) = ownIgnoreFile base entries := by
  rw [ownIgnoreFile, entryNamed?_outlineAll, ownIgnoreFile]
  match hfound : entryNamed? Ignore.fileName entries with
  | none => rfl
  | some (.directory name inner) => rfl
  | some (.file name content) =>
    obtain rfl : name = Ignore.fileName := name_of_entryNamed? hfound
    simp [outline]

theorem ignoreFiles_outline (e : Entry) (base : List String) :
    e.outline.ignoreFiles base = e.ignoreFiles base := by
  induction e using Entry.induction generalizing base with
  | file name content => rfl
  | directory name entries ih =>
    rw [outline, ignoreFiles, ignoreFiles, ownIgnoreFile_outlineAll, ignoreFilesBelow_eq_flatMap,
      ignoreFilesBelow_eq_flatMap, outlineAll_eq_map, List.flatMap_map]
    rw [List.flatMap_congr fun e he ↦ ih e he (base ++ [name])]

variable {entries entries' : List Entry} (h : outlineAll entries' = outlineAll entries)

include h

/-- What is gathered from entries is the same for the same outline, if it is for each of them. -/
theorem flatMap_eq_of_outline {α : Type} {gather : Entry → List α}
    (hgather : ∀ e, gather e.outline = gather e) :
    entries'.flatMap gather = entries.flatMap gather := by
  have houtline : ∀ es : List Entry, (outlineAll es).flatMap gather = es.flatMap gather := by
    intro es
    rw [outlineAll_eq_map, List.flatMap_map]
    exact List.flatMap_congr fun e _ ↦ hgather e
  rw [← houtline entries', h, houtline]

theorem keptOfAll_eq_of_outline (above : Path) :
    keptOfAll keepsDirectory keepsFile above entries' =
      keptOfAll keepsDirectory keepsFile above entries := by
  rw [keptOfAll_eq_flatMap, keptOfAll_eq_flatMap]
  exact flatMap_eq_of_outline h fun e ↦ kept_outline keepsDirectory keepsFile e above

theorem ignoreFilesBelow_eq_of_outline (base : List String) :
    ignoreFilesBelow base entries' = ignoreFilesBelow base entries := by
  rw [ignoreFilesBelow_eq_flatMap, ignoreFilesBelow_eq_flatMap]
  exact flatMap_eq_of_outline h fun e ↦ ignoreFiles_outline e base

theorem ownIgnoreFile_eq_of_outline (base : List String) :
    ownIgnoreFile base entries' = ownIgnoreFile base entries := by
  rw [← ownIgnoreFile_outlineAll, h, ownIgnoreFile_outlineAll]

end Entry

/-! ### Disks with the same outline -/

namespace Disk

variable {disk disk' : Disk}

theorem SameOutline.isFile_eq (h : SameOutline disk disk') (path : Path) :
    disk'.isFile path = disk.isFile path := by
  unfold isFile found?
  rcases h.find_cases path with ⟨fault, hfind, hfind'⟩ | ⟨content, content', hfind, hfind'⟩ |
    ⟨entries, entries', hfind, hfind', -⟩ <;> rw [hfind, hfind'] <;> rfl

theorem SameOutline.isPresent_eq (h : SameOutline disk disk') (path : Path) :
    disk'.isPresent path = disk.isPresent path := by
  unfold isPresent found?
  rcases h.find_cases path with ⟨fault, hfind, hfind'⟩ | ⟨content, content', hfind, hfind'⟩ |
    ⟨entries, entries', hfind, hfind', -⟩ <;> rw [hfind, hfind'] <;> rfl

theorem SameOutline.firstRepository?_eq (h : SameOutline disk disk')
    (places : List (List String)) :
    disk'.firstRepository? places = disk.firstRepository? places := by
  induction places with
  | nil => rfl
  | cons parts rest ih => rw [firstRepository?, firstRepository?, h.isPresent_eq, ih]

theorem SameOutline.repositoryRoot_eq (h : SameOutline disk disk') (path : Path) :
    disk'.repositoryRoot path = disk.repositoryRoot path := by
  rw [repositoryRoot, repositoryRoot, h.cwd]
  dsimp only
  rw [h.firstRepository?_eq]

theorem SameOutline.ignorePatterns_eq (h : SameOutline disk disk') (root : Path) :
    disk'.ignorePatterns root = disk.ignorePatterns root := by
  rw [ignorePatterns, ignorePatterns]
  rcases h.find_cases root with ⟨fault, hfind, hfind'⟩ | ⟨content, content', hfind, hfind'⟩ |
    ⟨entries, entries', hfind, hfind', houtline⟩
  · rw [hfind, hfind']
  · rw [hfind, hfind']
  · rw [hfind, hfind']
    dsimp only
    rw [Entry.ownIgnoreFile_eq_of_outline houtline, Entry.ignoreFilesBelow_eq_of_outline houtline]

theorem SameOutline.sourcesUnder_eq (h : SameOutline disk disk') (directory root : Path)
    (rules : List Ignore.Rule) :
    disk'.sourcesUnder directory root rules = disk.sourcesUnder directory root rules := by
  rw [sourcesUnder, sourcesUnder]
  rcases h.find_cases directory with ⟨fault, hfind, hfind'⟩ | ⟨content, content', hfind, hfind'⟩ |
    ⟨entries, entries', hfind, hfind', houtline⟩
  · rw [hfind, hfind']
  · rw [hfind, hfind']
  · rw [hfind, hfind']
    dsimp only
    rw [Entry.keptOfAll_eq_of_outline _ _ houtline]

/-- The same files are collected on disks with the same outline. -/
theorem SameOutline.sources_eq (h : SameOutline disk disk') (path : Path) :
    disk'.sources path = disk.sources path := by
  rw [sources, sources, h.isFile_eq, h.repositoryRoot_eq]
  simp only [h.ignorePatterns_eq, h.sourcesUnder_eq]

end Disk

/-! ### The names of what is collected -/

namespace Entry

mutual

/-- The names of an entry and of all entries in it. -/
def names : Entry → List String
  | .file name _ => [name]
  | .directory name entries => name :: namesOfAll entries

def namesOfAll : List Entry → List String
  | [] => []
  | entry :: rest => entry.names ++ namesOfAll rest

end

theorem namesOfAll_eq_flatMap (entries : List Entry) :
    namesOfAll entries = entries.flatMap names := by
  induction entries with
  | nil => rfl
  | cons entry rest ih => rw [namesOfAll, ih, List.flatMap_cons]

theorem names_subset {e : Entry} {entries : List Entry} (h : e ∈ entries) :
    e.names ⊆ namesOfAll entries := by
  intro name hname
  rw [namesOfAll_eq_flatMap]
  exact List.mem_flatMap.mpr ⟨e, h, hname⟩

variable {keepsDirectory keepsFile : Path → Bool}

/-- What is kept of a tree of names below a plain path are plain paths of kept files. -/
theorem isPlain_of_mem_kept (e : Entry) {above path : Path} (habove : above.IsPlain)
    (hnames : ∀ name ∈ e.names, Path.IsName name)
    (h : path ∈ e.kept keepsDirectory keepsFile above) :
    path.IsPlain ∧ keepsFile path = true := by
  induction e using Entry.induction generalizing above with
  | file name content =>
    rw [kept] at h
    split at h
    next hkept =>
      obtain rfl := List.mem_singleton.mp h
      exact ⟨habove.join (hnames name List.mem_cons_self), hkept⟩
    next => simp at h
  | directory name entries ih =>
    rw [kept] at h
    split at h
    next hkept =>
      rw [keptOfAll_eq_flatMap] at h
      obtain ⟨e, he, hpath⟩ := List.mem_flatMap.mp h
      refine ih e he (habove.join (hnames name List.mem_cons_self)) (fun other hother ↦ ?_) hpath
      exact hnames other (List.mem_cons_of_mem _ (names_subset he hother))
    next => simp at h

end Entry

/-- The names below a directory that a path leads to are names of the tree. -/
theorem namesOfAll_subset_of_follow {parts : List String} (hparts : ∀ part ∈ parts, part ≠ "..")
    {entries inner : List Entry} (h : follow entries [] parts = .ok (.directory inner)) :
    Entry.namesOfAll inner ⊆ Entry.namesOfAll entries := by
  induction parts generalizing entries with
  | nil =>
    obtain rfl := Found.directory.inj (Except.ok.inj h)
    exact List.Subset.refl _
  | cons part rest ih =>
    obtain ⟨hpart, hrest⟩ := List.forall_mem_cons.mp hparts
    rw [follow_cons hpart] at h
    split at h
    · cases h
    · split at h
      · cases h
      next name below hfound =>
        rw [follow_above hrest _ []] at h
        intro other hother
        exact Entry.names_subset (List.mem_of_find?_eq_some hfound)
          (List.mem_cons_of_mem _ (ih hrest h hother))
      · split at h
        · cases h
        · cases h

namespace FileName

/-- An ignore file is no source: a dot that begins a name makes no suffix. -/
theorem name_ne_of_isSource {path : Path} (h : isSource path = true) :
    path.name ≠ Ignore.fileName := by
  intro hname
  simp only [isSource, Path.suffix, hname, Bool.and_eq_true] at h
  exact absurd h.2 (by decide)

end FileName

namespace Disk

/-- A disk on which all names are names: none is empty, a dot or two dots, or holds a slash. -/
def IsProper (disk : Disk) : Prop :=
  ∀ name ∈ disk.cwd ++ Entry.namesOfAll disk.entries, Path.IsName name

instance (disk : Disk) : Decidable disk.IsProper :=
  inferInstanceAs (Decidable (∀ name ∈ disk.cwd ++ Entry.namesOfAll disk.entries, Path.IsName name))

variable {disk : Disk}

theorem exists_isPlain_of_mem_sourcesUnder (hdisk : disk.IsProper) {directory root : Path}
    (hdirectory : directory.IsPlain) {rules : List Ignore.Rule} {filename : String}
    (h : filename ∈ disk.sourcesUnder directory root rules) :
    ∃ path : Path, path.IsPlain ∧ path.toText = filename ∧ FileName.isSource path = true := by
  rw [sourcesUnder] at h
  split at h
  next entries hfind =>
    rw [Stable.sort_eq_insertionSort, List.mem_insertionSort] at h
    obtain ⟨path, hpath, rfl⟩ := List.mem_map.mp h
    rw [Entry.keptOfAll_eq_flatMap] at hpath
    obtain ⟨e, he, hkept⟩ := List.mem_flatMap.mp hpath
    have hfollow := follow_of_find hdirectory hfind
    have hnames : ∀ name ∈ e.names, Path.IsName name := fun name hname ↦
      hdisk name (List.mem_append_right _ (namesOfAll_subset_of_follow
        (ne_dots_of_isPlain hdirectory) hfollow (Entry.names_subset he hname)))
    obtain ⟨hplain, hkeeps⟩ := Entry.isPlain_of_mem_kept e hdirectory hnames hkept
    rw [keepsFile, Bool.and_eq_true] at hkeeps
    exact ⟨path, hplain, rfl, hkeeps.1⟩
  next => simp at h

/-- Every file that is collected is the text of a plain path to a source. -/
theorem exists_isPlain_of_mem_sources (hdisk : disk.IsProper) {path : Path} (hpath : path.IsPlain)
    {filenames : List String} (h : disk.sources path = .ok filenames) {filename : String}
    (hmem : filename ∈ filenames) :
    ∃ source : Path, source.IsPlain ∧ source.toText = filename ∧
      FileName.isSource source = true := by
  rw [sources] at h
  split at h
  · cases h
  · obtain rfl := Except.ok.inj h
    split at hmem
    next hsource =>
      obtain rfl := List.mem_singleton.mp hmem
      exact ⟨path, hpath, rfl, hsource⟩
    next => simp at hmem
  · cases h
  · split at h
    · cases h
    · obtain rfl := Except.ok.inj h
      exact exists_isPlain_of_mem_sourcesUnder hdisk hpath hmem

end Disk

end TagScope
