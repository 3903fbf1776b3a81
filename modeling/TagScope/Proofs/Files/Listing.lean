import Mathlib.Data.List.Infix
import Mathlib.Data.String.Basic
import TagScope.Proofs.Files.Reordering
import TagScope.Proofs.Text.Offsets

/-!
# Which files are listed

The files to lint under a directory are gathered by a walk that looks at each directory when it is
met, and at each file in those it enters. What comes of it is a condition on the path of a file
alone. `Entry.LiesIn` says where a file lies in a tree. The walk keeps exactly the files all of
whose directories are kept (`Entry.mem_keptOfAll_iff`), and with the tests of the walk this is that
the file is admitted (`Disk.Admits`) and that the directories on its way can be opened
(`Disk.keeps_iff_admits`). The second is no condition on a file that is found at its path, since the
path of a directory is shorter than those of the files in it (`Path.byteCount_below_append`).

Paths of names beneath one directory differ in their texts (`Path.eq_of_toText_below_eq`), and no
file is kept twice (`Entry.nodup_keptOfAll`), so the sorted list increases strictly. Texts that are
sorted do not show their order before (`Stable.sort_textLe_eq_of_perm`), so shuffling the entries of
directories does not show. `Disk.sources_exact` puts this together.
-/

set_option autoImplicit false

namespace TagScope

/-! ### Code point order -/

namespace Stable

/-- The lexicographic order by code points is the order of lists of characters. -/
theorem lexLe_iff_not_lt (as bs : List Char) :
    lexLe (fun c d ↦ decide (c.toNat ≤ d.toNat)) as bs = true ↔ ¬ bs < as := by
  induction as generalizing bs with
  | nil => simp [lexLe]
  | cons a as ih =>
    cases bs with
    | nil => simp [lexLe]
    | cons b bs =>
      rw [lexLe, List.cons_lt_cons_iff]
      rcases lt_trichotomy a b with hlt | rfl | hgt
      · have hab : a.toNat ≤ b.toNat := hlt.le
        have hba : ¬ b.toNat ≤ a.toNat := hlt.not_ge
        simp [hab, hba, hlt.not_gt, hlt.ne']
      · have hlast := ih bs
        simpa using hlast
      · have hab : ¬ a.toNat ≤ b.toNat := hgt.not_ge
        simp [hab, hgt]

theorem textLe_iff (a b : String) : textLe a b = true ↔ a ≤ b := by
  rw [← not_lt, String.lt_iff_toList_lt]
  exact lexLe_iff_not_lt a.toList b.toList

theorem textLe_total (a b : String) : textLe a b = true ∨ textLe b a = true := by
  rw [textLe_iff, textLe_iff]
  exact le_total a b

theorem textLe_trans (a b c : String) (hab : textLe a b = true) (hbc : textLe b c = true) :
    textLe a c = true := by
  rw [textLe_iff] at hab hbc ⊢
  exact hab.trans hbc

theorem perm_sort_textLe (texts : List String) : (sort textLe texts).Perm texts :=
  (sorts_sort textLe_total textLe_trans texts).perm

/-- Sorted texts are in code point order. -/
theorem pairwise_sort_textLe (texts : List String) :
    (sort textLe texts).Pairwise (· ≤ ·) :=
  (sorts_sort textLe_total textLe_trans texts).pairwise.imp (textLe_iff _ _).mp

/-- Texts without duplicates increase strictly when they are sorted. -/
theorem strict_sort_textLe {texts : List String} (h : texts.Nodup) :
    (sort textLe texts).Pairwise (· < ·) := by
  have hnodup := (perm_sort_textLe texts).nodup_iff.mpr h
  exact ((pairwise_sort_textLe texts).and hnodup).imp fun hboth ↦ lt_of_le_of_ne hboth.1 hboth.2

/-- How texts are ordered before they are sorted does not matter. -/
theorem sort_textLe_eq_of_perm {texts texts' : List String} (h : texts.Perm texts') :
    sort textLe texts = sort textLe texts' := by
  refine List.Perm.eq_of_pairwise' (pairwise_sort_textLe texts) (pairwise_sort_textLe texts') ?_
  exact (perm_sort_textLe texts).trans (h.trans (perm_sort_textLe texts').symm)

end Stable

/-! ### Paths beneath a directory -/

namespace Path

variable {path : Path} {front back : List String}

theorem join_eq_below (path : Path) (name : String) : path.join name = path.below [name] := rfl

theorem below_below (path : Path) (front back : List String) :
    (path.below front).below back = path.below (front ++ back) := by
  rw [below, below, below, List.append_assoc]

theorem name_below_concat (path : Path) (front : List String) (last : String) :
    (path.below (front ++ [last])).name = last := by
  rw [name, below, ← List.append_assoc, List.getLastD_concat]

theorem toList_toText_below (path : Path) (h : front ≠ []) :
    (path.below front).toText.toList = path.anchor.text.toList ++ joined (path.parts ++ front) := by
  simp [toText, below, h, joined]

theorem eq_of_joined_eq (hfront : front ≠ []) (hback : back ≠ [])
    (hnames : ∀ part ∈ front, IsName part) (hnames' : ∀ part ∈ back, IsName part)
    (h : joined front = joined back) : front = back := by
  have hsplit := congrArg (List.splitOn '/') h
  rw [splitOn_joined hfront fun part hpart ↦ (hnames part hpart).slash_not_mem,
    splitOn_joined hback fun part hpart ↦ (hnames' part hpart).slash_not_mem] at hsplit
  exact List.map_injective_iff.mpr (fun _ _ ↦ String.toList_inj.mp) hsplit

/-- Two paths of names beneath a directory that have the same text are the same. -/
theorem eq_of_toText_below_eq (hfront : front ≠ []) (hback : back ≠ [])
    (hnames : ∀ part ∈ front, IsName part) (hnames' : ∀ part ∈ back, IsName part)
    (h : (path.below front).toText = (path.below back).toText) : front = back := by
  have hlist := congrArg String.toList h
  rw [toList_toText_below path hfront, toList_toText_below path hback] at hlist
  have hjoined := List.append_cancel_left hlist
  refine eq_of_joined_eq hfront hback hnames hnames' ?_
  by_cases hparts : path.parts = []
  · rwa [hparts, List.nil_append, List.nil_append] at hjoined
  · rw [joined_append hparts hfront, joined_append hparts hback] at hjoined
    exact List.cons_injective (List.append_cancel_left hjoined)

theorem joined_ne_nil (h : front ≠ []) (hnames : ∀ part ∈ front, IsName part) :
    joined front ≠ [] := by
  obtain ⟨part, rest, rfl⟩ := List.exists_cons_of_ne_nil h
  have hpart := (hnames part List.mem_cons_self).ne_empty
  cases rest <;> simp [joined, hpart]

/-- What lies in a directory has a longer path, by a slash and a name at least. -/
theorem byteCount_below_append (hfront : front ≠ []) (hback : back ≠ [])
    (hnames : ∀ part ∈ back, IsName part) :
    byteCount (path.below front).toText + 2 ≤ byteCount (path.below (front ++ back)).toText := by
  obtain ⟨c, text, htext⟩ := List.exists_cons_of_ne_nil (joined_ne_nil hback hnames)
  obtain ⟨b, bytes, hbytes⟩ := Utf8.exists_encodeChar_eq_cons c
  rw [byteCount, byteCount, toList_toText_below path hfront,
    toList_toText_below path (by simp [hfront]), ← List.append_assoc,
    joined_append (by simp [hfront]) hback, ← List.append_assoc, Utf8.encode_append _ ('/' :: _),
    List.length_append, htext, Utf8.encode_cons, Utf8.encode_cons, hbytes]
  have hslash : (Utf8.encodeChar '/').length = 1 := by decide
  simp only [List.length_append, List.length_cons, hslash]
  omega

end Path

/-! ### Files in a tree -/

namespace Entry

/-- A file lies in a tree, at the end of some directories. -/
inductive LiesIn : List Entry → List String → String → Bytes → Prop
  | here {entries : List Entry} {name : String} {content : Bytes} :
      .file name content ∈ entries → LiesIn entries [] name content
  | deeper {entries inner : List Entry} {dir name : String} {dirs : List String} {content : Bytes} :
      .directory dir inner ∈ entries → LiesIn inner dirs name content →
        LiesIn entries (dir :: dirs) name content

variable {keepsDirectory keepsFile : Path → Bool} {entries : List Entry}

/-- A file of a tree is kept if all directories on its way are. -/
theorem mem_keptOfAll_of_liesIn {dirs : List String} {name : String} {content : Bytes}
    (h : LiesIn entries dirs name content) {above : Path}
    (hdirs : ∀ front, front ≠ [] → front <+: dirs → keepsDirectory (above.below front) = true)
    (hfile : keepsFile (above.below (dirs ++ [name])) = true) :
    above.below (dirs ++ [name]) ∈ keptOfAll keepsDirectory keepsFile above entries := by
  rw [keptOfAll_eq_flatMap, List.mem_flatMap]
  induction h generalizing above with
  | here hmem =>
    refine ⟨_, hmem, ?_⟩
    rw [List.nil_append] at hfile ⊢
    rw [kept, Path.join_eq_below, if_pos hfile]
    exact List.mem_singleton_self _
  | @deeper entries inner dir name dirs content hmem _ ih =>
    have hdir : keepsDirectory (above.join dir) = true :=
      hdirs [dir] (by simp) (List.prefix_cons_inj dir |>.mpr List.nil_prefix)
    have hsplit : above.below (dir :: dirs ++ [name]) =
        (above.join dir).below (dirs ++ [name]) :=
      (Path.below_below above [dir] (dirs ++ [name])).symm
    refine ⟨_, hmem, ?_⟩
    rw [kept, if_pos hdir, keptOfAll_eq_flatMap, List.mem_flatMap, hsplit]
    refine ih (fun front hne hfront ↦ ?_) (hsplit ▸ hfile)
    rw [Path.join_eq_below, Path.below_below]
    exact hdirs (dir :: front) (by simp) ((List.prefix_cons_inj dir).mpr hfront)

/-- What is kept of a tree are files of it, along directories that are kept. -/
theorem exists_liesIn_of_mem_kept (e : Entry) {above path : Path}
    (h : path ∈ e.kept keepsDirectory keepsFile above) (hmem : e ∈ entries) :
    ∃ dirs name content, LiesIn entries dirs name content ∧ path = above.below (dirs ++ [name]) ∧
      (∀ front, front ≠ [] → front <+: dirs → keepsDirectory (above.below front) = true) ∧
        keepsFile path = true := by
  induction e using Entry.induction generalizing above entries with
  | file name content =>
    rw [kept] at h
    split at h
    next hkept =>
      obtain rfl := List.mem_singleton.mp h
      refine ⟨[], name, content, .here hmem, rfl, fun front hne hfront ↦ ?_, hkept⟩
      exact absurd (List.prefix_nil.mp hfront) hne
    next => simp at h
  | directory dir inner ih =>
    rw [kept] at h
    split at h
    next hkept =>
      rw [keptOfAll_eq_flatMap] at h
      obtain ⟨e, he, hpath⟩ := List.mem_flatMap.mp h
      obtain ⟨dirs, name, content, hlies, rfl, hdirs, hfile⟩ := ih e he hpath he
      refine ⟨dir :: dirs, name, content, .deeper hmem hlies,
        Path.below_below above [dir] (dirs ++ [name]), fun front hne hfront ↦ ?_, hfile⟩
      obtain ⟨next, rest, rfl⟩ := List.exists_cons_of_ne_nil hne
      obtain ⟨rfl, hrest⟩ := List.cons_prefix_cons.mp hfront
      -- The shortest beginning is the directory itself; the others go on among its entries.
      by_cases hnil : rest = []
      · rw [hnil]
        exact hkept
      · exact Path.below_below above [next] rest ▸ hdirs rest hnil hrest
    next => simp at h

/-- What is kept of a tree are the files whose directories are all kept, if they are kept
themselves. -/
theorem mem_keptOfAll_iff {above path : Path} :
    path ∈ keptOfAll keepsDirectory keepsFile above entries ↔
      ∃ dirs name content, LiesIn entries dirs name content ∧ path = above.below (dirs ++ [name]) ∧
        (∀ front, front ≠ [] → front <+: dirs → keepsDirectory (above.below front) = true) ∧
          keepsFile path = true := by
  constructor
  · intro h
    rw [keptOfAll_eq_flatMap] at h
    obtain ⟨e, he, hpath⟩ := List.mem_flatMap.mp h
    exact exists_liesIn_of_mem_kept e hpath he
  · rintro ⟨dirs, name, content, hlies, rfl, hdirs, hfile⟩
    exact mem_keptOfAll_of_liesIn hlies hdirs hfile

theorem LiesIn.isName {dirs : List String} {name : String} {content : Bytes}
    (h : LiesIn entries dirs name content) (hnamed : WellNamed entries) :
    ∀ part ∈ dirs ++ [name], Path.IsName part := by
  induction h with
  | here hmem => exact List.forall_mem_singleton.mpr (hnamed.isName hmem)
  | deeper hmem _ ih =>
    exact List.forall_mem_cons.mpr ⟨hnamed.isName hmem, ih (hnamed.inner hmem)⟩

/-- The paths kept of one entry begin with its name. -/
theorem exists_eq_below_of_mem_kept {e : Entry} {above path : Path}
    (h : path ∈ e.kept keepsDirectory keepsFile above) :
    ∃ rest, path = above.below (e.name :: rest) := by
  obtain ⟨dirs, name, content, hlies, rfl, -⟩ :=
    exists_liesIn_of_mem_kept e h (List.mem_singleton_self e)
  cases hlies with
  | here hmem => exact ⟨[], by rw [← List.mem_singleton.mp hmem]; rfl⟩
  | @deeper _ inner dir _ more _ hmem _ =>
    exact ⟨more ++ [name], by rw [← List.mem_singleton.mp hmem]; rfl⟩

/-- Entries with distinct paths keep no file twice, if none of them does. -/
theorem nodup_keptOfAll_of_forall {above : Path} (hpaths : (pathsOfAll entries).Nodup)
    (h : ∀ e ∈ entries, e.paths.Nodup → (e.kept keepsDirectory keepsFile above).Nodup) :
    (keptOfAll keepsDirectory keepsFile above entries).Nodup := by
  have hnames := nodup_names_of_nodup_paths hpaths
  rw [pathsOfAll_eq_flatMap, List.nodup_flatMap] at hpaths
  rw [keptOfAll_eq_flatMap, List.nodup_flatMap]
  refine ⟨fun e he ↦ h e he (hpaths.1 e he), (List.pairwise_map.mp hnames).imp ?_⟩
  intro a b hne path ha hb
  obtain ⟨rest, rfl⟩ := exists_eq_below_of_mem_kept ha
  obtain ⟨rest', hpath⟩ := exists_eq_below_of_mem_kept hb
  have hparts := List.append_cancel_left (congrArg Path.parts hpath)
  exact hne (List.cons.inj hparts).1

theorem nodup_kept (e : Entry) (h : e.paths.Nodup) (above : Path) :
    (e.kept keepsDirectory keepsFile above).Nodup := by
  induction e using Entry.induction generalizing above with
  | file name content =>
    rw [kept]
    split <;> simp
  | directory name entries ih =>
    have hentries : (pathsOfAll entries).Nodup := List.Nodup.of_map _ (List.nodup_cons.mp h).2
    rw [kept]
    split
    · exact nodup_keptOfAll_of_forall hentries fun e he hpaths ↦ ih e he hpaths (above.join name)
    · exact List.nodup_nil

/-- No file is kept twice. -/
theorem nodup_keptOfAll (h : WellNamed entries) (above : Path) :
    (keptOfAll keepsDirectory keepsFile above entries).Nodup :=
  nodup_keptOfAll_of_forall h.paths fun e _ hpaths ↦ nodup_kept e hpaths above

end Entry

open Entry (LiesIn WellNamed Shuffled)

/-- A path that goes on from a directory is followed from there. -/
theorem exists_follow_append {front : List String} {inner : List Entry} :
    ∀ {here : List Entry} {above : List (List Entry)},
      follow here above front = .ok (.directory inner) →
        ∃ above', ∀ back, follow here above (front ++ back) = follow inner above' back := by
  induction front with
  | nil =>
    intro here above h
    obtain rfl := Found.directory.inj (Except.ok.inj h)
    exact ⟨above, fun back ↦ rfl⟩
  | cons part rest ih =>
    intro here above h
    by_cases hdots : part = ".."
    · subst hdots
      simp only [List.cons_append, follow_dots] at h ⊢
      exact ih h
    simp only [List.cons_append, follow_cons hdots] at h ⊢
    by_cases hlong : longestName < byteCount part
    · rw [if_pos hlong] at h
      cases h
    simp only [if_neg hlong] at h ⊢
    match hfound : entryNamed? part here with
    | none => rw [hfound] at h; cases h
    | some (.file name content) =>
      rw [hfound] at h
      cases rest <;> cases h
    | some (.directory name entries) =>
      rw [hfound] at h
      exact ih h

theorem liesIn_of_follow {dirs : List String} {name : String} {content : Bytes}
    (hparts : ∀ part ∈ dirs ++ [name], part ≠ "..") {entries : List Entry}
    (h : follow entries [] (dirs ++ [name]) = .ok (.file content)) :
    LiesIn entries dirs name content := by
  induction dirs generalizing entries with
  | nil =>
    obtain ⟨hname, hnone⟩ := List.forall_mem_cons.mp hparts
    obtain ⟨-, ⟨-, hfound⟩ | ⟨inner, -, hfile⟩⟩ := (follow_eq_file hname hnone).mp h
    · exact .here (List.mem_of_find?_eq_some hfound)
    · cases hfile
  | cons dir dirs ih =>
    obtain ⟨hdir, hrest⟩ := List.forall_mem_cons.mp hparts
    obtain ⟨-, ⟨hnil, -⟩ | ⟨inner, hfound, hfile⟩⟩ := (follow_eq_file hdir hrest).mp h
    · simp at hnil
    · exact .deeper (List.mem_of_find?_eq_some hfound) (ih hrest hfile)

namespace Disk

variable {disk disk' : Disk} {directory root : Path} {rules : List Ignore.Rule}
  {entries : List Entry} {dirs : List String} {name : String} {content : Bytes}

/-! ### Finding what lies in a directory -/

/-- The parts that are followed from the top of the disk to look up a path. -/
def trail (disk : Disk) (path : Path) : List String :=
  match path.anchor with
  | .relative => disk.cwd ++ path.parts
  | _ => path.parts

theorem trail_below (disk : Disk) (path : Path) (parts : List String) :
    disk.trail (path.below parts) = disk.trail path ++ parts := by
  obtain ⟨anchor, front⟩ := path
  cases anchor <;> simp [trail, Path.below]

theorem find_eq_trail (disk : Disk) (path : Path) :
    disk.find path =
      if path.hasNull then .error .nullByte
      else if longestPath < byteCount path.toText then .error .nameTooLong
      else follow disk.entries [] (disk.trail path) := by
  obtain ⟨anchor, parts⟩ := path
  cases anchor <;> rfl

theorem follow_trail_of_find {path : Path} {found : Found} (h : disk.find path = .ok found) :
    byteCount path.toText ≤ longestPath ∧ follow disk.entries [] (disk.trail path) = .ok found := by
  rw [find_eq_trail] at h
  split_ifs at h with hnull hlong
  exact ⟨Nat.le_of_not_lt hlong, h⟩

/-- A file that is found beneath a directory lies in it. -/
theorem liesIn_of_find (hfind : disk.find directory = .ok (.directory entries))
    (hparts : ∀ part ∈ dirs ++ [name], part ≠ "..")
    (hfile : disk.find (directory.below (dirs ++ [name])) = .ok (.file content)) :
    LiesIn entries dirs name content := by
  obtain ⟨above, hbelow⟩ := exists_follow_append (follow_trail_of_find hfind).2
  have hfollow := (follow_trail_of_find hfile).2
  rw [trail_below, hbelow, follow_above hparts above []] at hfollow
  exact liesIn_of_follow hparts hfollow

/-- The same directory is found after the entries of the disk were shuffled. -/
theorem exists_find_of_shuffled (hnamed : WellNamed disk.entries)
    (hfind : disk.find directory = .ok (.directory entries)) (hcwd : disk'.cwd = disk.cwd)
    (hshuffled : Shuffled disk.entries disk'.entries) :
    WellNamed entries ∧ ∃ entries', disk'.find directory = .ok (.directory entries') ∧
      Shuffled entries entries' := by
  obtain ⟨hentries, entries', hfollow, hentries'⟩ := hshuffled.exists_follow hnamed (by simp)
    List.Forall₂.nil (follow_trail_of_find hfind).2
  refine ⟨hentries, entries', ?_, hentries'⟩
  have htrail : disk'.trail directory = disk.trail directory := by
    rw [trail, trail, hcwd]
  rw [find_eq_trail] at hfind ⊢
  split_ifs at hfind ⊢ with hnull hlong
  rw [htrail, hfollow]

theorem wellNamed_entries (hdisk : disk.IsProper) (htree : disk.IsTree) :
    WellNamed disk.entries where
  names name hname := hdisk name (List.mem_append_right _ hname)
  paths := htree

theorem isFile_of_find (hfind : disk.find directory = .ok (.directory entries)) :
    disk.isFile directory = .ok false := by
  rw [isFile, found?, hfind]
  rfl

/-! ### What the rules allow -/

/-- A file beneath a directory that is to be linted: its name is that of a source, no directory on
its way is one of those never linted, and the rules ignore neither these directories nor the file
itself. -/
structure Admits (directory root : Path) (rules : List Ignore.Rule) (dirs : List String)
    (name : String) : Prop where
  source : FileName.isSource (directory.below (dirs ++ [name])) = true
  notSkipped : ∀ dir ∈ dirs, dir ∉ FileName.skippedDirectories
  aboveNotIgnored : ∀ front, front ≠ [] → front <+: dirs →
    isIgnored root rules (directory.below front) = false
  notIgnored : isIgnored root rules (directory.below (dirs ++ [name])) = false

instance (directory root : Path) (rules : List Ignore.Rule) (dirs : List String) (name : String) :
    Decidable (Admits directory root rules dirs name) :=
  decidable_of_iff (FileName.isSource (directory.below (dirs ++ [name])) = true ∧
      (∀ dir ∈ dirs, dir ∉ FileName.skippedDirectories) ∧
      (∀ front ∈ dirs.inits, front ≠ [] → isIgnored root rules (directory.below front) = false) ∧
      isIgnored root rules (directory.below (dirs ++ [name])) = false)
    ⟨fun ⟨h₁, h₂, h₃, h₄⟩ ↦
        ⟨h₁, h₂, fun front hne hfront ↦ h₃ front ((List.mem_inits front dirs).mpr hfront) hne, h₄⟩,
      fun ⟨h₁, h₂, h₃, h₄⟩ ↦
        ⟨h₁, h₂, fun front hfront hne ↦ h₃ front hne ((List.mem_inits front dirs).mp hfront), h₄⟩⟩

/-- All directories on the way to a file can be opened. -/
def OpensAll (directory : Path) (dirs : List String) : Prop :=
  ∀ front, front ≠ [] → front <+: dirs → opens directory (directory.below front) = true

theorem keepsFile_iff {path : Path} :
    keepsFile root rules path = true ↔
      FileName.isSource path = true ∧ isIgnored root rules path = false := by
  simp [keepsFile]

theorem keepsDirectory_iff {path : Path} :
    keepsDirectory directory root rules path = true ↔
      path.name ∉ FileName.skippedDirectories ∧ isIgnored root rules path = false ∧
        opens directory path = true := by
  simp [keepsDirectory, and_assoc]

/-- The walk keeps a file if it is admitted and all directories on its way can be opened: that each
directory is looked at when it is met comes to a condition on the whole path. -/
theorem keeps_iff_admits :
    ((∀ front, front ≠ [] → front <+: dirs →
        keepsDirectory directory root rules (directory.below front) = true) ∧
      keepsFile root rules (directory.below (dirs ++ [name])) = true) ↔
        Admits directory root rules dirs name ∧ OpensAll directory dirs := by
  simp only [keepsFile_iff, keepsDirectory_iff]
  constructor
  · rintro ⟨habove, hsource, hown⟩
    refine ⟨⟨hsource, fun dir hdir ↦ ?_, fun front hne hfront ↦ (habove front hne hfront).2.1,
      hown⟩, fun front hne hfront ↦ (habove front hne hfront).2.2⟩
    obtain ⟨front, back, rfl⟩ := List.append_of_mem hdir
    have hfront := (habove (front ++ [dir]) (by simp) ⟨back, by simp⟩).1
    rwa [Path.name_below_concat] at hfront
  · rintro ⟨hadmits, hopens⟩
    refine ⟨fun front hne hfront ↦ ?_, hadmits.source, hadmits.notIgnored⟩
    refine ⟨?_, hadmits.aboveNotIgnored front hne hfront, hopens front hne hfront⟩
    obtain ⟨front, last, rfl⟩ := (List.eq_nil_or_concat front).resolve_left hne
    rw [List.concat_eq_append] at hfront ⊢
    rw [Path.name_below_concat]
    exact hadmits.notSkipped last (hfront.subset (by simp))

/-- Where the path of a file can be looked up, the directories on its way can be opened. -/
theorem opensAll_of_byteCount_le (hnames : ∀ part ∈ dirs ++ [name], Path.IsName part)
    (h : byteCount (directory.below (dirs ++ [name])).toText ≤ longestPath) :
    OpensAll directory dirs := by
  rintro front hne ⟨back, rfl⟩
  rw [List.append_assoc] at h hnames
  have hlonger : byteCount (directory.below front).toText + 2 ≤
      byteCount (directory.below (front ++ (back ++ [name]))).toText :=
    Path.byteCount_below_append hne (by simp) fun part hpart ↦
      hnames part (List.mem_append_right _ hpart)
  -- The slash and the name that follow a directory make up for a dot and a slash before it.
  rw [opens, decide_eq_true_iff]
  split_ifs <;> omega

/-! ### The list -/

theorem sourcesUnder_of_find (hfind : disk.find directory = .ok (.directory entries)) :
    disk.sourcesUnder directory root rules =
      Stable.sort Stable.textLe ((Entry.keptOfAll (keepsDirectory directory root rules)
        (keepsFile root rules) directory entries).map Path.toText) := by
  rw [sourcesUnder, hfind]

theorem mem_sourcesUnder_iff (hfind : disk.find directory = .ok (.directory entries))
    {filename : String} :
    filename ∈ disk.sourcesUnder directory root rules ↔
      ∃ dirs name content, LiesIn entries dirs name content ∧
        Admits directory root rules dirs name ∧ OpensAll directory dirs ∧
          filename = (directory.below (dirs ++ [name])).toText := by
  rw [sourcesUnder_of_find hfind, (Stable.perm_sort_textLe _).mem_iff, List.mem_map]
  constructor
  · rintro ⟨path, hpath, rfl⟩
    obtain ⟨dirs, name, content, hlies, rfl, hkeeps⟩ := Entry.mem_keptOfAll_iff.mp hpath
    obtain ⟨hadmits, hopens⟩ := keeps_iff_admits.mp hkeeps
    exact ⟨dirs, name, content, hlies, hadmits, hopens, rfl⟩
  · rintro ⟨dirs, name, content, hlies, hadmits, hopens, rfl⟩
    refine ⟨_, Entry.mem_keptOfAll_iff.mpr ⟨dirs, name, content, hlies, rfl, ?_⟩, rfl⟩
    exact keeps_iff_admits.mpr ⟨hadmits, hopens⟩

/-- A file that is found beneath a directory is listed if it is admitted. -/
theorem mem_sourcesUnder_iff_admits (hentries : WellNamed entries)
    (hfind : disk.find directory = .ok (.directory entries))
    (hparts : ∀ part ∈ dirs ++ [name], part ≠ "..")
    (hfile : disk.find (directory.below (dirs ++ [name])) = .ok (.file content)) :
    (directory.below (dirs ++ [name])).toText ∈ disk.sourcesUnder directory root rules ↔
      Admits directory root rules dirs name := by
  have hlies := liesIn_of_find hfind hparts hfile
  have hnames := hlies.isName hentries
  rw [mem_sourcesUnder_iff hfind]
  constructor
  · rintro ⟨dirs', name', content', hlies', hadmits, -, htext⟩
    have heq := Path.eq_of_toText_below_eq (by simp) (by simp) hnames (hlies'.isName hentries) htext
    obtain ⟨rfl, hname⟩ := List.append_inj' heq rfl
    obtain rfl := List.singleton_inj.mp hname
    exact hadmits
  · intro hadmits
    have hopens := opensAll_of_byteCount_le hnames (follow_trail_of_find hfile).1
    exact ⟨dirs, name, content, hlies, hadmits, hopens, rfl⟩

theorem pairwise_lt_sourcesUnder (hentries : WellNamed entries)
    (hfind : disk.find directory = .ok (.directory entries)) :
    (disk.sourcesUnder directory root rules).Pairwise (· < ·) := by
  rw [sourcesUnder_of_find hfind]
  refine Stable.strict_sort_textLe ((Entry.nodup_keptOfAll hentries directory).map_on ?_)
  intro path hpath path' hpath' htext
  obtain ⟨dirs, name, content, hlies, rfl, -⟩ := Entry.mem_keptOfAll_iff.mp hpath
  obtain ⟨dirs', name', content', hlies', rfl, -⟩ := Entry.mem_keptOfAll_iff.mp hpath'
  rw [Path.eq_of_toText_below_eq (by simp) (by simp) (hlies.isName hentries)
    (hlies'.isName hentries) htext]

theorem sourcesUnder_eq_of_shuffled (hnamed : WellNamed disk.entries)
    (hfind : disk.find directory = .ok (.directory entries)) (hcwd : disk'.cwd = disk.cwd)
    (hshuffled : Shuffled disk.entries disk'.entries) :
    disk'.sourcesUnder directory root rules = disk.sourcesUnder directory root rules := by
  obtain ⟨-, entries', hfind', hentries'⟩ :=
    exists_find_of_shuffled hnamed hfind hcwd hshuffled
  rw [sourcesUnder_of_find hfind, sourcesUnder_of_find hfind']
  exact Stable.sort_textLe_eq_of_perm ((hentries'.perm_keptOfAll _ _ directory).map _).symm

/-- The files to lint under a directory, for the rules of its repository. A file that is found
beneath the directory is listed exactly if it is admitted, and nothing else is listed than admitted
files that lie in it. The list increases strictly by code point, and does not depend on the order of
the entries of any directory. -/
theorem sources_exact (hdisk : disk.IsProper) (htree : disk.IsTree)
    (hfind : disk.find directory = .ok (.directory entries))
    (hroot : disk.repositoryRoot directory = .ok root)
    (hrules : Ignore.rulesOf (disk.ignorePatterns root) = .ok rules) :
    ∃ files, disk.sources directory = .ok files ∧
      (∀ dirs name content, (∀ part ∈ dirs ++ [name], part ≠ "..") →
        disk.find (directory.below (dirs ++ [name])) = .ok (.file content) →
          ((directory.below (dirs ++ [name])).toText ∈ files ↔
            Admits directory root rules dirs name)) ∧
      (∀ filename, filename ∈ files ↔ ∃ dirs name content, LiesIn entries dirs name content ∧
        Admits directory root rules dirs name ∧ OpensAll directory dirs ∧
          filename = (directory.below (dirs ++ [name])).toText) ∧
      files.Pairwise (· < ·) ∧
      ∀ disk' : Disk, disk'.cwd = disk.cwd → Shuffled disk.entries disk'.entries →
        disk'.sourcesUnder directory root rules = files := by
  have hnamed := wellNamed_entries hdisk htree
  have hentries := (exists_find_of_shuffled hnamed hfind rfl (Shuffled.refl disk.entries)).1
  refine ⟨disk.sourcesUnder directory root rules, ?_, ?_, ?_, ?_, ?_⟩
  · rw [sources, isFile_of_find hfind, hroot]
    dsimp only
    rw [hrules]
  · intro dirs name content hparts hfile
    exact mem_sourcesUnder_iff_admits hentries hfind hparts hfile
  · intro filename
    exact mem_sourcesUnder_iff hfind
  · exact pairwise_lt_sourcesUnder hentries hfind
  · intro disk' hcwd hshuffled
    exact sourcesUnder_eq_of_shuffled hnamed hfind hcwd hshuffled

/-- A repository whose ignore file names generated sources and a directory. -/
def layeredDisk : Disk where
  entries := [.directory "w" [
    .directory "src" [.file "b.tsx" [], .file "a.gen.tsx" [],
      .directory "dist" [.file "c.tsx" []], .directory "Ab" [.file "d.ts" []]],
    .directory ".git" [],
    .directory "old" [.file "e.tsx" []],
    .file ".gitignore" (Utf8.encode "*.gen.tsx\nold/*\n".toList)]]
  cwd := ["w"]

/-- Of the working directory two sources are listed, but no generated source, none in a directory
that is never linted and none in an ignored directory. -/
theorem sources_exact_layered :
    layeredDisk.IsProper ∧ layeredDisk.IsTree ∧
    ∃ files, layeredDisk.sources ⟨.relative, []⟩ = .ok files ∧
      "src/b.tsx" ∈ files ∧ "src/Ab/d.ts" ∈ files ∧ "src/a.gen.tsx" ∉ files ∧
      "src/dist/c.tsx" ∉ files ∧ "old/e.tsx" ∉ files ∧ files.Pairwise (· < ·) := by
  have hdisk : layeredDisk.IsProper := by decide +kernel
  have htree : layeredDisk.IsTree := by decide +kernel
  obtain ⟨entries, hfind⟩ : ∃ entries,
      layeredDisk.find ⟨.relative, []⟩ = .ok (.directory entries) := ⟨_, rfl⟩
  have hroot : layeredDisk.repositoryRoot ⟨.relative, []⟩ = .ok ⟨.root, ["w"]⟩ := by
    decide +kernel
  obtain ⟨rules, hrules, hsource, hcapital, hgenerated, hskipped, hignored⟩ : ∃ rules,
      Ignore.rulesOf (layeredDisk.ignorePatterns ⟨.root, ["w"]⟩) = .ok rules ∧
      Admits ⟨.relative, []⟩ ⟨.root, ["w"]⟩ rules ["src"] "b.tsx" ∧
      Admits ⟨.relative, []⟩ ⟨.root, ["w"]⟩ rules ["src", "Ab"] "d.ts" ∧
      ¬ Admits ⟨.relative, []⟩ ⟨.root, ["w"]⟩ rules ["src"] "a.gen.tsx" ∧
      ¬ Admits ⟨.relative, []⟩ ⟨.root, ["w"]⟩ rules ["src", "dist"] "c.tsx" ∧
      ¬ Admits ⟨.relative, []⟩ ⟨.root, ["w"]⟩ rules ["old"] "e.tsx" :=
    ⟨_, rfl, by decide +kernel⟩
  obtain ⟨files, hsources, hfound, -, hstrict, -⟩ := sources_exact hdisk htree hfind hroot hrules
  refine ⟨hdisk, htree, files, hsources, ?_, ?_, ?_, ?_, ?_, hstrict⟩
  · exact (hfound ["src"] "b.tsx" [] (by decide) rfl).mpr hsource
  · exact (hfound ["src", "Ab"] "d.ts" [] (by decide) rfl).mpr hcapital
  · exact mt (hfound ["src"] "a.gen.tsx" [] (by decide) rfl).mp hgenerated
  · exact mt (hfound ["src", "dist"] "c.tsx" [] (by decide) rfl).mp hskipped
  · exact mt (hfound ["old"] "e.tsx" [] (by decide) rfl).mp hignored

end Disk

end TagScope
