import Mathlib.Data.List.Nodup
import TagScope.Proofs.Files.Outline

/-!
# Revisions of a disk

A revision of a disk gives new contents to some of its files, each named by the parts of its path,
and leaves everything else: the directories, the names, the order of the entries and the contents of
all other files (`Disk.revised`). Where no two entries have the same path (`Disk.IsTree`), writing
over a file is the revision at its path alone (`write_eq_revised`). One revision after another is
again one, in which the later content counts (`revised_revised`), so any number of writes over files
is the revision by the last write at each path (`writeAll_eq_revised`).
-/

set_option autoImplicit false

namespace TagScope

namespace Entry

/-! ### Revisions of entries -/

mutual

/-- An entry with new contents for some of the files in it. -/
def revised (contents : List String → Option Bytes) : Entry → Entry
  | .file name content => .file name ((contents [name]).getD content)
  | .directory name entries =>
    .directory name (revisedAll (fun parts ↦ contents (name :: parts)) entries)

def revisedAll (contents : List String → Option Bytes) : List Entry → List Entry
  | [] => []
  | entry :: rest => entry.revised contents :: revisedAll contents rest

end

mutual

/-- The paths of an entry and of all entries in it. -/
def paths : Entry → List (List String)
  | .file name _ => [[name]]
  | .directory name entries => [name] :: (pathsOfAll entries).map (name :: ·)

def pathsOfAll : List Entry → List (List String)
  | [] => []
  | entry :: rest => entry.paths ++ pathsOfAll rest

end

theorem revisedAll_eq_map (contents : List String → Option Bytes) (entries : List Entry) :
    revisedAll contents entries = entries.map (revised contents) := by
  induction entries with
  | nil => rfl
  | cons entry rest ih => rw [revisedAll, ih, List.map_cons]

theorem pathsOfAll_eq_flatMap (entries : List Entry) :
    pathsOfAll entries = entries.flatMap paths := by
  induction entries with
  | nil => rfl
  | cons entry rest ih => rw [pathsOfAll, ih, List.flatMap_cons]

@[simp] theorem name_revised (contents : List String → Option Bytes) (e : Entry) :
    (e.revised contents).name = e.name := by
  cases e <;> rfl

/-- A revision keeps all paths. -/
theorem paths_revised (e : Entry) (contents : List String → Option Bytes) :
    (e.revised contents).paths = e.paths := by
  induction e using Entry.induction generalizing contents with
  | file name content => rfl
  | directory name entries ih =>
    rw [revised, paths, paths, pathsOfAll_eq_flatMap, pathsOfAll_eq_flatMap, revisedAll_eq_map,
      List.flatMap_map]
    rw [List.flatMap_congr fun e he ↦ ih e he _]

theorem pathsOfAll_revisedAll (contents : List String → Option Bytes) (entries : List Entry) :
    pathsOfAll (revisedAll contents entries) = pathsOfAll entries := by
  rw [pathsOfAll_eq_flatMap, revisedAll_eq_map, List.flatMap_map, pathsOfAll_eq_flatMap]
  exact List.flatMap_congr fun e _ ↦ paths_revised e contents

/-- Of two revisions, the later one counts. -/
theorem revised_revised (e : Entry) (first second : List String → Option Bytes) :
    (e.revised first).revised second =
      e.revised fun parts ↦ (second parts).or (first parts) := by
  induction e using Entry.induction generalizing first second with
  | file name content =>
    rw [revised, revised, revised]
    cases second [name] <;> rfl
  | directory name entries ih =>
    rw [revised, revised, revised, revisedAll_eq_map, revisedAll_eq_map, revisedAll_eq_map,
      List.map_map]
    exact congrArg (directory name) (List.map_congr_left fun e he ↦ ih e he _ _)

theorem head?_of_mem_paths {e : Entry} {parts : List String} (h : parts ∈ e.paths) :
    parts.head? = some e.name := by
  cases e with
  | file name content =>
    rw [List.mem_singleton.mp h]
    rfl
  | directory name entries =>
    rcases List.mem_cons.mp h with rfl | h
    · rfl
    · obtain ⟨below, -, rfl⟩ := List.mem_map.mp h
      rfl

theorem name_mem_paths (e : Entry) : [e.name] ∈ e.paths := by
  cases e <;> exact List.mem_cons_self

/-- A revision that has nothing for the files of an entry leaves it. -/
theorem revised_of_eq_none (e : Entry) {contents : List String → Option Bytes}
    (h : ∀ parts ∈ e.paths, contents parts = none) : e.revised contents = e := by
  induction e using Entry.induction generalizing contents with
  | file name content => rw [revised, h [name] List.mem_cons_self, Option.getD_none]
  | directory name entries ih =>
    have hentries : ∀ e ∈ entries, e.revised (fun parts ↦ contents (name :: parts)) = id e := by
      refine fun e he ↦ ih e he fun parts hparts ↦ ?_
      refine h _ (List.mem_cons_of_mem _ (List.mem_map_of_mem ?_))
      rw [pathsOfAll_eq_flatMap]
      exact List.mem_flatMap.mpr ⟨e, he, hparts⟩
    rw [revised, revisedAll_eq_map, List.map_congr_left hentries, List.map_id]

/-! ### Distinct paths -/

theorem nodup_names_of_nodup_paths {entries : List Entry} (h : (pathsOfAll entries).Nodup) :
    (entries.map name).Nodup := by
  rw [pathsOfAll_eq_flatMap, List.nodup_flatMap] at h
  refine List.pairwise_map.mpr (h.2.imp fun {e e'} hdisjoint hname ↦ ?_)
  exact hdisjoint e.name_mem_paths (hname ▸ e'.name_mem_paths)

theorem nodup_paths_of_mem {name : String} {entries inner : List Entry}
    (h : (pathsOfAll entries).Nodup) (hmem : .directory name inner ∈ entries) :
    (pathsOfAll inner).Nodup := by
  rw [pathsOfAll_eq_flatMap, List.nodup_flatMap] at h
  have hpaths := h.1 _ hmem
  rw [paths] at hpaths
  exact List.Nodup.of_map _ (List.nodup_cons.mp hpaths).2

end Entry

open Entry (revised revisedAll pathsOfAll)

/-! ### Writes as revisions -/

/-- The revision that gives a content to one path. -/
def revisionAt (parts : List String) (content : Bytes) (other : List String) : Option Bytes :=
  if other = parts then some content else none

/-- Among entries with different names, putting one in is changing the one that has its name. -/
theorem putEntry_eq_map {change : Entry → Entry} {old : Entry} {entries : List Entry}
    (hnames : (entries.map Entry.name).Nodup)
    (hfound : entryNamed? (change old).name entries = some old)
    (hother : ∀ e ∈ entries, e.name ≠ (change old).name → change e = e) :
    putEntry (change old) entries = entries.map change := by
  induction entries with
  | nil => cases hfound
  | cons entry rest ih =>
    obtain ⟨hnot, hrest⟩ := List.nodup_cons.mp hnames
    obtain ⟨hentry, hothers⟩ := List.forall_mem_cons.mp hother
    unfold putEntry
    by_cases hname : entry.name = (change old).name
    · have hold : entry = old := by simpa [entryNamed?, hname] using hfound
      have hkept : ∀ e ∈ rest, change e = id e := by
        refine fun e he ↦ hothers e he fun heq ↦ ?_
        exact hnot (List.mem_map.mpr ⟨e, he, heq.trans hname.symm⟩)
      rw [if_pos hname, List.map_cons, hold, List.map_congr_left hkept, List.map_id]
    · rw [entryNamed?, List.find?_cons_of_neg (by simpa using hname)] at hfound
      rw [if_neg hname, List.map_cons, hentry hname, ih hrest hfound hothers]

section Following

variable {entries : List Entry} {parts : List String} {old : Bytes}
  (hparts : ∀ part ∈ parts, part ≠ "..") (hfile : follow entries [] parts = .ok (.file old))

include hparts hfile

/-- Writing over a file revises it, and nothing else. -/
theorem writeAt_eq_revisedAll (hpaths : (pathsOfAll entries).Nodup) (content : Bytes) :
    writeAt content parts entries = revisedAll (revisionAt parts content) entries := by
  induction parts generalizing entries with
  | nil => cases hfile
  | cons part rest ih =>
    obtain ⟨hpart, hrest⟩ := List.forall_mem_cons.mp hparts
    have hnames := Entry.nodup_names_of_nodup_paths hpaths
    have hother : ∀ e ∈ entries, e.name ≠ part →
        e.revised (revisionAt (part :: rest) content) = e := by
      refine fun e _ hname ↦ e.revised_of_eq_none fun other hmem ↦ if_neg ?_
      rintro rfl
      exact hname (Option.some.inj (Entry.head?_of_mem_paths hmem)).symm
    rw [Entry.revisedAll_eq_map]
    obtain ⟨-, ⟨rfl, hfound⟩ | ⟨inner, hfound, hinner⟩⟩ := (follow_eq_file hpart hrest).mp hfile
    · have hnew : (Entry.file part old).revised (revisionAt [part] content) =
          .file part content := by
        rw [revised, revisionAt, if_pos rfl, Option.getD_some]
      rw [writeAt, ← hnew]
      exact putEntry_eq_map hnames (by rwa [hnew]) (by rwa [hnew])
    · have hnil := ne_nil_of_follow_eq_file hinner
      have hbelow : (pathsOfAll inner).Nodup :=
        Entry.nodup_paths_of_mem hpaths (List.mem_of_find?_eq_some hfound)
      have hnew : (Entry.directory part inner).revised (revisionAt (part :: rest) content) =
          .directory part (writeAt content rest inner) := by
        have hbeneath : (fun other ↦ revisionAt (part :: rest) content (part :: other)) =
            revisionAt rest content := by
          funext other
          simp only [revisionAt, List.cons.injEq, true_and]
        rw [revised, hbeneath, ih hrest hinner hbelow]
      rw [writeAt_cons hnil, entriesOf_eq hfound, ← hnew]
      exact putEntry_eq_map hnames (by rwa [hnew]) (by rwa [hnew])

/-- A file of a revision holds its new content, if it has one. -/
theorem follow_revisedAll (contents : List String → Option Bytes) :
    follow (revisedAll contents entries) [] parts = .ok (.file ((contents parts).getD old)) := by
  induction parts generalizing entries contents with
  | nil => cases hfile
  | cons part rest ih =>
    obtain ⟨hpart, hrest⟩ := List.forall_mem_cons.mp hparts
    have hentry : ∀ {e : Entry}, entryNamed? part entries = some e →
        entryNamed? part (revisedAll contents entries) = some (e.revised contents) := by
      intro e he
      rw [entryNamed?, Entry.revisedAll_eq_map, List.find?_map]
      simp only [Function.comp_def, Entry.name_revised]
      exact congrArg (Option.map (revised contents)) he
    obtain ⟨hshort, hcases⟩ := (follow_eq_file hpart hrest).mp hfile
    refine (follow_eq_file hpart hrest).mpr ⟨hshort, ?_⟩
    rcases hcases with ⟨rfl, hfound⟩ | ⟨inner, hfound, hinner⟩
    · exact Or.inl ⟨rfl, hentry hfound⟩
    · exact Or.inr ⟨_, hentry hfound, ih hrest hinner _⟩

end Following

/-! ### Disks -/

namespace Disk

/-- No two entries have the same path. -/
def IsTree (disk : Disk) : Prop :=
  (pathsOfAll disk.entries).Nodup

instance (disk : Disk) : Decidable disk.IsTree :=
  inferInstanceAs (Decidable (pathsOfAll disk.entries).Nodup)

/-- A disk with new contents for some of its files. -/
def revised (disk : Disk) (contents : List String → Option Bytes) : Disk :=
  { disk with entries := revisedAll contents disk.entries }

variable {disk : Disk} {path : Path} {old content : Bytes} {contents : List String → Option Bytes}

theorem IsTree.revised (h : disk.IsTree) (contents : List String → Option Bytes) :
    (disk.revised contents).IsTree := by
  unfold IsTree
  rw [Disk.revised, Entry.pathsOfAll_revisedAll]
  exact h

theorem revised_revised (disk : Disk) (first second : List String → Option Bytes) :
    (disk.revised first).revised second =
      disk.revised fun parts ↦ (second parts).or (first parts) := by
  unfold Disk.revised
  simp only [Entry.revisedAll_eq_map, List.map_map, Function.comp_def, Entry.revised_revised]

theorem revised_none (disk : Disk) : disk.revised (fun _ ↦ none) = disk := by
  have hentries : ∀ e ∈ disk.entries, e.revised (fun _ ↦ none) = id e :=
    fun e _ ↦ e.revised_of_eq_none fun _ _ ↦ rfl
  rw [Disk.revised, Entry.revisedAll_eq_map, List.map_congr_left hentries, List.map_id]

theorem read_eq_ok_iff : disk.read path = .ok content ↔ disk.find path = .ok (.file content) := by
  rw [read]
  match disk.find path with
  | .error fault => simp
  | .ok (.directory entries) => simp
  | .ok (.file found) => simp

/-- A file of a revised disk holds its new content, if it has one, and else what it held. -/
theorem find_revised (hpath : path.IsPlain) (hfile : disk.find path = .ok (.file old))
    (contents : List String → Option Bytes) :
    (disk.revised contents).find path = .ok (.file ((contents path.parts).getD old)) :=
  find_of_follow hpath hfile
    (follow_revisedAll (ne_dots_of_isPlain hpath) (follow_of_find hpath hfile) contents)

/-- Writing over a file is a revision. -/
theorem write_eq_revised (htree : disk.IsTree) (hpath : path.IsPlain)
    (hfile : disk.find path = .ok (.file old)) (content : Bytes) :
    disk.write path content = disk.revised (revisionAt path.parts content) := by
  rw [write, absolute, hpath.absolute_eq, writeAt_eq_revisedAll (ne_dots_of_isPlain hpath)
    (follow_of_find hpath hfile) htree]
  rfl

/-- The last of some writes at a path. -/
def lastWrite : List (Path × Bytes) → List String → Option Bytes
  | [], _ => none
  | write :: rest, parts =>
    (lastWrite rest parts).or (revisionAt write.1.parts write.2 parts)

/-- Writing over any number of files is the revision by the last write at each path. -/
theorem writeAll_eq_revised (htree : disk.IsTree) {writes : List (Path × Bytes)}
    (h : ∀ write ∈ writes, write.1.IsPlain ∧ ∃ old, disk.find write.1 = .ok (.file old)) :
    disk.writeAll writes = disk.revised (lastWrite writes) := by
  induction writes generalizing disk with
  | nil => exact disk.revised_none.symm
  | cons write rest ih =>
    obtain ⟨⟨hpath, old, hfile⟩, hrest⟩ := List.forall_mem_cons.mp h
    have hstep := write_eq_revised htree hpath hfile write.2
    have hnext : ∀ other ∈ rest, other.1.IsPlain ∧
        ∃ old, (disk.write write.1 write.2).find other.1 = .ok (.file old) := by
      intro other hother
      obtain ⟨hplain, held, hheld⟩ := hrest other hother
      rw [hstep]
      exact ⟨hplain, _, find_revised hplain hheld _⟩
    change (disk.write write.1 write.2).writeAll rest = _
    rw [ih (hstep ▸ htree.revised _) hnext, hstep, revised_revised]
    rfl

section LastWrite

variable {writes : List (Path × Bytes)} {parts : List String}

theorem exists_of_lastWrite (h : lastWrite writes parts = some content) :
    ∃ write ∈ writes, write.1.parts = parts ∧ write.2 = content := by
  induction writes with
  | nil => cases h
  | cons write rest ih =>
    rw [lastWrite, Option.or_eq_some_iff] at h
    rcases h with hlater | ⟨-, hnow⟩
    · obtain ⟨other, hother, hwrite⟩ := ih hlater
      exact ⟨other, List.mem_cons_of_mem _ hother, hwrite⟩
    · rw [revisionAt, Option.ite_none_right_eq_some] at hnow
      exact ⟨write, List.mem_cons_self, hnow.1.symm, Option.some.inj hnow.2⟩

theorem lastWrite_ne_none {write : Path × Bytes} (h : write ∈ writes) :
    lastWrite writes write.1.parts ≠ none := by
  induction writes with
  | nil => cases h
  | cons first rest ih =>
    intro hnone
    rw [lastWrite, Option.or_eq_none_iff] at hnone
    rcases List.mem_cons.mp h with rfl | h
    · rw [revisionAt, if_pos rfl] at hnone
      cases hnone.2
    · exact ih h hnone.1

/-- What is written at a path, if all writes there agree. -/
theorem lastWrite_eq_some_iff
    (hsame : ∀ write ∈ writes, ∀ other ∈ writes, write.1.parts = other.1.parts →
      write.2 = other.2) :
    lastWrite writes parts = some content ↔
      ∃ write ∈ writes, write.1.parts = parts ∧ write.2 = content := by
  refine ⟨exists_of_lastWrite, ?_⟩
  rintro ⟨write, hwrite, rfl, rfl⟩
  obtain ⟨last, hlast⟩ := Option.ne_none_iff_exists'.mp (lastWrite_ne_none hwrite)
  obtain ⟨other, hother, hparts, rfl⟩ := exists_of_lastWrite hlast
  rw [hlast, hsame other hother write hwrite hparts]

end LastWrite

end Disk

end TagScope
