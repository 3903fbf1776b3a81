import TagScope.Files.Disk
import TagScope.Ignore.File
import TagScope.Proofs.Files.Path

/-!
# Writing over files

The outline of an entry is what is left of it without the contents of its files, those of ignore
files apart. Two disks with the same outline have the same directories and the same files, which may
differ in what they hold (`SameOutline.find_cases`).

Writing over a file that is there and is no ignore file leaves the outline (`sameOutline_write`).
The file then holds what was written (`find_write_self`), and every other file what it held before
(`find_write_of_ne`). Both go through to any number of writes (`sameOutline_writeAll`,
`find_writeAll_of_mem`, `find_writeAll_of_ne`).
-/

set_option autoImplicit false

namespace TagScope

/-! ### Outlines -/

namespace Entry

/-- A property of all entries follows from its inheritance by directories. -/
theorem induction {P : Entry → Prop} (file : ∀ name content, P (.file name content))
    (directory : ∀ name entries, (∀ e ∈ entries, P e) → P (.directory name entries))
    (e : Entry) : P e := by
  refine Entry.rec (motive_1 := P) (motive_2 := fun es ↦ ∀ e ∈ es, P e) file ?_ ?_ ?_ e
  · intro name entries ih
    exact directory name entries ih
  · simp
  · intro e es he hes
    simpa using ⟨he, hes⟩

mutual

/-- An entry without the contents of its files, those of ignore files apart. -/
def outline : Entry → Entry
  | .file name content => .file name (if name = Ignore.fileName then content else [])
  | .directory name entries => .directory name (outlineAll entries)

def outlineAll : List Entry → List Entry
  | [] => []
  | entry :: rest => entry.outline :: outlineAll rest

end

theorem outlineAll_eq_map (entries : List Entry) : outlineAll entries = entries.map outline := by
  induction entries with
  | nil => rfl
  | cons entry rest ih => rw [outlineAll, ih, List.map_cons]

@[simp] theorem name_outline (e : Entry) : e.outline.name = e.name := by
  cases e <;> rfl

end Entry

open Entry (outline outlineAll)

theorem entryNamed?_outlineAll (name : String) (entries : List Entry) :
    entryNamed? name (outlineAll entries) = (entryNamed? name entries).map outline := by
  rw [entryNamed?, Entry.outlineAll_eq_map, List.find?_map, entryNamed?]
  have hname : ((fun entry : Entry ↦ decide (entry.name = name)) ∘ outline) =
      fun entry ↦ decide (entry.name = name) := by
    funext entry
    simp
  rw [hname]

theorem name_of_entryNamed? {name : String} {entries : List Entry} {e : Entry}
    (h : entryNamed? name entries = some e) : e.name = name := by
  simpa using List.find?_some h

theorem follow_dots (here : List Entry) (above : List (List Entry)) (rest : List String) :
    follow here above (".." :: rest) = follow (above.head?.getD here) above.tail rest := by
  cases above <;> rfl

theorem follow_cons {part : String} (hdots : part ≠ "..") (here : List Entry)
    (above : List (List Entry)) (rest : List String) :
    follow here above (part :: rest) =
      if longestName < byteCount part then .error .nameTooLong
      else
        match entryNamed? part here with
        | none => .error .missing
        | some (.directory _ entries) => follow entries (here :: above) rest
        | some (.file _ content) =>
          if rest.isEmpty then .ok (.file content) else .error .notDirectory := by
  rw [follow.eq_def]
  exact if_neg hdots

/-- What a path leads to, without contents. -/
def Found.outline : Found → Found
  | .file _ => .file []
  | .directory entries => .directory (outlineAll entries)

/-- Where a path leads is the same in trees with the same outline. -/
theorem map_outline_follow (parts : List String) :
    ∀ {here here' : List Entry} {above above' : List (List Entry)},
      outlineAll here = outlineAll here' → above.map outlineAll = above'.map outlineAll →
        (follow here above parts).map Found.outline =
          (follow here' above' parts).map Found.outline := by
  induction parts with
  | nil =>
    intro here here' above above' hhere habove
    exact congrArg (fun entries ↦ Except.ok (Found.directory entries)) hhere
  | cons part rest ih =>
    intro here here' above above' hhere habove
    by_cases hdots : part = ".."
    · subst hdots
      rw [follow_dots, follow_dots]
      match above, above', habove with
      | [], [], _ => exact ih hhere rfl
      | up :: higher, up' :: higher', habove =>
        obtain ⟨hup, hhigher⟩ := List.cons.inj habove
        exact ih hup hhigher
    rw [follow_cons hdots, follow_cons hdots]
    by_cases hlong : longestName < byteCount part
    · rw [if_pos hlong, if_pos hlong]
    rw [if_neg hlong, if_neg hlong]
    have hentry : (entryNamed? part here).map outline = (entryNamed? part here').map outline := by
      rw [← entryNamed?_outlineAll, hhere, entryNamed?_outlineAll]
    match hfound : entryNamed? part here, hfound' : entryNamed? part here' with
    | none, none => rfl
    | none, some _ => rw [hfound, hfound'] at hentry; cases hentry
    | some _, none => rw [hfound, hfound'] at hentry; cases hentry
    | some (.file _ _), some (.file _ _) => cases rest <;> rfl
    | some (.directory _ _), some (.file _ _) => rw [hfound, hfound'] at hentry; cases hentry
    | some (.file _ _), some (.directory _ _) => rw [hfound, hfound'] at hentry; cases hentry
    | some (.directory _ inner), some (.directory _ inner') =>
      rw [hfound, hfound'] at hentry
      have hinner : outlineAll inner = outlineAll inner' :=
        (Entry.directory.inj (Option.some.inj hentry)).2
      exact ih hinner (by rw [List.map_cons, List.map_cons, hhere, habove])

/-! ### Putting entries in -/

theorem entryNamed?_putEntry (e : Entry) (entries : List Entry) (name : String) :
    entryNamed? name (putEntry e entries) =
      if name = e.name then some e else entryNamed? name entries := by
  induction entries with
  | nil =>
    by_cases hname : name = e.name
    · simp [putEntry, entryNamed?, hname]
    · simp [putEntry, entryNamed?, hname, Ne.symm hname]
  | cons other rest ih =>
    unfold putEntry
    by_cases hother : other.name = e.name
    · rw [if_pos hother]
      by_cases hname : name = e.name
      · simp [entryNamed?, hname]
      · simp [entryNamed?, hname, hother, Ne.symm hname]
    · rw [if_neg hother]
      by_cases hname : name = other.name
      · have hne : name ≠ e.name := hname ▸ hother
        simp [entryNamed?, hname, hother]
      · rw [entryNamed?, List.find?_cons_of_neg (by simpa using Ne.symm hname), entryNamed?,
          List.find?_cons_of_neg (by simpa using Ne.symm hname)]
        exact ih

theorem outlineAll_putEntry {e old : Entry} {entries : List Entry}
    (hfound : entryNamed? e.name entries = some old) (h : e.outline = old.outline) :
    outlineAll (putEntry e entries) = outlineAll entries := by
  induction entries with
  | nil => cases hfound
  | cons other rest ih =>
    unfold putEntry
    by_cases hother : other.name = e.name
    · have hold : other = old := by simpa [entryNamed?, hother] using hfound
      rw [if_pos hother, outlineAll, outlineAll, h, hold]
    · rw [entryNamed?, List.find?_cons_of_neg (by simpa using hother)] at hfound
      rw [if_neg hother, outlineAll, outlineAll, ih hfound]

/-! ### Files on the way -/

section Following

variable {here entries : List Entry} {above : List (List Entry)} {part : String}
  {rest parts : List String} {content old : Bytes}

/-- A path without two dots does not lead back. -/
theorem follow_above (hparts : ∀ part ∈ parts, part ≠ "..") (above above' : List (List Entry)) :
    follow here above parts = follow here above' parts := by
  induction parts generalizing here above above' with
  | nil => rfl
  | cons part rest ih =>
    obtain ⟨hpart, hrest⟩ := List.forall_mem_cons.mp hparts
    rw [follow_cons hpart, follow_cons hpart]
    split
    · rfl
    · split
      · rfl
      · exact ih hrest _ _
      · rfl

/-- A path leads to a file through the directories that its parts name. -/
theorem follow_eq_file (hpart : part ≠ "..") (hrest : ∀ part ∈ rest, part ≠ "..") :
    follow here [] (part :: rest) = .ok (.file content) ↔
      byteCount part ≤ longestName ∧
        ((rest = [] ∧ entryNamed? part here = some (.file part content)) ∨
          ∃ inner, entryNamed? part here = some (.directory part inner) ∧
            follow inner [] rest = .ok (.file content)) := by
  rw [follow_cons hpart]
  by_cases hlong : longestName < byteCount part
  · rw [if_pos hlong]
    constructor
    · intro h
      cases h
    · intro h
      omega
  have hshort : byteCount part ≤ longestName := Nat.le_of_not_lt hlong
  rw [if_neg hlong]
  match hfound : entryNamed? part here with
  | none => simp
  | some (.file name found) =>
    obtain rfl : name = part := name_of_entryNamed? hfound
    cases rest <;> simp [hshort]
  | some (.directory name inner) =>
    obtain rfl : name = part := name_of_entryNamed? hfound
    simp [hshort, follow_above hrest [here] []]

theorem entriesOf_eq {name : String} {inner : List Entry}
    (h : entryNamed? name entries = some (.directory name inner)) :
    entriesOf name entries = inner := by
  rw [entriesOf, h]

theorem writeAt_cons (hrest : rest ≠ []) (content : Bytes) (entries : List Entry) :
    writeAt content (part :: rest) entries =
      putEntry (.directory part (writeAt content rest (entriesOf part entries))) entries := by
  cases rest with
  | nil => exact absurd rfl hrest
  | cons next more => rfl

theorem ne_nil_of_follow_eq_file (h : follow here above rest = .ok (.file content)) :
    rest ≠ [] := by
  rintro rfl
  cases h

variable (hparts : ∀ part ∈ parts, part ≠ "..") (hfile : follow entries [] parts = .ok (.file old))

include hparts hfile

/-- Writing over a file that is no ignore file leaves the outline. -/
theorem outlineAll_writeAt (hname : parts.getLast? ≠ some Ignore.fileName) (content : Bytes) :
    outlineAll (writeAt content parts entries) = outlineAll entries := by
  induction parts generalizing entries with
  | nil => cases hfile
  | cons part rest ih =>
    obtain ⟨hpart, hrest⟩ := List.forall_mem_cons.mp hparts
    obtain ⟨-, ⟨rfl, hfound⟩ | ⟨inner, hfound, hinner⟩⟩ := (follow_eq_file hpart hrest).mp hfile
    · have hne : part ≠ Ignore.fileName := fun heq ↦ hname (by rw [heq]; rfl)
      refine outlineAll_putEntry hfound ?_
      rw [outline, outline, if_neg hne, if_neg hne]
    · have hnil := ne_nil_of_follow_eq_file hinner
      have hlast : rest.getLast? ≠ some Ignore.fileName := by
        obtain ⟨next, more, rfl⟩ := List.exists_cons_of_ne_nil hnil
        rwa [List.getLast?_cons_cons] at hname
      rw [writeAt_cons hnil, entriesOf_eq hfound]
      refine outlineAll_putEntry hfound ?_
      rw [outline, outline, ih hrest hinner hlast]

/-- The file that was written over holds what was written. -/
theorem follow_writeAt_self (content : Bytes) :
    follow (writeAt content parts entries) [] parts = .ok (.file content) := by
  induction parts generalizing entries with
  | nil => cases hfile
  | cons part rest ih =>
    obtain ⟨hpart, hrest⟩ := List.forall_mem_cons.mp hparts
    obtain ⟨hshort, ⟨rfl, hfound⟩ | ⟨inner, hfound, hinner⟩⟩ :=
      (follow_eq_file hpart hrest).mp hfile
    · refine (follow_eq_file hpart hrest).mpr ⟨hshort, Or.inl ⟨rfl, ?_⟩⟩
      rw [writeAt, entryNamed?_putEntry]
      exact if_pos rfl
    · have hnil := ne_nil_of_follow_eq_file hinner
      refine (follow_eq_file hpart hrest).mpr ⟨hshort, Or.inr ⟨_, ?_, ih hrest hinner⟩⟩
      rw [writeAt_cons hnil, entriesOf_eq hfound, entryNamed?_putEntry]
      exact if_pos rfl

/-- Every other file holds what it held before. -/
theorem follow_writeAt_of_ne {other : List String} (hother : ∀ part ∈ other, part ≠ "..")
    (hne : other ≠ parts) {kept : Bytes} (hkept : follow entries [] other = .ok (.file kept))
    (content : Bytes) :
    follow (writeAt content parts entries) [] other = .ok (.file kept) := by
  induction parts generalizing entries other with
  | nil => cases hfile
  | cons part rest ih =>
    obtain ⟨hpart, hrest⟩ := List.forall_mem_cons.mp hparts
    obtain ⟨next, more, rfl⟩ := List.exists_cons_of_ne_nil (ne_nil_of_follow_eq_file hkept)
    obtain ⟨hnext, hmore⟩ := List.forall_mem_cons.mp hother
    obtain ⟨hshort, hcases⟩ := (follow_eq_file hnext hmore).mp hkept
    refine (follow_eq_file hnext hmore).mpr ⟨hshort, ?_⟩
    obtain ⟨-, ⟨rfl, hfound⟩ | ⟨inner, hfound, hinner⟩⟩ := (follow_eq_file hpart hrest).mp hfile
    · -- The file is here. A path that begins with its name is its path, or leads through a file.
      have hdiffers : next ≠ part := by
        rintro rfl
        rcases hcases with ⟨rfl, -⟩ | ⟨inner, hdirectory, -⟩
        · exact hne rfl
        · rw [hfound] at hdirectory
          cases hdirectory
      rwa [writeAt, entryNamed?_putEntry, Entry.name, if_neg hdiffers]
    · have hnil := ne_nil_of_follow_eq_file hinner
      rw [writeAt_cons hnil, entriesOf_eq hfound, entryNamed?_putEntry, Entry.name]
      by_cases hsame : next = part
      · subst hsame
        rw [hfound] at hcases
        rcases hcases with ⟨-, hnot⟩ | ⟨inner', hdirectory, hkept⟩
        · cases hnot
        · obtain ⟨-, rfl⟩ := Entry.directory.inj (Option.some.inj hdirectory)
          have hmoreNe : more ≠ rest := fun heq ↦ hne (by rw [heq])
          exact Or.inr ⟨_, if_pos rfl, ih hrest hinner hmore hmoreNe hkept⟩
      · rwa [if_neg hsame]

end Following

/-! ### Disks -/

namespace Disk

/-- Disks that differ at most in what their files hold, ignore files apart. -/
structure SameOutline (disk disk' : Disk) : Prop where
  entries : outlineAll disk'.entries = outlineAll disk.entries
  cwd : disk'.cwd = disk.cwd

variable {disk disk' disk'' : Disk} {path other : Path} {content old kept : Bytes}

theorem SameOutline.refl (disk : Disk) : SameOutline disk disk :=
  ⟨rfl, rfl⟩

theorem SameOutline.trans (h : SameOutline disk disk') (h' : SameOutline disk' disk'') :
    SameOutline disk disk'' :=
  ⟨h'.entries.trans h.entries, h'.cwd.trans h.cwd⟩

/-- A path leads to the same, without contents. -/
theorem SameOutline.find_eq (h : SameOutline disk disk') (path : Path) :
    (disk'.find path).map Found.outline = (disk.find path).map Found.outline := by
  unfold find
  rw [h.cwd]
  split
  · rfl
  · split
    · rfl
    · exact map_outline_follow _ h.entries rfl

/-- Two disks with the same outline have the same fault at a path, or both a file, or both a
directory with the same outline. -/
theorem SameOutline.find_cases (h : SameOutline disk disk') (path : Path) :
    (∃ fault, disk.find path = .error fault ∧ disk'.find path = .error fault) ∨
      (∃ content content', disk.find path = .ok (.file content) ∧
        disk'.find path = .ok (.file content')) ∨
      ∃ entries entries', disk.find path = .ok (.directory entries) ∧
        disk'.find path = .ok (.directory entries') ∧
          outlineAll entries' = outlineAll entries := by
  have hfind := h.find_eq path
  match hfound : disk.find path, hfound' : disk'.find path with
  | .error fault, .error fault' =>
    rw [hfound, hfound'] at hfind
    obtain rfl := Except.error.inj hfind
    exact Or.inl ⟨fault', rfl, rfl⟩
  | .ok (.file content), .ok (.file content') =>
    exact Or.inr (Or.inl ⟨content, content', rfl, rfl⟩)
  | .ok (.directory entries), .ok (.directory entries') =>
    rw [hfound, hfound'] at hfind
    exact Or.inr (Or.inr ⟨entries, entries', rfl, rfl, Found.directory.inj (Except.ok.inj hfind)⟩)
  | .error _, .ok _ => rw [hfound, hfound'] at hfind; cases hfind
  | .ok _, .error _ => rw [hfound, hfound'] at hfind; cases hfind
  | .ok (.file _), .ok (.directory _) => rw [hfound, hfound'] at hfind; cases hfind
  | .ok (.directory _), .ok (.file _) => rw [hfound, hfound'] at hfind; cases hfind

theorem find_of_isPlain (h : path.IsPlain) (disk : Disk) :
    disk.find path =
      if path.hasNull then .error .nullByte
      else if longestPath < byteCount path.toText then .error .nameTooLong
      else follow disk.entries [] path.parts := by
  obtain ⟨anchor, parts⟩ := path
  cases anchor with
  | relative => exact absurd rfl h.anchored
  | root => rfl
  | doubleRoot => rfl

theorem follow_of_find (h : path.IsPlain) {found : Found} (hfound : disk.find path = .ok found) :
    follow disk.entries [] path.parts = .ok found := by
  rw [find_of_isPlain h] at hfound
  split at hfound
  · cases hfound
  · split at hfound
    · cases hfound
    · exact hfound

/-- Whether a path can be looked up at all does not depend on the disk. -/
theorem find_of_follow (h : path.IsPlain) (hfile : disk.find path = .ok (.file old))
    (hfollow : follow disk'.entries [] path.parts = .ok (.file content)) :
    disk'.find path = .ok (.file content) := by
  rw [find_of_isPlain h] at hfile ⊢
  split at hfile
  · cases hfile
  next hnull =>
    split at hfile
    · cases hfile
    next hlong => rw [if_neg hnull, if_neg hlong, hfollow]

/-- A path to a file that can be written over: it is plain, and the file is no ignore file. -/
structure Replaces (disk : Disk) (path : Path) : Prop where
  isPlain : path.IsPlain
  name_ne : path.name ≠ Ignore.fileName
  isFile : ∃ old, disk.find path = .ok (.file old)

theorem Replaces.of_sameOutline (h : disk.Replaces path) (hsame : SameOutline disk disk') :
    disk'.Replaces path := by
  refine ⟨h.isPlain, h.name_ne, ?_⟩
  obtain ⟨old, hold⟩ := h.isFile
  rcases hsame.find_cases path with ⟨fault, hfind, -⟩ | ⟨content, content', -, hfind'⟩ |
    ⟨entries, entries', hfind, -, -⟩
  · rw [hold] at hfind
    cases hfind
  · exact ⟨content', hfind'⟩
  · rw [hold] at hfind
    cases hfind

theorem Replaces.write_eq (h : disk.Replaces path) (content : Bytes) :
    disk.write path content = { disk with entries := writeAt content path.parts disk.entries } := by
  rw [write, absolute, h.isPlain.absolute_eq]

theorem ne_dots_of_isPlain (h : path.IsPlain) : ∀ part ∈ path.parts, part ≠ ".." :=
  fun part hpart ↦ (h.isName part hpart).ne_dots

theorem sameOutline_write (h : disk.Replaces path) (content : Bytes) :
    SameOutline disk (disk.write path content) := by
  obtain ⟨old, hold⟩ := h.isFile
  have hname : path.parts.getLast? ≠ some Ignore.fileName := by
    intro hlast
    refine h.name_ne ?_
    rw [Path.name, List.getLastD_eq_getLast?, hlast, Option.getD_some]
  rw [h.write_eq]
  exact ⟨outlineAll_writeAt (ne_dots_of_isPlain h.isPlain) (follow_of_find h.isPlain hold) hname
    content, rfl⟩

/-- A file holds what was written at its place, whichever way the path is anchored. -/
theorem find_write_self (h : disk.Replaces path) (hother : other.IsPlain)
    (hparts : other.parts = path.parts) (hold : disk.find other = .ok (.file old))
    (content : Bytes) : (disk.write path content).find other = .ok (.file content) := by
  rw [h.write_eq]
  refine find_of_follow hother hold ?_
  have hfollow := follow_of_find hother hold
  rw [hparts] at hfollow ⊢
  exact follow_writeAt_self (ne_dots_of_isPlain h.isPlain) hfollow content

theorem find_write_of_ne (h : disk.Replaces path) (hother : other.IsPlain)
    (hparts : other.parts ≠ path.parts) (hkept : disk.find other = .ok (.file kept))
    (content : Bytes) : (disk.write path content).find other = .ok (.file kept) := by
  obtain ⟨old, hold⟩ := h.isFile
  rw [h.write_eq]
  exact find_of_follow hother hkept (follow_writeAt_of_ne (ne_dots_of_isPlain h.isPlain)
    (follow_of_find h.isPlain hold) (ne_dots_of_isPlain hother) hparts
    (follow_of_find hother hkept) content)

/-! ### Many writes -/

/-- Writes some contents at some paths, one after the other. -/
def writeAll (disk : Disk) (writes : List (Path × Bytes)) : Disk :=
  writes.foldl (fun disk write ↦ disk.write write.1 write.2) disk

variable {write : Path × Bytes} {writes rest : List (Path × Bytes)}

/-- After the first of some writes, the others still have a file to write over. -/
theorem replaces_write (h : ∀ other ∈ write :: rest, disk.Replaces other.1) :
    ∀ other ∈ rest, (disk.write write.1 write.2).Replaces other.1 := by
  obtain ⟨hwrite, hrest⟩ := List.forall_mem_cons.mp h
  exact fun other hother ↦ (hrest other hother).of_sameOutline (sameOutline_write hwrite write.2)

theorem sameOutline_writeAll (h : ∀ write ∈ writes, disk.Replaces write.1) :
    SameOutline disk (disk.writeAll writes) := by
  induction writes generalizing disk with
  | nil => exact .refl disk
  | cons write rest ih =>
    have hstep := sameOutline_write (h write List.mem_cons_self) write.2
    exact hstep.trans (ih (replaces_write h))

/-- A file at none of the places that are written holds what it held. -/
theorem find_writeAll_of_ne (h : ∀ write ∈ writes, disk.Replaces write.1) (hpath : path.IsPlain)
    (hne : ∀ write ∈ writes, path.parts ≠ write.1.parts)
    (hkept : disk.find path = .ok (.file kept)) :
    (disk.writeAll writes).find path = .ok (.file kept) := by
  induction writes generalizing disk with
  | nil => exact hkept
  | cons write rest ih =>
    obtain ⟨hfirst, hothers⟩ := List.forall_mem_cons.mp hne
    have hnow := find_write_of_ne (h write List.mem_cons_self) hpath hfirst hkept write.2
    exact ih (replaces_write h) hothers hnow

/-- A file holds what is written at its place, if that is always the same. -/
theorem find_writeAll_of_mem (h : ∀ write ∈ writes, disk.Replaces write.1) (hpath : path.IsPlain)
    (hsame : ∀ write ∈ writes, path.parts = write.1.parts → write.2 = content)
    (hmem : ∃ write ∈ writes, path.parts = write.1.parts)
    (hold : disk.find path = .ok (.file old)) :
    (disk.writeAll writes).find path = .ok (.file content) := by
  induction writes generalizing disk old with
  | nil =>
    obtain ⟨write, hwrite, -⟩ := hmem
    simp at hwrite
  | cons write rest ih =>
    have hwrite := h write List.mem_cons_self
    obtain ⟨hfirst, hothers⟩ := List.forall_mem_cons.mp hsame
    obtain ⟨now, hnow, heq⟩ : ∃ now, (disk.write write.1 write.2).find path = .ok (.file now) ∧
        (path.parts = write.1.parts → now = content) := by
      by_cases hparts : path.parts = write.1.parts
      · exact ⟨write.2, find_write_self hwrite hpath hparts hold write.2, hfirst⟩
      · exact ⟨old, find_write_of_ne hwrite hpath hparts hold write.2, fun h ↦ absurd h hparts⟩
    change ((disk.write write.1 write.2).writeAll rest).find path = .ok (.file content)
    -- The last write at the place decides: a later one if there is any, and else this one.
    by_cases hagain : ∃ other ∈ rest, path.parts = other.1.parts
    · exact ih (replaces_write h) hothers hagain hnow
    · have hparts : path.parts = write.1.parts := by
        obtain ⟨other, hother, hparts⟩ := hmem
        rcases List.mem_cons.mp hother with rfl | hother
        · exact hparts
        · exact absurd ⟨other, hother, hparts⟩ hagain
      rw [heq hparts] at hnow
      exact find_writeAll_of_ne (replaces_write h) hpath (fun other hother hparts ↦
        hagain ⟨other, hother, hparts⟩) hnow

end Disk

end TagScope
