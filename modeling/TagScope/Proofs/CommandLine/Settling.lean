import TagScope.CommandLine.Run
import TagScope.Proofs.Lint.Rereading

/-!
# Settling results

To settle results is to write their fixes and to print what is left. What is left of a result is
`settled`, and what is written for it are the `writesOf`. Settling with fixes is settling what is
left without fixes, on the disk with all of it written (`settle_fix`).

What is left of a result is what the same file gives when it is read again from that disk
(`settled_eq_attempt`). Two ways to name a file, with one leading slash or with two, lead to the
same content and the same grammar, so whatever is written at a place is written there always.
-/

set_option autoImplicit false

namespace TagScope.CommandLine

open Lint (attempt resultOf attempt_eq)

variable (parser : Parser) (settings : Settings)

/-! ### What is left of a result -/

/-- What is left of a result once its fixes are written. -/
def settled (result : FileReport) : Except ImportFault FileReport :=
  match fixedText? true result with
  | none => .ok { result with output := none }
  | some text => (Lint.text parser settings result.filename text).map fun remaining ↦
      { result with diagnostics := remaining, output := none }

/-- What is written for some results. -/
def writesOf (results : List FileReport) : List (Path × Bytes) :=
  results.filterMap fun result ↦ (fixedText? true result).map fun text ↦
    (Path.ofText result.filename, Utf8.encode text.toList)

theorem settle_cons_false (disk : Disk) (printed : List String) (problems : Nat)
    (result : FileReport) (rest : List FileReport) :
    settle parser settings false disk printed problems (result :: rest) =
      settle parser settings false disk (printed ++ result.lines) (problems + result.problems)
        rest :=
  rfl

/-- Settling with fixes, if it comes to an end, is settling what is left without fixes. -/
theorem settle_fix {disk : Disk} {printed : List String} {problems total : Nat}
    {results : List FileReport}
    (h : (settle parser settings true disk printed problems results).ending = .finished total) :
    ∃ left, results.map (settled parser settings) = left.map .ok ∧
      settle parser settings true disk printed problems results =
        settle parser settings false (disk.writeAll (writesOf results)) printed problems left := by
  induction results generalizing disk printed problems with
  | nil => exact ⟨[], rfl, rfl⟩
  | cons result rest ih =>
    rw [settle] at h ⊢
    cases htext : fixedText? true result with
    | none =>
      rw [htext] at h
      obtain ⟨left, hleft, hsettle⟩ := ih h
      refine ⟨{ result with output := none } :: left, ?_, ?_⟩
      · rw [List.map_cons, List.map_cons, settled, htext, hleft]
      · rw [writesOf, List.filterMap_cons_none (by rw [htext]; rfl), settle_cons_false]
        exact hsettle
    | some text =>
      rw [htext] at h
      dsimp only at h ⊢
      cases hlint : Lint.text parser settings result.filename text with
      | error fault => rw [hlint] at h; cases h
      | ok remaining =>
        rw [hlint] at h
        obtain ⟨left, hleft, hsettle⟩ := ih h
        refine ⟨{ result with diagnostics := remaining, output := none } :: left, ?_, ?_⟩
        · rw [List.map_cons, List.map_cons, settled, htext, hleft]
          dsimp only
          rw [hlint]
          rfl
        · rw [writesOf, List.filterMap_cons_some (by rw [htext]; rfl), settle_cons_false]
          exact hsettle

/-! ### Results from texts -/

section Results

variable {filename other : String} {content : Except FileError String}

theorem resultOf_of_lint {source : String} {diagnostics : List Diagnostic}
    (h : Lint.text parser settings filename source = .ok diagnostics) :
    resultOf parser settings true filename (.ok source) =
      ⟨filename, diagnostics, none, some (fixedText source diagnostics)⟩ := by
  rw [resultOf, h]
  rfl

/-- There is something to write only for a file that could be read and linted. -/
theorem exists_of_fixedText? {fixed : String}
    (h : fixedText? true (resultOf parser settings true filename content) = some fixed) :
    ∃ source diagnostics, content = .ok source ∧
      Lint.text parser settings filename source = .ok diagnostics ∧
      fixed = fixedText source diagnostics := by
  cases content with
  | error error => cases h
  | ok source =>
    cases hlint : Lint.text parser settings filename source with
    | error fault => rw [resultOf, hlint] at h; cases h
    | ok diagnostics =>
      rw [resultOf_of_lint parser settings hlint, fixedText?] at h
      split at h
      next => exact ⟨source, diagnostics, rfl, hlint, (Option.some.inj h).symm⟩
      next => cases h

theorem settled_of_none
    (h : fixedText? true (resultOf parser settings true filename content) = none) :
    settled parser settings (resultOf parser settings true filename content) =
      .ok (resultOf parser settings false filename content) := by
  rw [settled, h]
  dsimp only
  cases content with
  | error error => rfl
  | ok source =>
    rw [resultOf, resultOf]
    cases Lint.text parser settings filename source with
    | error fault => rfl
    | ok diagnostics => rfl

theorem settled_of_some {fixed : String} {left : FileReport}
    (h : fixedText? true (resultOf parser settings true filename content) = some fixed)
    (hleft : settled parser settings (resultOf parser settings true filename content) = .ok left) :
    left = resultOf parser settings false filename (.ok fixed) := by
  obtain ⟨source, diagnostics, rfl, hlint, -⟩ := exists_of_fixedText? parser settings h
  rw [settled, h, resultOf_of_lint parser settings hlint] at hleft
  dsimp only at hleft
  rw [resultOf]
  cases hagain : Lint.text parser settings filename fixed with
  | error fault => rw [hagain] at hleft; cases hleft
  | ok remaining =>
    rw [hagain] at hleft
    exact (Except.ok.inj hleft).symm

/-- What is to be written depends on the file name through the grammar alone. -/
theorem fixedText?_resultOf_eq (h : FileName.grammar other = FileName.grammar filename) :
    fixedText? true (resultOf parser settings true other content) =
      fixedText? true (resultOf parser settings true filename content) := by
  cases content with
  | error error => rfl
  | ok source =>
    have hlint : Lint.text parser settings other source =
        Lint.text parser settings filename source := by
      rw [Lint.text, Lint.document, h]
      rfl
    rw [resultOf, resultOf, hlint]
    cases Lint.text parser settings filename source with
    | error fault => rfl
    | ok diagnostics => rfl

end Results

/-! ### Reading again -/

/-- A file name that means a plain path, and no ignore file. -/
structure IsTarget (filename : String) : Prop where
  isPlain : (Path.ofText filename).IsPlain
  name_ne : (Path.ofText filename).name ≠ Ignore.fileName

theorem filename_attempt (disk : Disk) (fix : Bool) (filename : String) :
    (attempt parser disk settings fix filename).filename = filename := by
  rw [attempt_eq]
  cases Lint.read disk filename with
  | error error => rfl
  | ok source =>
    rw [resultOf]
    cases Lint.text parser settings filename source with
    | error fault => rfl
    | ok diagnostics => rfl

variable {disk : Disk} {filenames : List String}

theorem mem_writesOf_attempts {write : Path × Bytes} :
    write ∈ writesOf (filenames.map (attempt parser disk settings true)) ↔
      ∃ filename ∈ filenames, ∃ fixed,
        fixedText? true (attempt parser disk settings true filename) = some fixed ∧
          (Path.ofText filename, Utf8.encode fixed.toList) = write := by
  rw [writesOf, List.filterMap_map, List.mem_filterMap]
  simp only [Function.comp_apply, Option.map_eq_some_iff, filename_attempt]

theorem exists_find_of_fixedText? {filename fixed : String}
    (h : fixedText? true (attempt parser disk settings true filename) = some fixed) :
    ∃ content, disk.find (Path.ofText filename) = .ok (.file content) := by
  rw [attempt_eq] at h
  obtain ⟨source, diagnostics, hread, -, -⟩ := exists_of_fixedText? parser settings h
  exact Lint.exists_find_of_read hread

/-- At one place there is one text to be written, whichever way the place is named. -/
theorem fixedText?_attempt_eq {filename other : String}
    (hfilename : (Path.ofText filename).IsPlain) (hother : (Path.ofText other).IsPlain)
    (hparts : (Path.ofText other).parts = (Path.ofText filename).parts) {content content' : Bytes}
    (hfind : disk.find (Path.ofText filename) = .ok (.file content))
    (hfind' : disk.find (Path.ofText other) = .ok (.file content')) :
    fixedText? true (attempt parser disk settings true other) =
      fixedText? true (attempt parser disk settings true filename) := by
  have hcontent : content' = content := by
    have hfollow := Disk.follow_of_find hother hfind'
    rw [hparts, Disk.follow_of_find hfilename hfind] at hfollow
    exact (Found.file.inj (Except.ok.inj hfollow)).symm
  have hgrammar : FileName.grammar other = FileName.grammar filename := by
    rw [FileName.grammar, Path.suffix, Path.name, hparts]
    rfl
  rw [attempt_eq, attempt_eq, Lint.read_of_find hfind, Lint.read_of_find hfind', hcontent]
  exact fixedText?_resultOf_eq parser settings hgrammar

/-- The disk with the fixes of some files written. -/
def rewritten (disk : Disk) (filenames : List String) : Disk :=
  disk.writeAll (writesOf (filenames.map (attempt parser disk settings true)))

section Rewritten

variable (htargets : ∀ filename ∈ filenames, IsTarget filename)

include htargets

theorem replaces_of_mem_writesOf :
    ∀ write ∈ writesOf (filenames.map (attempt parser disk settings true)),
      disk.Replaces write.1 := by
  intro write hwrite
  obtain ⟨filename, hfilename, fixed, hfixed, rfl⟩ :=
    (mem_writesOf_attempts parser settings).mp hwrite
  obtain ⟨hplain, hname⟩ := htargets filename hfilename
  exact ⟨hplain, hname, exists_find_of_fixedText? parser settings hfixed⟩

theorem sameOutline_rewritten : disk.SameOutline (rewritten parser settings disk filenames) :=
  Disk.sameOutline_writeAll (replaces_of_mem_writesOf parser settings htargets)

variable {filename : String} (hfilename : filename ∈ filenames)

include hfilename

/-- All that is written at the place of a file is what is to be written for it. -/
theorem fixedText?_of_mem_writesOf {content : Bytes}
    (hfind : disk.find (Path.ofText filename) = .ok (.file content)) :
    ∀ write ∈ writesOf (filenames.map (attempt parser disk settings true)),
      (Path.ofText filename).parts = write.1.parts →
        ∃ fixed, write.2 = Utf8.encode fixed.toList ∧
          fixedText? true (attempt parser disk settings true filename) = some fixed := by
  intro write hwrite hparts
  obtain ⟨other, hother, fixed, hfixed, rfl⟩ := (mem_writesOf_attempts parser settings).mp hwrite
  obtain ⟨content', hfind'⟩ := exists_find_of_fixedText? parser settings hfixed
  refine ⟨fixed, rfl, ?_⟩
  rw [← hfixed]
  exact (fixedText?_attempt_eq parser settings (htargets filename hfilename).isPlain
    (htargets other hother).isPlain hparts.symm hfind hfind').symm

/-- A file that needs no fix is read as before. -/
theorem read_rewritten_of_none
    (h : fixedText? true (attempt parser disk settings true filename) = none) :
    Lint.read (rewritten parser settings disk filenames) filename = Lint.read disk filename := by
  -- What is no file before is none after, so only a file could have been written over.
  by_cases hfile : ∃ content, disk.find (Path.ofText filename) = .ok (.file content)
  · obtain ⟨content, hfind⟩ := hfile
    have hkept : (rewritten parser settings disk filenames).find (Path.ofText filename) =
        .ok (.file content) := by
      refine Disk.find_writeAll_of_ne (replaces_of_mem_writesOf parser settings htargets)
        (htargets filename hfilename).isPlain (fun write hwrite hparts ↦ ?_) hfind
      obtain ⟨fixed, -, hfixed⟩ := fixedText?_of_mem_writesOf parser settings htargets hfilename
        hfind write hwrite hparts
      rw [h] at hfixed
      cases hfixed
    rw [Lint.read_of_find hkept, Lint.read_of_find hfind]
  · exact Lint.read_eq_of_sameOutline (sameOutline_rewritten parser settings htargets)
      (not_exists.mp hfile)

/-- A file that is fixed is read as its fixed text. -/
theorem read_rewritten_of_some {fixed : String}
    (h : fixedText? true (attempt parser disk settings true filename) = some fixed) :
    Lint.read (rewritten parser settings disk filenames) filename = .ok fixed := by
  obtain ⟨content, hfind⟩ := exists_find_of_fixedText? parser settings h
  have hwritten : (rewritten parser settings disk filenames).find (Path.ofText filename) =
      .ok (.file (Utf8.encode fixed.toList)) := by
    refine Disk.find_writeAll_of_mem (replaces_of_mem_writesOf parser settings htargets)
      (htargets filename hfilename).isPlain (fun write hwrite hparts ↦ ?_)
      ⟨_, (mem_writesOf_attempts parser settings).mpr ⟨filename, hfilename, fixed, h, rfl⟩, rfl⟩
      hfind
    obtain ⟨other, hother, hfixed⟩ := fixedText?_of_mem_writesOf parser settings htargets hfilename
      hfind write hwrite hparts
    rw [h] at hfixed
    rw [hother, Option.some.inj hfixed]
  -- The text has no carriage return, since the one it was made from was read: it is read as it is.
  rw [attempt_eq, Lint.read_of_find hfind] at h
  obtain ⟨source, diagnostics, hdecoded, hlint, rfl⟩ := exists_of_fixedText? parser settings h
  rw [Lint.read_of_find hwritten]
  exact Lint.decoded_encode (Rule.not_mem_fixedText hlint (Lint.not_mem_of_decoded hdecoded))

/-- What is left of the result for a file is its result on the disk with all fixes written. -/
theorem settled_eq_attempt {left : FileReport}
    (h : settled parser settings (attempt parser disk settings true filename) = .ok left) :
    left = attempt parser (rewritten parser settings disk filenames) settings false filename := by
  rw [attempt_eq parser settings (rewritten parser settings disk filenames)]
  cases hfixed : fixedText? true (attempt parser disk settings true filename) with
  | none =>
    rw [read_rewritten_of_none parser settings htargets hfilename hfixed]
    rw [attempt_eq] at h hfixed
    rw [settled_of_none parser settings hfixed] at h
    exact (Except.ok.inj h).symm
  | some fixed =>
    rw [read_rewritten_of_some parser settings htargets hfilename hfixed]
    rw [attempt_eq] at h hfixed
    exact settled_of_some parser settings hfixed h

end Rewritten

end TagScope.CommandLine
