import TagScope.Proofs.CommandLine.Rerun
import TagScope.Proofs.Files.Revision

/-!
# What a run does to the disk

Nothing is written before every path has been linted. What is then written for a file follows from
what it held when the run began (`Mends`), whichever way the file is reached and however often
(`Mends.unique`). So a run with fixes is one revision of the disk (`Orders.disk_run`), if the parser
is one that lets every text be linted; else it stops on the way, with some of the fixes written
(`exists_disk_settle`). `run_mends_once` says that a run does all of its command line or nothing,
and that it depends on which files are linted, not on how they are named.
-/

set_option autoImplicit false

namespace TagScope.CommandLine

open Lint (attempt attempt_eq resultOf)

/-! ### What is written for a file -/

section Mending

variable (parser : Parser) (settings : Settings)

/-- A file is mended to a content: it can be read and linted, a fix is found, and the content is its
text with the fixes made. -/
def Mends (disk : Disk) (filename : String) (new : Bytes) : Prop :=
  ∃ source report, Lint.read disk filename = .ok source ∧
    Lint.text parser settings filename source = .ok report ∧ (∃ d ∈ report, d.fix.isSome = true) ∧
    new = Utf8.encode (fixedText source report).toList

variable {parser settings} {disk : Disk} {filename : String}

theorem mends_iff {new : Bytes} :
    Mends parser settings disk filename new ↔
      ∃ fixed, fixedText? true (attempt parser disk settings true filename) = some fixed ∧
        Utf8.encode fixed.toList = new := by
  rw [attempt_eq]
  constructor
  · rintro ⟨source, report, hread, hlint, ⟨d, hd, hfix⟩, rfl⟩
    refine ⟨_, ?_, rfl⟩
    rw [hread, resultOf_of_lint parser settings hlint, fixedText?]
    refine if_pos ?_
    rw [Bool.true_and, FileReport.hasFixes, List.any_eq_true]
    exact ⟨d, hd, hfix⟩
  · rintro ⟨fixed, hfixed, rfl⟩
    obtain ⟨source, report, hread, hlint, rfl⟩ := exists_of_fixedText? parser settings hfixed
    refine ⟨source, report, hread, hlint, ?_, rfl⟩
    rw [hread, resultOf_of_lint parser settings hlint, fixedText?, Option.ite_none_right_eq_some,
      Bool.true_and, FileReport.hasFixes, List.any_eq_true] at hfixed
    exact hfixed.1

theorem exists_find_of_mends {new : Bytes} (h : Mends parser settings disk filename new) :
    ∃ content, disk.find (Path.ofText filename) = .ok (.file content) := by
  obtain ⟨source, report, hread, -⟩ := h
  exact Lint.exists_find_of_read hread

/-- At one place there is one content to be written, whichever way the place is named. -/
theorem Mends.unique {other : String} {new new' : Bytes}
    (h : Mends parser settings disk filename new) (h' : Mends parser settings disk other new')
    (hfilename : (Path.ofText filename).IsPlain) (hother : (Path.ofText other).IsPlain)
    (hparts : (Path.ofText filename).parts = (Path.ofText other).parts) : new = new' := by
  obtain ⟨content, hfind⟩ := exists_find_of_mends h
  obtain ⟨content', hfind'⟩ := exists_find_of_mends h'
  obtain ⟨fixed, hfixed, rfl⟩ := mends_iff.mp h
  obtain ⟨fixed', hfixed', rfl⟩ := mends_iff.mp h'
  rw [fixedText?_attempt_eq parser settings hother hfilename hparts hfind' hfind, hfixed'] at hfixed
  rw [Option.some.inj hfixed]

theorem mem_writesOf_iff {filenames : List String} {write : Path × Bytes} :
    write ∈ writesOf (filenames.map (attempt parser disk settings true)) ↔
      ∃ filename ∈ filenames, Path.ofText filename = write.1 ∧
        Mends parser settings disk filename write.2 := by
  rw [mem_writesOf_attempts]
  refine exists_congr fun filename ↦ and_congr_right fun _ ↦ ?_
  rw [mends_iff]
  constructor
  · rintro ⟨fixed, hfixed, rfl⟩
    exact ⟨rfl, fixed, hfixed, rfl⟩
  · rintro ⟨hpath, fixed, hfixed, hcontent⟩
    exact ⟨fixed, hfixed, Prod.ext hpath hcontent⟩

variable (parser settings disk) in
/-- What some files are mended to, by the parts of their paths. -/
def mendings (filenames : List String) : List String → Option Bytes :=
  Disk.lastWrite (writesOf (filenames.map (attempt parser disk settings true)))

end Mending

/-! ### The disk after settling -/

section Settled

variable {parser : Parser} {settings : Settings} {disk : Disk}

/-- Settling with fixes writes those of the first results, up to one that it stops at. -/
theorem exists_disk_settle (parser : Parser) (settings : Settings) (results : List FileReport) :
    ∀ (disk : Disk) (printed : List String) (problems : Nat), ∃ count,
      (settle parser settings true disk printed problems results).disk =
        disk.writeAll (writesOf (results.take count)) := by
  induction results with
  | nil => exact fun disk _ _ ↦ ⟨0, rfl⟩
  | cons result rest ih =>
    intro disk printed problems
    rw [settle]
    cases htext : fixedText? true result with
    | none =>
      obtain ⟨count, hdisk⟩ := ih disk (printed ++ result.lines) (problems + result.problems)
      refine ⟨count + 1, ?_⟩
      rw [List.take_succ_cons, writesOf, List.filterMap_cons_none (by rw [htext]; rfl)]
      exact hdisk
    | some text =>
      dsimp only
      cases Lint.text parser settings result.filename text with
      | error fault =>
        refine ⟨1, ?_⟩
        rw [List.take_succ_cons, writesOf, List.filterMap_cons_some (by rw [htext]; rfl)]
        rfl
      | ok remaining =>
        obtain ⟨count, hdisk⟩ := ih
          (disk.write (Path.ofText result.filename) (Utf8.encode text.toList)) _ _
        refine ⟨count + 1, ?_⟩
        rw [List.take_succ_cons, writesOf, List.filterMap_cons_some (by rw [htext]; rfl)]
        exact hdisk

/-- Settling comes to its end if every text can be linted. -/
theorem exists_finished_settle
    (h : ∀ filename source, ∃ report, Lint.text parser settings filename source = .ok report)
    (fix : Bool) (results : List FileReport) :
    ∀ (disk : Disk) (printed : List String) (problems : Nat), ∃ total,
      (settle parser settings fix disk printed problems results).ending = .finished total := by
  induction results with
  | nil => exact fun _ _ problems ↦ ⟨problems, rfl⟩
  | cons result rest ih =>
    intro disk printed problems
    rw [settle]
    cases fixedText? fix result with
    | none => exact ih _ _ _
    | some text =>
      obtain ⟨report, hreport⟩ := h result.filename text
      dsimp only
      rw [hreport]
      exact ih _ _ _

variable {filenames : List String}
  (hplain : ∀ filename ∈ filenames, (Path.ofText filename).IsPlain)

include hplain

theorem mendings_eq_some_iff {parts : List String} {new : Bytes} :
    mendings parser settings disk filenames parts = some new ↔
      ∃ filename ∈ filenames, (Path.ofText filename).parts = parts ∧
        Mends parser settings disk filename new := by
  have hsame : ∀ write ∈ writesOf (filenames.map (attempt parser disk settings true)),
      ∀ other ∈ writesOf (filenames.map (attempt parser disk settings true)),
        write.1.parts = other.1.parts → write.2 = other.2 := by
    intro write hwrite other hother hparts
    obtain ⟨filename, hfilename, hpath, hmends⟩ := mem_writesOf_iff.mp hwrite
    obtain ⟨filename', hfilename', hpath', hmends'⟩ := mem_writesOf_iff.mp hother
    rw [← hpath, ← hpath'] at hparts
    exact hmends.unique hmends' (hplain _ hfilename) (hplain _ hfilename') hparts
  rw [mendings, Disk.lastWrite_eq_some_iff hsame]
  constructor
  · rintro ⟨write, hwrite, rfl, rfl⟩
    obtain ⟨filename, hfilename, hpath, hmends⟩ := mem_writesOf_iff.mp hwrite
    exact ⟨filename, hfilename, by rw [hpath], hmends⟩
  · rintro ⟨filename, hfilename, hparts, hmends⟩
    exact ⟨(Path.ofText filename, new),
      mem_writesOf_iff.mpr ⟨filename, hfilename, rfl, hmends⟩, hparts, rfl⟩

/-- Writing what some files are mended to is one revision of the disk. -/
theorem writeAll_eq_revised (htree : disk.IsTree) :
    disk.writeAll (writesOf (filenames.map (attempt parser disk settings true))) =
      disk.revised (mendings parser settings disk filenames) := by
  refine Disk.writeAll_eq_revised htree fun write hwrite ↦ ?_
  obtain ⟨filename, hfilename, hpath, hmends⟩ := mem_writesOf_iff.mp hwrite
  rw [← hpath]
  exact ⟨hplain filename hfilename, exists_find_of_mends hmends⟩

end Settled

/-! ### The whole run -/

section Run

variable {parser : Parser} {disk : Disk} {words filenames : List String} {arguments : Arguments}
  {settings : Settings}

theorem Orders.run_eq (h : Orders disk words arguments settings filenames) :
    run parser disk words = settle parser settings arguments.fix disk [] 0
      (filenames.map (attempt parser disk settings arguments.fix)) :=
  run_eq_settle h.ofWords_eq h.serve_eq h.settings_eq (h.lintPaths_eq parser _)

theorem Orders.disk_run_of_not_fix (h : Orders disk words arguments settings filenames)
    (hfix : arguments.fix = false) : (run parser disk words).disk = disk := by
  rw [h.run_eq, hfix, disk_settle_false]

variable (hparser : ∀ grammar content,
  (Document.mk content (parser grammar content)).GroupsHaveTokens)

include hparser

theorem exists_lint_eq (settings : Settings) (filename source : String) :
    ∃ report, Lint.text parser settings filename source = .ok report :=
  Rule.exists_diagnose_eq (hparser _ _) settings

/-- A command line that can be carried out comes to its end. -/
theorem Orders.exists_finished (h : Orders disk words arguments settings filenames) :
    ∃ problems, (run parser disk words).ending = .finished problems := by
  rw [h.run_eq]
  exact exists_finished_settle (exists_lint_eq hparser settings) _ _ _ _ _

theorem disk_run_of_not_finished
    (h : ∀ problems, (run parser disk words).ending ≠ .finished problems) :
    (run parser disk words).disk = disk := by
  rcases run_cases parser disk words with ⟨hdisk, -⟩ | ⟨arguments, settings, filenames, horders⟩
  · exact hdisk
  · obtain ⟨problems, hfinished⟩ := horders.exists_finished hparser
    exact absurd hfinished (h problems)

/-- A run with fixes revises the disk by what its files are mended to. -/
theorem Orders.disk_run (h : Orders disk words arguments settings filenames)
    (hdisk : disk.IsProper) (htree : disk.IsTree) (hfix : arguments.fix = true) :
    (run parser disk words).disk = disk.revised (mendings parser settings disk filenames) := by
  obtain ⟨problems, hfinished⟩ := h.exists_finished hparser
  rw [h.run_eq, hfix] at hfinished ⊢
  obtain ⟨left, -, hsettle⟩ := settle_fix parser settings hfinished
  rw [hsettle, disk_settle_false]
  exact writeAll_eq_revised (isPlain_of_mem_targets hdisk h.targets_eq) htree

end Run

/-- A run does all that its command line asks, or nothing, and mends no file twice. It finishes
exactly if its command line can be carried out, and a run that does not finish leaves the disk as it
is. Without fixes a run that finishes leaves it too. With fixes it replaces the content of each file
that it lints and that has a fix, by the text that was read when the run began with the fixes that
were found then, and leaves everything else. A command line with other paths that stand for the same
files, in any order and any number of times, leaves the same disk.

The parser gives every group of specifiers a token, as every text of one has its braces. The names
on the disk are those that a file can have, and no two entries have the same path. -/
theorem run_mends_once (parser : Parser)
    (hparser : ∀ grammar content, (Document.mk content (parser grammar content)).GroupsHaveTokens)
    (disk : Disk) (hdisk : disk.IsProper) (htree : disk.IsTree) (words : List String) :
    ((∃ problems, (run parser disk words).ending = .finished problems) ↔
        ∃ arguments settings filenames, Orders disk words arguments settings filenames) ∧
    ((∀ problems, (run parser disk words).ending ≠ .finished problems) →
      (run parser disk words).disk = disk) ∧
    ∀ arguments settings filenames, Orders disk words arguments settings filenames →
      (arguments.fix = false → (run parser disk words).disk = disk) ∧
      (arguments.fix = true → ∃ contents, (run parser disk words).disk = disk.revised contents ∧
        ∀ parts new, contents parts = some new ↔
          ∃ filename ∈ filenames, (Path.ofText filename).parts = parts ∧
            Mends parser settings disk filename new) ∧
      ∀ words' paths' filenames',
        Orders disk words' { arguments with paths := paths' } settings filenames' →
          (∀ filename, filename ∈ filenames' ↔ filename ∈ filenames) →
            (run parser disk words').disk = (run parser disk words).disk := by
  refine ⟨⟨?_, ?_⟩, disk_run_of_not_finished hparser, ?_⟩
  · rintro ⟨problems, hfinished⟩
    rcases run_cases parser disk words with ⟨-, hnot⟩ | horders
    · exact absurd hfinished (hnot problems)
    · exact horders
  · rintro ⟨arguments, settings, filenames, horders⟩
    exact horders.exists_finished hparser
  intro arguments settings filenames horders
  have hplain := isPlain_of_mem_targets hdisk horders.targets_eq
  refine ⟨horders.disk_run_of_not_fix, fun hfix ↦ ?_,
    fun words' paths' filenames' horders' hsame ↦ ?_⟩
  · exact ⟨_, horders.disk_run hparser hdisk htree hfix, fun parts new ↦
      mendings_eq_some_iff hplain⟩
  · cases hfix : arguments.fix with
    | false => rw [horders.disk_run_of_not_fix hfix, horders'.disk_run_of_not_fix hfix]
    | true =>
      have hplain' := isPlain_of_mem_targets hdisk horders'.targets_eq
      rw [horders.disk_run hparser hdisk htree hfix, horders'.disk_run hparser hdisk htree hfix]
      refine congrArg disk.revised (funext fun parts ↦ Option.ext fun new ↦ ?_)
      simp only [mendings_eq_some_iff hplain, mendings_eq_some_iff hplain', hsame]

section Twice

theorem groupsHaveTokens_tagsParser (grammar : Grammar) (content : Bytes) :
    (Document.mk content (tagsParser grammar content)).GroupsHaveTokens := by
  unfold Document.GroupsHaveTokens tagsParser
  dsimp only
  split_ifs
  · decide +kernel
  · decide +kernel
  · intro s hs hkind
    obtain rfl := List.mem_singleton.mp hs
    exact absurd (show "program" = "named_imports" from hkind) (by decide)

/-- One file, named by its directory and by its own path, is mended as if it was named once. A path
that is not there keeps a file that was named before it from being mended. -/
theorem run_mends_once_twice :
    (∀ grammar content, (Document.mk content (tagsParser grammar content)).GroupsHaveTokens) ∧
    tagsDisk.IsProper ∧ tagsDisk.IsTree ∧
    (∃ settings,
      Orders tagsDisk ["--fix", "a.tsx"] { paths := ["a.tsx"], fix := true } settings
        ["/w/a.tsx"] ∧
      Orders tagsDisk ["--fix", ".", "a.tsx"] { paths := [".", "a.tsx"], fix := true } settings
        ["/w/a.tsx", "/w/a.tsx"] ∧
      ∃ contents, (run tagsParser tagsDisk ["--fix", "a.tsx"]).disk = tagsDisk.revised contents ∧
        ∀ parts new, contents parts = some new ↔ ∃ filename ∈ ["/w/a.tsx"],
          (Path.ofText filename).parts = parts ∧
            Mends tagsParser settings tagsDisk filename new) ∧
    (run tagsParser tagsDisk ["--fix", ".", "a.tsx"]).disk =
      (run tagsParser tagsDisk ["--fix", "a.tsx"]).disk ∧
    (run tagsParser tagsDisk ["--fix", "a.tsx"]).disk.read (Path.ofText "/w/a.tsx") =
      .ok (Utf8.encode "import \x7b Show \x7d from \"solid-js\";\n<Show />\n<Foo />".toList) ∧
    (run tagsParser tagsDisk ["--fix", "a.tsx", "b.tsx"]).ending = .noSuchPath "/w/b.tsx" ∧
    (run tagsParser tagsDisk ["--fix", "a.tsx", "b.tsx"]).disk = tagsDisk := by
  have hdisk : tagsDisk.IsProper := by decide +kernel
  have htree : tagsDisk.IsTree := by decide +kernel
  obtain ⟨settings, honce, htwice⟩ : ∃ settings,
      Orders tagsDisk ["--fix", "a.tsx"] { paths := ["a.tsx"], fix := true } settings
        ["/w/a.tsx"] ∧
      Orders tagsDisk ["--fix", ".", "a.tsx"] { paths := [".", "a.tsx"], fix := true } settings
        ["/w/a.tsx", "/w/a.tsx"] :=
    ⟨_, ⟨rfl, rfl, rfl, by decide +kernel⟩, ⟨rfl, rfl, rfl, by decide +kernel⟩⟩
  have hread : (run tagsParser tagsDisk ["--fix", "a.tsx"]).disk.read (Path.ofText "/w/a.tsx") =
      .ok (Utf8.encode "import \x7b Show \x7d from \"solid-js\";\n<Show />\n<Foo />".toList) := by
    decide +kernel
  have hmissing : (run tagsParser tagsDisk ["--fix", "a.tsx", "b.tsx"]).ending =
      .noSuchPath "/w/b.tsx" := by
    decide +kernel
  obtain ⟨-, -, hfinished⟩ := run_mends_once tagsParser groupsHaveTokens_tagsParser tagsDisk hdisk
    htree ["--fix", "a.tsx"]
  obtain ⟨-, hmends, hsame⟩ := hfinished _ settings _ honce
  obtain ⟨-, hleaves, -⟩ := run_mends_once tagsParser groupsHaveTokens_tagsParser tagsDisk hdisk
    htree ["--fix", "a.tsx", "b.tsx"]
  refine ⟨groupsHaveTokens_tagsParser, hdisk, htree, ⟨settings, honce, htwice, hmends rfl⟩,
    hsame _ _ _ htwice (by simp), hread, hmissing, hleaves fun problems hending ↦ ?_⟩
  rw [hmissing] at hending
  cases hending

end Twice

end TagScope.CommandLine
