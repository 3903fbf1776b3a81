import TagScope.Proofs.CommandLine.Settling
import TagScope.Proofs.CommandLine.Words

/-!
# Running again without fixes

A run leaves the disk as it is, or its command line is in order and its paths stand for some files
(`run_cases`). These files (`targets`) depend on the outline of the disk alone
(`targets_eq_of_sameOutline`), and linting paths is linting them (`lintPaths_eq`). So a run that
fixes and a run that does not, on the disk that the first one leaves, lint the same files in the
same order. What the first prints of each is what is left of it, and that is what the second finds.
`run_withoutFix` says that the outcomes are equal.
-/

set_option autoImplicit false

namespace TagScope.CommandLine

open Lint (attempt)

/-! ### The files of some paths -/

/-- The files to lint at one path. -/
def targetsAt (disk : Disk) (path : String) : Except Ending (List String) :=
  let target := disk.absolute (Path.ofText path)
  match disk.found? target with
  | .error error => .error (.uncollected (.path error))
  | .ok none => .error (.noSuchPath target.toText)
  | .ok (some (.file _)) => .ok [target.toText]
  | .ok (some (.directory _)) =>
    match disk.sources target with
    | .ok filenames => .ok filenames
    | .error error => .error (.uncollected error)

def targets (disk : Disk) : List String → Except Ending (List String)
  | [] => .ok []
  | path :: rest =>
    match targetsAt disk path with
    | .error ending => .error ending
    | .ok filenames => (targets disk rest).map (filenames ++ ·)

section Linting

variable (parser : Parser) (settings : Settings) (fix : Bool) (disk : Disk)

theorem lintPath_eq (path : String) :
    lintPath parser disk settings fix path =
      (targetsAt disk path).map fun filenames ↦
        filenames.map (attempt parser disk settings fix) := by
  rw [lintPath, targetsAt]
  cases disk.found? (disk.absolute (Path.ofText path)) with
  | error error => rfl
  | ok found =>
    match found with
    | none => rfl
    | some (.file _) => rfl
    | some (.directory _) =>
      dsimp only
      rw [Lint.directory]
      cases disk.sources (disk.absolute (Path.ofText path)) with
      | error error => rfl
      | ok filenames => rfl

/-- Linting paths is linting the files that they stand for. -/
theorem lintPaths_eq (paths : List String) :
    lintPaths parser disk settings fix paths =
      (targets disk paths).map fun filenames ↦
        filenames.map (attempt parser disk settings fix) := by
  induction paths with
  | nil => rfl
  | cons path rest ih =>
    rw [lintPaths, lintPath_eq, targets, ih]
    cases targetsAt disk path with
    | error ending => rfl
    | ok filenames =>
      cases targets disk rest with
      | error ending => rfl
      | ok others => exact congrArg Except.ok List.map_append.symm

end Linting

variable {disk disk' : Disk}

theorem targetsAt_eq_of_sameOutline (h : disk.SameOutline disk') (path : String) :
    targetsAt disk' path = targetsAt disk path := by
  rw [targetsAt, targetsAt, Disk.absolute, h.cwd]
  rw [Disk.absolute, Disk.found?, Disk.found?, h.sources_eq]
  rcases h.find_cases ((Path.ofText path).absolute disk.cwd) with ⟨fault, hfind, hfind'⟩ |
    ⟨content, content', hfind, hfind'⟩ | ⟨entries, entries', hfind, hfind', -⟩
  · rw [hfind, hfind']
  · rw [hfind, hfind']
  · rw [hfind, hfind']

theorem targets_eq_of_sameOutline (h : disk.SameOutline disk') (paths : List String) :
    targets disk' paths = targets disk paths := by
  induction paths with
  | nil => rfl
  | cons path rest ih => rw [targets, targets, targetsAt_eq_of_sameOutline h, ih]

/-- Every file to lint is one of those at some path. -/
theorem exists_of_mem_targets {paths filenames : List String}
    (h : targets disk paths = .ok filenames) {filename : String} (hmem : filename ∈ filenames) :
    ∃ path ∈ paths, ∃ found, targetsAt disk path = .ok found ∧ filename ∈ found := by
  induction paths generalizing filenames with
  | nil =>
    obtain rfl := Except.ok.inj h
    simp at hmem
  | cons path rest ih =>
    rw [targets] at h
    cases hfirst : targetsAt disk path with
    | error ending => rw [hfirst] at h; cases h
    | ok first =>
      rw [hfirst] at h
      dsimp only at h
      cases hothers : targets disk rest with
      | error ending => rw [hothers] at h; cases h
      | ok others =>
        rw [hothers] at h
        obtain rfl := Except.ok.inj h
        rcases List.mem_append.mp hmem with hmem | hmem
        · exact ⟨path, List.mem_cons_self, first, hfirst, hmem⟩
        · obtain ⟨other, hother, hfound⟩ := ih hothers hmem
          exact ⟨other, List.mem_cons_of_mem _ hother, hfound⟩

/-- A file to lint has the text of a plain path for its name. It is a source, or the path to it was
given. -/
theorem exists_isPlain_of_mem_targetsAt (hdisk : disk.IsProper) {path : String}
    {filenames : List String} (h : targetsAt disk path = .ok filenames) {filename : String}
    (hmem : filename ∈ filenames) :
    ∃ target : Path, target.IsPlain ∧ target.toText = filename ∧
      (FileName.isSource target = true ∨ target = disk.absolute (Path.ofText path) ∧
        ∃ content, disk.find target = .ok (.file content)) := by
  have hplain : (disk.absolute (Path.ofText path)).IsPlain :=
    Path.isPlain_absolute_ofText (fun part hpart ↦ hdisk part (List.mem_append_left _ hpart)) path
  rw [targetsAt, Disk.found?] at h
  match hfind : disk.find (disk.absolute (Path.ofText path)) with
  | .error fault =>
    rw [hfind] at h
    cases fault <;> cases h
  | .ok (.file content) =>
    rw [hfind] at h
    obtain rfl := Except.ok.inj h
    exact ⟨_, hplain, (List.mem_singleton.mp hmem).symm, Or.inr ⟨rfl, content, hfind⟩⟩
  | .ok (.directory entries) =>
    rw [hfind] at h
    dsimp only at h
    cases hsources : disk.sources (disk.absolute (Path.ofText path)) with
    | error error => rw [hsources] at h; cases h
    | ok collected =>
      rw [hsources] at h
      obtain rfl := Except.ok.inj h
      obtain ⟨source, hsource, htext, hkind⟩ :=
        Disk.exists_isPlain_of_mem_sources hdisk hplain hsources hmem
      exact ⟨source, hsource, htext, Or.inl hkind⟩

theorem isPlain_of_mem_targets (hdisk : disk.IsProper) {paths filenames : List String}
    (h : targets disk paths = .ok filenames) :
    ∀ filename ∈ filenames, (Path.ofText filename).IsPlain := by
  intro filename hmem
  obtain ⟨path, -, found, hfound, hmem⟩ := exists_of_mem_targets h hmem
  obtain ⟨target, htarget, rfl, -⟩ := exists_isPlain_of_mem_targetsAt hdisk hfound hmem
  rwa [htarget.ofText_toText]

/-- None of the paths leads to an ignore file. -/
def NamesNoIgnoreFile (disk : Disk) (paths : List String) : Prop :=
  ∀ path ∈ paths, ∀ content, disk.find (disk.absolute (Path.ofText path)) = .ok (.file content) →
    (disk.absolute (Path.ofText path)).name ≠ Ignore.fileName

theorem isTarget_of_mem_targets (hdisk : disk.IsProper) {paths : List String}
    (hnamed : NamesNoIgnoreFile disk paths) {filenames : List String}
    (h : targets disk paths = .ok filenames) : ∀ filename ∈ filenames, IsTarget filename := by
  intro filename hmem
  refine ⟨isPlain_of_mem_targets hdisk h filename hmem, ?_⟩
  obtain ⟨path, hpath, found, hfound, hmem⟩ := exists_of_mem_targets h hmem
  obtain ⟨target, htarget, rfl, hkind⟩ := exists_isPlain_of_mem_targetsAt hdisk hfound hmem
  rw [htarget.ofText_toText]
  rcases hkind with hsource | ⟨rfl, content, hfind⟩
  · exact FileName.name_ne_of_isSource hsource
  · exact hnamed path hpath content hfind

/-! ### The second run -/

section Settle

variable (parser : Parser) (settings : Settings) (disk : Disk)

theorem disk_settle_false (printed : List String) (problems : Nat) (results : List FileReport) :
    (settle parser settings false disk printed problems results).disk = disk := by
  induction results generalizing printed problems with
  | nil => rfl
  | cons result rest ih =>
    rw [settle_cons_false]
    exact ih _ _

end Settle

/-- A result without problems is that of a file that was linted and is clean. -/
theorem clean_of_problems_eq_zero {result : FileReport} (h : result.problems = 0) :
    result.diagnostics = [] ∧ result.error = none := by
  rw [FileReport.problems, Nat.add_eq_zero_iff] at h
  refine ⟨List.length_eq_zero_iff.mp h.1, ?_⟩
  cases herror : result.error with
  | none => rfl
  | some error => simp [herror] at h

theorem clean_of_settle_false {parser : Parser} {settings : Settings} {printed : List String}
    {problems : Nat} {results : List FileReport}
    (h : (settle parser settings false disk printed problems results).ending = .finished 0) :
    problems = 0 ∧ ∀ result ∈ results, result.diagnostics = [] ∧ result.error = none := by
  induction results generalizing printed problems with
  | nil => exact ⟨Ending.finished.inj h, List.forall_mem_nil _⟩
  | cons result rest ih =>
    rw [settle_cons_false] at h
    obtain ⟨htotal, hrest⟩ := ih h
    obtain ⟨hbefore, hresult⟩ := Nat.add_eq_zero_iff.mp htotal
    exact ⟨hbefore, List.forall_mem_cons.mpr ⟨clean_of_problems_eq_zero hresult, hrest⟩⟩

theorem eq_map_of_map_eq {α β ε : Type} {f : α → Except ε β} {g : α → β} {l : List α}
    {left : List β} (h : l.map f = left.map .ok) (hg : ∀ a ∈ l, ∀ b, f a = .ok b → b = g a) :
    left = l.map g := by
  induction l generalizing left with
  | nil => exact List.map_eq_nil_iff.mp h.symm
  | cons a l ih =>
    cases left with
    | nil => cases h
    | cons b left =>
      obtain ⟨hhead, htail⟩ := List.cons.inj h
      obtain ⟨ha, hl⟩ := List.forall_mem_cons.mp hg
      rw [List.map_cons, ← ha b hhead, ← ih htail hl]

/-- Settling the files of a run with fixes is settling them without, on the disk with all fixes
written. -/
theorem settle_attempts {filenames : List String}
    (htargets : ∀ filename ∈ filenames, IsTarget filename) {parser : Parser} {settings : Settings}
    {problems : Nat}
    (hreturns : (settle parser settings true disk [] 0
      (filenames.map (attempt parser disk settings true))).ending = .finished problems) :
    settle parser settings true disk [] 0 (filenames.map (attempt parser disk settings true)) =
      settle parser settings false (rewritten parser settings disk filenames) [] 0
        (filenames.map
          (attempt parser (rewritten parser settings disk filenames) settings false)) := by
  obtain ⟨left, hleft, hsettle⟩ := settle_fix parser settings hreturns
  rw [List.map_map] at hleft
  have hagain := eq_map_of_map_eq hleft fun filename hfilename result hresult ↦
    settled_eq_attempt parser settings htargets hfilename hresult
  rw [hsettle, hagain]
  rfl

/-- What a run settles is what the run without fixes, on the disk it leaves, settles again. -/
theorem settle_again (parser : Parser) (hdisk : disk.IsProper) {paths : List String}
    (hnamed : NamesNoIgnoreFile disk paths) (settings : Settings) {fix : Bool}
    {results : List FileReport} (hresults : lintPaths parser disk settings fix paths = .ok results)
    {problems : Nat}
    (hreturns : (settle parser settings fix disk [] 0 results).ending = .finished problems) :
    ∃ again, lintPaths parser (settle parser settings fix disk [] 0 results).disk settings false
        paths = .ok again ∧
      settle parser settings false (settle parser settings fix disk [] 0 results).disk [] 0 again =
        settle parser settings fix disk [] 0 results := by
  rw [lintPaths_eq] at hresults
  cases hfilenames : targets disk paths with
  | error ending => rw [hfilenames] at hresults; cases hresults
  | ok filenames =>
    rw [hfilenames] at hresults
    obtain rfl := Except.ok.inj hresults
    have htargets := isTarget_of_mem_targets hdisk hnamed hfilenames
    cases fix with
    | false =>
      rw [disk_settle_false]
      refine ⟨_, ?_, rfl⟩
      rw [lintPaths_eq, hfilenames]
      rfl
    | true =>
      have hsame : disk.SameOutline (rewritten parser settings disk filenames) :=
        sameOutline_rewritten parser settings htargets
      rw [settle_attempts htargets hreturns, disk_settle_false]
      -- The second run finds the same files, since no write changes the outline.
      refine ⟨_, ?_, rfl⟩
      rw [lintPaths_eq, targets_eq_of_sameOutline hsame, hfilenames]
      rfl

/-! ### The whole run -/

theorem targetsAt_ne_finished (disk : Disk) (path : String) (problems : Nat) :
    targetsAt disk path ≠ .error (.finished problems) := by
  intro h
  unfold targetsAt at h
  dsimp only at h
  split at h
  · cases h
  · cases h
  · cases h
  · split at h <;> cases h

theorem targets_ne_finished (disk : Disk) (paths : List String) (problems : Nat) :
    targets disk paths ≠ .error (.finished problems) := by
  induction paths with
  | nil => exact fun h ↦ nomatch h
  | cons path rest ih =>
    intro h
    rw [targets] at h
    cases hfirst : targetsAt disk path with
    | error ending =>
      rw [hfirst] at h
      obtain rfl := Except.error.inj h
      exact targetsAt_ne_finished disk path problems hfirst
    | ok filenames =>
      rw [hfirst] at h
      cases hrest : targets disk rest with
      | error ending =>
        rw [hrest] at h
        obtain rfl := Except.error.inj h
        exact ih hrest
      | ok others => rw [hrest] at h; cases h

/-- A command line that can be carried out on a disk: its words are read, it does not serve, its
globals have names, and its paths stand for some files. -/
structure Orders (disk : Disk) (words : List String) (arguments : Arguments) (settings : Settings)
    (filenames : List String) : Prop where
  ofWords_eq : Arguments.ofWords words = .ok arguments
  serve_eq : arguments.serve = false
  settings_eq : arguments.settings? = some settings
  targets_eq : targets disk arguments.paths = .ok filenames

theorem Orders.lintPaths_eq {words filenames : List String} {arguments : Arguments}
    {settings : Settings} (h : Orders disk words arguments settings filenames) (parser : Parser)
    (fix : Bool) :
    lintPaths parser disk settings fix arguments.paths =
      .ok (filenames.map (attempt parser disk settings fix)) := by
  rw [CommandLine.lintPaths_eq, h.targets_eq]
  rfl

/-- A run leaves the disk and does not finish, or its command line can be carried out. -/
theorem run_cases (parser : Parser) (disk : Disk) (words : List String) :
    ((run parser disk words).disk = disk ∧
        ∀ problems, (run parser disk words).ending ≠ .finished problems) ∨
      ∃ arguments settings filenames, Orders disk words arguments settings filenames := by
  cases hwords : Arguments.ofWords words with
  | error refusal =>
    rw [run, hwords]
    exact Or.inl ⟨rfl, fun _ h ↦ nomatch h⟩
  | ok arguments =>
    rw [run, hwords]
    dsimp only
    rw [runWith]
    cases hserve : arguments.serve with
    | true => exact Or.inl ⟨rfl, fun _ h ↦ nomatch h⟩
    | false =>
      rw [if_neg Bool.false_ne_true]
      cases hsettings : arguments.settings? with
      | none => exact Or.inl ⟨rfl, fun _ h ↦ nomatch h⟩
      | some settings =>
        dsimp only
        rw [lintPaths_eq]
        cases htargets : targets disk arguments.paths with
        | error ending =>
          refine Or.inl ⟨rfl, ?_⟩
          rintro problems rfl
          exact targets_ne_finished disk arguments.paths problems htargets
        | ok filenames =>
          exact Or.inr ⟨arguments, settings, filenames, hwords, hserve, hsettings, htargets⟩

section Finished

variable {parser : Parser} {words : List String} {arguments : Arguments} {settings : Settings}
  {results : List FileReport}

/-- A run that reads its words, serves nothing and lints its paths, settles the results. -/
theorem run_eq_settle (hwords : Arguments.ofWords words = .ok arguments)
    (hserve : arguments.serve = false) (hsettings : arguments.settings? = some settings)
    (hresults : lintPaths parser disk settings arguments.fix arguments.paths = .ok results) :
    run parser disk words = settle parser settings arguments.fix disk [] 0 results := by
  simp only [run, hwords, runWith, hserve, hsettings, hresults, Bool.false_eq_true, if_false]

/-- These are the only runs that finish. -/
theorem exists_of_ending_run {problems : Nat}
    (h : (run parser disk words).ending = .finished problems) :
    ∃ arguments settings results, Arguments.ofWords words = .ok arguments ∧
      arguments.serve = false ∧ arguments.settings? = some settings ∧
      lintPaths parser disk settings arguments.fix arguments.paths = .ok results := by
  rcases run_cases parser disk words with ⟨-, hnot⟩ | ⟨arguments, settings, filenames, horders⟩
  · exact absurd h (hnot problems)
  · exact ⟨arguments, settings, _, horders.ofWords_eq, horders.serve_eq, horders.settings_eq,
      horders.lintPaths_eq parser _⟩

end Finished

/-- A run with fixes reports what a run without them reports on the disk that it leaves. If a run
comes to its end, then the same command line without the words that ask for fixes has the same
outcome on that disk: it prints the same lines, finds the same number of problems, and leaves the
disk as it is. If there are no problems, every file that is linted is clean.

The names on the disk are those that a file can have, so that a path is found again from its text.
No path may name an ignore file, since a fix to that could change what is collected. -/
theorem run_withoutFix (parser : Parser) (disk : Disk) (words : List String)
    (hdisk : disk.IsProper)
    (hnamed : ∀ arguments, Arguments.ofWords words = .ok arguments →
      NamesNoIgnoreFile disk arguments.paths)
    {problems : Nat} (hreturns : (run parser disk words).ending = .finished problems) :
    run parser (run parser disk words).disk (withoutFix words) = run parser disk words ∧
      (problems = 0 → ∃ arguments settings results,
        Arguments.ofWords words = .ok arguments ∧ arguments.settings? = some settings ∧
          lintPaths parser (run parser disk words).disk settings false arguments.paths =
            .ok results ∧
          ∀ result ∈ results, result.diagnostics = [] ∧ result.error = none) := by
  obtain ⟨arguments, settings, results, hwords, hserve, hsettings, hresults⟩ :=
    exists_of_ending_run hreturns
  rw [run_eq_settle hwords hserve hsettings hresults] at hreturns ⊢
  obtain ⟨again, hagain, hsettle⟩ :=
    settle_again parser hdisk (hnamed arguments hwords) settings hresults hreturns
  constructor
  · rw [run_eq_settle (ofWords_withoutFix hwords) hserve hsettings hagain]
    exact hsettle
  · rintro rfl
    rw [← hsettle] at hreturns
    exact ⟨arguments, settings, again, hwords, hsettings, hagain,
      (clean_of_settle_false hreturns).2⟩

/-- The element `<Show />` and, on the next line, `<Foo />`, from an offset on. Two elements side by
side are an error, and the second is not taken for an element. -/
def tags (start : Nat) : Node :=
  ⟨⟨"ERROR", true, start, start + 16, none⟩,
    [⟨⟨"jsx_self_closing_element", true, start, start + 8, none⟩,
        [.mark "<" start (start + 1), .leaf "identifier" (start + 1) (start + 5) (some "name"),
          .mark "/>" (start + 6) (start + 8)]⟩,
      .mark "<" (start + 9) (start + 10),
      .leaf "identifier" (start + 10) (start + 13) none,
      .mark "/" (start + 14) (start + 15), .mark ">" (start + 15) (start + 16)]⟩

/-- Reads two elements on two lines, which are no program, with and without the import that the
first of them needs. -/
def tagsParser : Parser := fun _ content ↦
  if content = Utf8.encode "<Show />\n<Foo />".toList then
    ⟨⟨"program", true, 0, 16, none⟩, [tags 0]⟩
  else if content =
      Utf8.encode "import \x7b Show \x7d from \"solid-js\";\n<Show />\n<Foo />".toList then
    ⟨⟨"program", true, 0, 49, none⟩,
      [⟨⟨"import_statement", true, 0, 32, none⟩,
          [.mark "import" 0 6,
            ⟨⟨"import_clause", true, 7, 15, none⟩,
              [⟨⟨"named_imports", true, 7, 15, none⟩,
                [.mark "\x7b" 7 8,
                  ⟨⟨"import_specifier", true, 9, 13, none⟩,
                    [.leaf "identifier" 9 13 (some "name")]⟩,
                  .mark "\x7d" 14 15]⟩]⟩,
            .mark "from" 16 20,
            ⟨⟨"string", true, 21, 31, some "source"⟩,
              [.mark "\"" 21 22, .leaf "string_fragment" 22 30 none, .mark "\"" 30 31]⟩,
            .mark ";" 31 32]⟩,
        tags 33]⟩
  else
    ⟨⟨"program", true, 0, content.length, none⟩, []⟩

/-- A directory with one file, whose lines end in a carriage return and a line feed. -/
def tagsDisk : Disk where
  entries := [.directory "w" [.file "a.tsx" (Utf8.encode "<Show />\r\n<Foo />".toList)]]
  cwd := ["w"]

/-- Three paths to one file, which is linted three times, and fixed three times. -/
def thrice : List String := ["--fix", "a.tsx", "./a.tsx", "/w/a.tsx"]

theorem ofWords_thrice : Arguments.ofWords thrice =
    .ok { paths := ["a.tsx", "./a.tsx", "/w/a.tsx"], fix := true } := by
  rfl

theorem namesNoIgnoreFile_thrice :
    NamesNoIgnoreFile tagsDisk ["a.tsx", "./a.tsx", "/w/a.tsx"] := by
  have hnames : ∀ path ∈ ["a.tsx", "./a.tsx", "/w/a.tsx"],
      (tagsDisk.absolute (Path.ofText path)).name ≠ Ignore.fileName := by
    decide +kernel
  exact fun path hpath _ _ ↦ hnames path hpath

/-- The three fixes of one file leave the file with one import, and the second run finds it so. -/
theorem run_withoutFix_thrice :
    tagsDisk.IsProper ∧ NamesNoIgnoreFile tagsDisk ["a.tsx", "./a.tsx", "/w/a.tsx"] ∧
    (run tagsParser tagsDisk thrice).ending = .finished 0 ∧
    withoutFix thrice = ["a.tsx", "./a.tsx", "/w/a.tsx"] ∧
    (run tagsParser tagsDisk thrice).printed = ["✅ No problems found"] ∧
    ((run tagsParser tagsDisk thrice).disk.read (Path.ofText "/w/a.tsx")).toOption = some
      (Utf8.encode "import \x7b Show \x7d from \"solid-js\";\n<Show />\n<Foo />".toList) ∧
    run tagsParser (run tagsParser tagsDisk thrice).disk ["a.tsx", "./a.tsx", "/w/a.tsx"] =
      run tagsParser tagsDisk thrice ∧
    ∃ arguments settings results, Arguments.ofWords thrice = .ok arguments ∧
      arguments.settings? = some settings ∧
      lintPaths tagsParser (run tagsParser tagsDisk thrice).disk settings false arguments.paths =
        .ok results ∧
      ∀ result ∈ results, result.diagnostics = [] ∧ result.error = none := by
  have hdisk : tagsDisk.IsProper := by decide +kernel
  have hwords : withoutFix thrice = ["a.tsx", "./a.tsx", "/w/a.tsx"] := by decide +kernel
  obtain ⟨hending, hprinted, hread⟩ : (run tagsParser tagsDisk thrice).ending = .finished 0 ∧
      (run tagsParser tagsDisk thrice).printed = ["✅ No problems found"] ∧
      ((run tagsParser tagsDisk thrice).disk.read (Path.ofText "/w/a.tsx")).toOption = some
        (Utf8.encode "import \x7b Show \x7d from \"solid-js\";\n<Show />\n<Foo />".toList) := by
    decide +kernel
  have hnamed : ∀ arguments, Arguments.ofWords thrice = .ok arguments →
      NamesNoIgnoreFile tagsDisk arguments.paths := by
    intro arguments harguments
    obtain rfl := Except.ok.inj (ofWords_thrice.symm.trans harguments)
    exact namesNoIgnoreFile_thrice
  obtain ⟨hsame, hclean⟩ := run_withoutFix tagsParser tagsDisk thrice hdisk hnamed hending
  rw [hwords] at hsame
  exact ⟨hdisk, namesNoIgnoreFile_thrice, hending, hwords, hprinted, hread, hsame, hclean rfl⟩

end TagScope.CommandLine
