import TagScope.Proofs.CommandLine.Effect
import TagScope.Proofs.Text.Chunks

/-!
# What a run changes in a file

Fixing a text puts one block into it (`Rule.inserts_fixedText`), and what is written for a file is
its text, as it was read, with such a block (`exists_of_mends`). Since content that decodes is the
encoding of its text, the block is one in the bytes of the file as well, if reading left the text as
it was. But reading normalizes line ends, and the new content has no carriage return. So the file is
changed by more than a block if it had one (`inserts_encode_iff`).

`run_inserts_block` says this of every file and every run, and `run_rewrites_lineEnds` is a file of
two lines that loses the carriage return between them.
-/

set_option autoImplicit false

namespace TagScope

/-! ### Insertions -/

/-- One list is another with a block put in. -/
def Inserts {α : Type} (old new : List α) : Prop :=
  ∃ front block back, old = front ++ back ∧ new = front ++ block ++ back

namespace Inserts

variable {α : Type} {old new : List α}

theorem refl (old : List α) : Inserts old old :=
  ⟨old, [], [], (List.append_nil old).symm, by simp⟩

theorem subset (h : Inserts old new) : old ⊆ new := by
  obtain ⟨front, block, back, rfl, rfl⟩ := h
  intro x hx
  rw [List.append_assoc]
  rcases List.mem_append.mp hx with hx | hx
  · exact List.mem_append_left _ hx
  · exact List.mem_append_right _ (List.mem_append_right _ hx)

theorem encode {text fixed : List Char} (h : Inserts text fixed) :
    Inserts (Utf8.encode text) (Utf8.encode fixed) := by
  obtain ⟨front, block, back, rfl, rfl⟩ := h
  refine ⟨Utf8.encode front, Utf8.encode block, Utf8.encode back, ?_, ?_⟩
  · rw [Utf8.encode_append]
  · rw [Utf8.encode_append, Utf8.encode_append]

end Inserts

/-- Fixing a text puts one block into it, which may be empty. -/
theorem Rule.inserts_fixedText {doc : Document} {settings : Settings} {report : List Diagnostic}
    (h : diagnose doc settings = .ok report) (source : String) :
    Inserts source.toList (fixedText source report).toList := by
  rcases fixes_cases h with hnone | ⟨insertion, hone, -⟩
  · rw [fixedText, hnone, Edit.applyAll_nil]
    exact .refl _
  · rw [fixedText, hone, Edit.toList_applyAll_singleton]
    exact ⟨_, insertion.text.toList, _, (List.take_append_drop _ _).symm, rfl⟩

/-- The byte of a carriage return. -/
def Utf8.carriageReturn : UInt8 := 0x0D

/-- The encoding of a text with a block put into it has the block in the content that the text was
read from, if that content had no carriage returns. -/
theorem inserts_encode_iff {old : Bytes} {text fixed : List Char}
    (hdecode : Utf8.decode old = .ok text) (hinserts : Inserts (LineBreak.normalize text) fixed)
    (hfixed : '\r' ∉ fixed) :
    Inserts old (Utf8.encode fixed) ↔ Utf8.carriageReturn ∉ old := by
  have hreturn : ∀ {text : List Char}, Utf8.carriageReturn ∈ Utf8.encode text ↔ '\r' ∈ text :=
    Utf8.mem_encode_iff (c := '\r') (by decide)
  obtain rfl := Utf8.encode_of_decode hdecode
  constructor
  · intro h hmem
    exact hfixed (hreturn.mp (h.subset hmem))
  · intro h
    rw [LineBreak.normalize_of_not_mem (mt hreturn.mpr h)] at hinserts
    exact hinserts.encode

namespace CommandLine

open Lint (attempt)

section Files

variable {parser : Parser} {settings : Settings} {disk : Disk}

/-- What is written for a file is the text that was read of it, with one block put in. -/
theorem exists_of_mends {filename : String} {old new : Bytes}
    (hfind : disk.find (Path.ofText filename) = .ok (.file old))
    (h : Mends parser settings disk filename new) :
    ∃ text fixed, Utf8.decode old = .ok text ∧ Inserts (LineBreak.normalize text) fixed ∧
      '\r' ∉ fixed ∧ new = Utf8.encode fixed := by
  obtain ⟨source, report, hread, hlint, -, rfl⟩ := h
  rw [Lint.read_of_find hfind] at hread
  have hsource := Lint.not_mem_of_decoded hread
  rw [Lint.decoded] at hread
  cases hdecode : Utf8.decode old with
  | error error => rw [hdecode] at hread; cases hread
  | ok text =>
    rw [hdecode] at hread
    obtain rfl := Except.ok.inj hread
    have hinserts := Rule.inserts_fixedText hlint (String.ofList (LineBreak.normalize text))
    rw [String.toList_ofList] at hinserts
    exact ⟨text, _, rfl, hinserts, Rule.not_mem_fixedText hlint hsource, rfl⟩

/-- After any run, a file holds what it held, or what it is mended to. -/
theorem exists_find_run (parser : Parser) (hdisk : disk.IsProper) (htree : disk.IsTree)
    (words : List String) {path : Path} (hpath : path.IsPlain) {old : Bytes}
    (hfile : disk.find path = .ok (.file old)) :
    ∃ new, (run parser disk words).disk.find path = .ok (.file new) ∧
      (new = old ∨ ∃ settings filename, (Path.ofText filename).IsPlain ∧
        (Path.ofText filename).parts = path.parts ∧ Mends parser settings disk filename new) := by
  rcases run_cases parser disk words with ⟨hsame, -⟩ | ⟨arguments, settings, filenames, horders⟩
  · exact ⟨old, by rwa [hsame], Or.inl rfl⟩
  cases hfix : arguments.fix with
  | false => exact ⟨old, by rwa [horders.disk_run_of_not_fix hfix], Or.inl rfl⟩
  | true =>
    -- The run may stop at a text that it cannot lint, but what it has written is all mended.
    obtain ⟨count, hdisk'⟩ := exists_disk_settle parser settings
      (filenames.map (attempt parser disk settings true)) disk [] 0
    have hplain : ∀ filename ∈ filenames.take count, (Path.ofText filename).IsPlain :=
      fun filename hmem ↦
        isPlain_of_mem_targets hdisk horders.targets_eq filename (List.mem_of_mem_take hmem)
    rw [← List.map_take] at hdisk'
    rw [horders.run_eq, hfix, hdisk', writeAll_eq_revised hplain htree]
    refine ⟨_, Disk.find_revised hpath hfile _, ?_⟩
    cases hnew : mendings parser settings disk (filenames.take count) path.parts with
    | none => exact Or.inl rfl
    | some new =>
      obtain ⟨filename, hmem, hparts, hmends⟩ := (mendings_eq_some_iff hplain).mp hnew
      exact Or.inr ⟨settings, filename, hplain filename hmem, hparts, hmends⟩

end Files

/-- A run changes nothing in a file but by the block of one fix, line ends apart. After any run, and
whichever way it ends, every file holds what it held, or it holds the text that was read of it with
one block put in. Reading makes every line end a line feed, so a file that is changed has the block
put into its bytes exactly if it had no carriage return. -/
theorem run_inserts_block (parser : Parser) (disk : Disk) (hdisk : disk.IsProper)
    (htree : disk.IsTree) (words : List String) {path : Path} (hpath : path.IsPlain) {old : Bytes}
    (hfile : disk.read path = .ok old) :
    ∃ new, (run parser disk words).disk.read path = .ok new ∧
      (new = old ∨ ∃ text fixed, Utf8.decode old = .ok text ∧
        Inserts (LineBreak.normalize text) fixed ∧ new = Utf8.encode fixed) ∧
      (Inserts old new ↔ new = old ∨ Utf8.carriageReturn ∉ old) := by
  have hfind := Disk.read_eq_ok_iff.mp hfile
  obtain ⟨new, hnew, hcases⟩ := exists_find_run parser hdisk htree words hpath hfind
  refine ⟨new, Disk.read_eq_ok_iff.mpr hnew, ?_⟩
  rcases hcases with rfl | ⟨settings, filename, hplain, hparts, hmends⟩
  · exact ⟨Or.inl rfl, iff_of_true (.refl new) (Or.inl rfl)⟩
  · obtain ⟨held, hheld⟩ := exists_find_of_mends hmends
    -- The path that was linted may be anchored otherwise, but it leads to the same file.
    have hfollow := Disk.follow_of_find hplain hheld
    rw [hparts, Disk.follow_of_find hpath hfind] at hfollow
    obtain rfl := Found.file.inj (Except.ok.inj hfollow)
    obtain ⟨text, fixed, hdecode, hinserts, hfixed, rfl⟩ := exists_of_mends hheld hmends
    have hblock := inserts_encode_iff hdecode hinserts hfixed
    refine ⟨Or.inr ⟨text, fixed, hdecode, hinserts, rfl⟩, ?_⟩
    rw [hblock]
    refine (or_iff_right_of_imp fun hsame ↦ ?_).symm
    exact hblock.mp (hsame ▸ .refl _)

section Mixed

/-- Two files with the same lines. They end in a carriage return and a line feed in the first file,
and in a line feed in the second. -/
def mixedDisk : Disk where
  entries := [.directory "w" [.file "a.tsx" (Utf8.encode "<Show />\r\n<Foo />".toList),
    .file "b.tsx" (Utf8.encode "<Show />\n<Foo />".toList)]]
  cwd := ["w"]

/-- A run on the directory puts a block into the second file, and changes more in the first. -/
theorem run_inserts_block_mixed :
    mixedDisk.IsProper ∧ mixedDisk.IsTree ∧ (Path.mk .root ["w", "a.tsx"]).IsPlain ∧
    (Path.mk .root ["w", "b.tsx"]).IsPlain ∧
    mixedDisk.read ⟨.root, ["w", "a.tsx"]⟩ = .ok (Utf8.encode "<Show />\r\n<Foo />".toList) ∧
    mixedDisk.read ⟨.root, ["w", "b.tsx"]⟩ = .ok (Utf8.encode "<Show />\n<Foo />".toList) ∧
    ∃ new, (run tagsParser mixedDisk ["--fix"]).disk.read ⟨.root, ["w", "a.tsx"]⟩ = .ok new ∧
      (run tagsParser mixedDisk ["--fix"]).disk.read ⟨.root, ["w", "b.tsx"]⟩ = .ok new ∧
      new ≠ Utf8.encode "<Show />\n<Foo />".toList ∧
      ¬ Inserts (Utf8.encode "<Show />\r\n<Foo />".toList) new ∧
      Inserts (Utf8.encode "<Show />\n<Foo />".toList) new := by
  have hdisk : mixedDisk.IsProper := by decide +kernel
  have htree : mixedDisk.IsTree := by decide +kernel
  have hpath : (Path.mk .root ["w", "a.tsx"]).IsPlain := ⟨by decide, by decide +kernel⟩
  have hpath' : (Path.mk .root ["w", "b.tsx"]).IsPlain := ⟨by decide, by decide +kernel⟩
  have hfile : mixedDisk.read ⟨.root, ["w", "a.tsx"]⟩ =
      .ok (Utf8.encode "<Show />\r\n<Foo />".toList) := by
    decide +kernel
  have hfile' : mixedDisk.read ⟨.root, ["w", "b.tsx"]⟩ =
      .ok (Utf8.encode "<Show />\n<Foo />".toList) := by
    decide +kernel
  obtain ⟨new, hnew, -, hblock⟩ :=
    run_inserts_block tagsParser mixedDisk hdisk htree ["--fix"] hpath hfile
  obtain ⟨new', hnew', -, hblock'⟩ :=
    run_inserts_block tagsParser mixedDisk hdisk htree ["--fix"] hpath' hfile'
  obtain ⟨hread, hread'⟩ :
      (run tagsParser mixedDisk ["--fix"]).disk.read ⟨.root, ["w", "a.tsx"]⟩ =
        .ok (Utf8.encode "import \x7b Show \x7d from \"solid-js\";\n<Show />\n<Foo />".toList) ∧
      (run tagsParser mixedDisk ["--fix"]).disk.read ⟨.root, ["w", "b.tsx"]⟩ =
        .ok (Utf8.encode "import \x7b Show \x7d from \"solid-js\";\n<Show />\n<Foo />".toList) := by
    decide +kernel
  obtain rfl := Except.ok.inj (hnew.symm.trans hread)
  obtain rfl := Except.ok.inj (hnew'.symm.trans hread')
  refine ⟨hdisk, htree, hpath, hpath', hfile, hfile', _, hread, hread', by decide +kernel, ?_,
    hblock'.mpr (Or.inr (by decide +kernel))⟩
  intro hinserts
  exact absurd (hblock.mp hinserts) (by decide +kernel)

end Mixed

/-- A file that is fixed loses its carriage returns: what is left is not the file with a block put
in. -/
theorem run_rewrites_lineEnds :
    tagsDisk.read ⟨.root, ["w", "a.tsx"]⟩ = .ok (Utf8.encode "<Show />\r\n<Foo />".toList) ∧
    (run tagsParser tagsDisk ["--fix", "a.tsx"]).ending = .finished 0 ∧
    ∃ new, (run tagsParser tagsDisk ["--fix", "a.tsx"]).disk.read ⟨.root, ["w", "a.tsx"]⟩ =
        .ok new ∧ new ≠ Utf8.encode "<Show />\r\n<Foo />".toList ∧
      ¬ Inserts (Utf8.encode "<Show />\r\n<Foo />".toList) new := by
  obtain ⟨hending, hread⟩ : (run tagsParser tagsDisk ["--fix", "a.tsx"]).ending = .finished 0 ∧
      (run tagsParser tagsDisk ["--fix", "a.tsx"]).disk.read ⟨.root, ["w", "a.tsx"]⟩ =
        .ok (Utf8.encode "import \x7b Show \x7d from \"solid-js\";\n<Show />\n<Foo />".toList) := by
    decide +kernel
  refine ⟨by decide +kernel, hending, _, hread, by decide +kernel, fun h ↦ ?_⟩
  have hmem : Utf8.carriageReturn ∈ Utf8.encode "<Show />\r\n<Foo />".toList := by decide +kernel
  exact absurd (h.subset hmem) (by decide +kernel)

end CommandLine

end TagScope
