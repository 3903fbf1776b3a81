import TagScope.Lint.Files
import TagScope.Proofs.Files.Collect
import TagScope.Proofs.Rule.Insertion

/-!
# Reading a fixed file again

A text that is read from a file has no carriage returns, since line ends are normalized. Neither has
a text that was fixed (`not_mem_fixedText`), so what is written for it is read back as it is
(`decoded_encode`). The result for a file follows from what is read of it (`attempt_eq`), and where
there is no file, the same is read from every disk with the same outline (`read_eq_of_sameOutline`).
-/

set_option autoImplicit false

namespace TagScope

/-! ### Line ends -/

namespace LineBreak

theorem not_mem_normalize (text : List Char) : '\r' ∉ normalize text := by
  fun_induction normalize text with
  | case1 => exact List.not_mem_nil
  | case2 rest ih => simpa using ih
  | case3 c rest hrest ih =>
    by_cases hc : c = '\r'
    · simpa [hc] using ih
    · simpa [hc, Ne.symm hc] using ih

theorem normalize_of_not_mem {text : List Char} (h : '\r' ∉ text) : normalize text = text := by
  fun_induction normalize text with
  | case1 => rfl
  | case2 rest ih => simp at h
  | case3 c rest hrest ih =>
    obtain ⟨hc, hmem⟩ := not_or.mp (mt List.mem_cons.mpr h)
    rw [if_neg (Ne.symm hc), ih hmem]

end LineBreak

/-! ### Fixed texts -/

theorem Slice.mem_splice {α : Type} {xs replacement : List α} {start stop : Int} {x : α}
    (h : x ∈ splice xs start stop replacement) : x ∈ xs ∨ x ∈ replacement := by
  rcases List.mem_append.mp h with h | h
  · rcases List.mem_append.mp h with h | h
    · exact Or.inl (List.mem_of_mem_take h)
    · exact Or.inr h
  · exact Or.inl (List.mem_of_mem_drop h)

theorem mem_joinNames {names : List String} {c : Char} (h : c ∈ (joinNames names).toList) :
    c ∈ ", ".toList ∨ ∃ name ∈ names, c ∈ name.toList := by
  rw [joinNames, String.toList_intercalate] at h
  induction names with
  | nil => simp at h
  | cons name rest ih =>
    cases rest with
    | nil =>
      rw [List.map_singleton, List.intercalate_singleton] at h
      exact Or.inr ⟨name, List.mem_cons_self, h⟩
    | cons next more =>
      rw [List.map_cons, List.map_cons, List.intercalate_cons_cons, List.append_assoc] at h
      rcases List.mem_append.mp h with hname | h
      · exact Or.inr ⟨name, List.mem_cons_self, hname⟩
      rcases List.mem_append.mp h with hcomma | h
      · exact Or.inl hcomma
      · rcases ih h with hcomma | ⟨other, hother, hmem⟩
        · exact Or.inl hcomma
        · exact Or.inr ⟨other, List.mem_cons_of_mem _ hother, hmem⟩

/-- No text that a fix inserts has a carriage return. -/
theorem not_mem_of_mem_importTexts {source text : String} {names : List String}
    (hsource : '\r' ∉ source.toList) (hnames : ∀ name ∈ names, '\r' ∉ name.toList)
    (h : text ∈ importTexts source names) : '\r' ∉ text.toList := by
  have hjoined : '\r' ∉ (joinNames names).toList := by
    intro hmem
    rcases mem_joinNames hmem with hcomma | ⟨name, hname, hmem⟩
    · simp at hcomma
    · exact hnames name hname hmem
  simp only [importTexts, List.mem_cons, List.not_mem_nil, or_false] at h
  rcases h with rfl | rfl | rfl | rfl | rfl | rfl <;>
    simp [importStatement, bracedNames, hjoined, hsource]

namespace Rule

/-- Fixing a text without carriage returns brings none in. -/
theorem not_mem_fixedText {doc : Document} {settings : Settings} {report : List Diagnostic}
    (h : diagnose doc settings = .ok report) {source : String} (hsource : '\r' ∉ source.toList) :
    '\r' ∉ (fixedText source report).toList := by
  have hnames : ∀ name ∈ doc.unimported framework (scan doc settings).missing.names,
      '\r' ∉ name.toList := by
    intro name hname
    have himportable := mem_importable_of_mem_missing (List.mem_filter.mp hname).1
    simp only [importable, List.mem_cons, List.not_mem_nil, or_false] at himportable
    rcases himportable with rfl | rfl | rfl | rfl | rfl <;> decide
  rcases fixes_cases h with hnone | ⟨insertion, hone, hspells⟩
  · rw [fixedText, hnone, Edit.applyAll_nil]
    exact hsource
  · rw [fixedText, hone, Edit.toList_applyAll_singleton]
    intro hmem
    rcases Slice.mem_splice hmem with hmem | hmem
    · exact hsource hmem
    · exact not_mem_of_mem_importTexts (by decide) hnames hspells.text_mem hmem

end Rule

/-! ### Results from texts -/

namespace Lint

/-- The text that the content of a file stands for. -/
def decoded (content : Bytes) : Except FileError String :=
  match Utf8.decode content with
  | .error error => .error (.undecodable error)
  | .ok text => .ok (String.ofList (LineBreak.normalize text))

theorem not_mem_of_decoded {content : Bytes} {text : String} (h : decoded content = .ok text) :
    '\r' ∉ text.toList := by
  unfold decoded at h
  split at h
  · cases h
  · obtain rfl := Except.ok.inj h
    rw [String.toList_ofList]
    exact LineBreak.not_mem_normalize _

/-- What is written for a text without carriage returns is read back. -/
theorem decoded_encode {text : String} (h : '\r' ∉ text.toList) :
    decoded (Utf8.encode text.toList) = .ok text := by
  rw [decoded, Utf8.decode_encode]
  dsimp only
  rw [LineBreak.normalize_of_not_mem h, String.ofList_toList]

variable (parser : Parser) (settings : Settings)

/-- The result for a file whose text is known, or is known to be unreadable. -/
def resultOf (fix : Bool) (filename : String) : Except FileError String → FileReport
  | .error error => .failed filename error
  | .ok content =>
    match text parser settings filename content with
    | .error fault => .failed filename (.imports fault)
    | .ok diagnostics =>
      ⟨filename, diagnostics, none, if fix then some (fixedText content diagnostics) else none⟩

theorem attempt_eq (disk : Disk) (fix : Bool) (filename : String) :
    attempt parser disk settings fix filename =
      resultOf parser settings fix filename (read disk filename) := by
  rw [attempt, file]
  cases read disk filename with
  | error error => rfl
  | ok content =>
    dsimp only [resultOf]
    cases text parser settings filename content with
    | error fault => rfl
    | ok diagnostics => rfl

theorem read_of_find {disk : Disk} {filename : String} {content : Bytes}
    (h : disk.find (Path.ofText filename) = .ok (.file content)) :
    read disk filename = decoded content := by
  rw [read, Disk.read, h]
  rfl

theorem exists_find_of_read {disk : Disk} {filename text : String}
    (h : read disk filename = .ok text) :
    ∃ content, disk.find (Path.ofText filename) = .ok (.file content) := by
  rw [read, Disk.read] at h
  match hfind : disk.find (Path.ofText filename) with
  | .error fault => rw [hfind] at h; cases h
  | .ok (.directory entries) => rw [hfind] at h; cases h
  | .ok (.file content) => exact ⟨content, rfl⟩

/-- Where a disk has no file at a path, one with the same outline gives the same error. -/
theorem read_eq_of_sameOutline {disk disk' : Disk} (h : disk.SameOutline disk') {filename : String}
    (hfile : ∀ content, disk.find (Path.ofText filename) ≠ .ok (.file content)) :
    read disk' filename = read disk filename := by
  rw [read, Disk.read, read, Disk.read]
  rcases h.find_cases (Path.ofText filename) with ⟨fault, hfind, hfind'⟩ |
    ⟨content, content', hfind, -⟩ | ⟨entries, entries', hfind, hfind', -⟩
  · rw [hfind, hfind']
  · exact absurd hfind (hfile content)
  · rw [hfind, hfind']

end Lint

end TagScope
