import TagScope.CommandLine.Arguments

/-!
# Command lines without the option to fix

`Reads` is the reading of classified words as a relation, one rule for each sort of word; it agrees
with the function that reads them (`reads_iff`). Words that belong to nothing are remembered to the
end, and so is a second run of positional words (`Reads.extras_ne_nil`).

`withoutFix` takes the words away that ask for fixes. What is left reads as the same arguments, but
for the fixes (`ofWords_withoutFix`). The one thing that such a word does besides is to end a run of
positional words. If another run follows, the words were refused before, so nothing is gained.
-/

set_option autoImplicit false

namespace TagScope.CommandLine

/-! ### Reading as a relation -/

/-- How a reading of some words goes on and ends. -/
inductive Reads : Reading → List (String × Word) → Reading → Prop
  | done (r : Reading) : Reads r [] r.endRun
  | plain {r final : Reading} {word : String} {kind : Word} {rest : List (String × Word)}
      (hkind : kind = .positional ∨ kind = .separator)
      (h : Reads { r with run := r.run ++ [word] } rest final) :
      Reads r ((word, kind) :: rest) final
  | unknown {r final : Reading} {word : String} {rest : List (String × Word)}
      (h : Reads { r.endRun with extras := r.endRun.extras ++ [word] } rest final) :
      Reads r ((word, .unknown) :: rest) final
  | given {r final : Reading} {word value : String} {id : OptionId} {arguments : Arguments}
      {rest : List (String × Word)} (hgive : r.endRun.arguments.give id value = .ok arguments)
      (h : Reads { r.endRun with arguments := arguments } rest final) :
      Reads r ((word, .option id (some value)) :: rest) final
  | awaited {r final : Reading} {word value : String} {id : OptionId} {arguments : Arguments}
      {rest : List (String × Word)} (hid : id.takesValue = true)
      (hgive : r.endRun.arguments.give id value = .ok arguments)
      (h : Reads { r.endRun with arguments := arguments } rest final) :
      Reads r ((word, .option id none) :: (value, .positional) :: rest) final
  | flag {r final : Reading} {word : String} {id : OptionId} {arguments : Arguments}
      {rest : List (String × Word)} (hid : id.takesValue = false)
      (hset : r.endRun.arguments.set id = .ok arguments)
      (h : Reads { r.endRun with arguments := arguments } rest final) :
      Reads r ((word, .option id none) :: rest) final

theorem reads_of_readWords {r final : Reading} {words : List (String × Word)}
    (h : readWords r words = .ok final) : Reads r words final := by
  fun_induction readWords r words with
  | case1 r => exact Except.ok.inj h ▸ .done r
  | case2 r word rest ih => exact .plain (Or.inl rfl) (ih h)
  | case3 r word rest ih => exact .plain (Or.inr rfl) (ih h)
  | case4 r word rest ih => exact .unknown (ih h)
  | case5 => cases h
  | case6 r word id value rest arguments hgive ih => exact .given hgive (ih h)
  | case7 => cases h
  | case8 r word id hid value rest arguments hgive ih => exact .awaited hid hgive (ih h)
  | case9 => cases h
  | case10 => cases h
  | case11 r word id rest hid arguments hset ih => exact .flag (by simpa using hid) hset (ih h)

theorem readWords_of_reads {r final : Reading} {words : List (String × Word)}
    (h : Reads r words final) : readWords r words = .ok final := by
  induction h with
  | done r => rfl
  | plain hkind h ih =>
    rcases hkind with rfl | rfl
    · exact ih
    · exact ih
  | unknown h ih => exact ih
  | given hgive h ih =>
    rw [readWords, hgive]
    exact ih
  | awaited hid hgive h ih =>
    rw [readWords, if_pos hid]
    dsimp only
    rw [hgive]
    exact ih
  | flag hid hset h ih =>
    rw [readWords.eq_def]
    dsimp only
    rw [if_neg (by simp [hid]), hset]
    exact ih

theorem reads_iff {r final : Reading} {words : List (String × Word)} :
    readWords r words = .ok final ↔ Reads r words final :=
  ⟨reads_of_readWords, readWords_of_reads⟩

namespace Reading

/-- Whether some words are already left over, or will be once the run at hand has ended. -/
def HasLeftovers (r : Reading) : Prop :=
  r.extras ≠ [] ∨ r.taken = true ∧ r.run ≠ []

theorem endRun_of_run_eq_nil {r : Reading} (h : r.run = []) : r.endRun = r := by
  simp [endRun, h]

theorem endRun_of_taken {r : Reading} (hrun : r.run ≠ []) (htaken : r.taken = true) :
    r.endRun = { r with run := [], extras := r.extras ++ r.run } := by
  simp [endRun, hrun, htaken]

theorem endRun_of_not_taken {r : Reading} (hrun : r.run ≠ []) (htaken : r.taken = false) :
    r.endRun = { r with
      arguments := { r.arguments with
        paths := if (r.run.erase separator).isEmpty then ["."] else r.run.erase separator }
      taken := true
      run := [] } := by
  simp [endRun, hrun, htaken]

theorem run_endRun (r : Reading) : r.endRun.run = [] := by
  by_cases hrun : r.run = []
  · rw [endRun_of_run_eq_nil hrun, hrun]
  · cases htaken : r.taken with
    | true => rw [endRun_of_taken hrun htaken]
    | false => rw [endRun_of_not_taken hrun htaken]

theorem taken_endRun {r : Reading} (h : r.taken = true ∨ r.run ≠ []) : r.endRun.taken = true := by
  by_cases hrun : r.run = []
  · rw [endRun_of_run_eq_nil hrun]
    exact h.resolve_right fun hne ↦ hne hrun
  · cases htaken : r.taken with
    | true => rw [endRun_of_taken hrun htaken, htaken]
    | false => rw [endRun_of_not_taken hrun htaken]

theorem HasLeftovers.endRun {r : Reading} (h : r.HasLeftovers) : r.endRun.extras ≠ [] := by
  by_cases hrun : r.run = []
  · rw [endRun_of_run_eq_nil hrun]
    exact h.resolve_right fun hleft ↦ hleft.2 hrun
  · cases htaken : r.taken with
    | true =>
      rw [endRun_of_taken hrun htaken]
      simp [hrun]
    | false =>
      rw [endRun_of_not_taken hrun htaken]
      exact h.resolve_right fun hleft ↦ by simp [htaken] at hleft

end Reading

/-- Words that nothing takes are never taken later. -/
theorem Reads.extras_ne_nil {r final : Reading} {words : List (String × Word)}
    (h : Reads r words final) (hleft : r.HasLeftovers) : final.extras ≠ [] := by
  induction h with
  | done r => exact hleft.endRun
  | plain hkind h ih => exact ih (hleft.imp_right fun hrun ↦ ⟨hrun.1, by simp⟩)
  | unknown h ih => exact ih (Or.inl (by simp))
  | given hgive h ih => exact ih (Or.inl hleft.endRun)
  | awaited hid hgive h ih => exact ih (Or.inl hleft.endRun)
  | flag hid hset h ih => exact ih (Or.inl hleft.endRun)

/-! ### Arguments without fixes -/

namespace Arguments

def withoutFix (arguments : Arguments) : Arguments :=
  { arguments with fix := false }

/-- Every other option has the same effect. -/
theorem set_withoutFix {arguments result : Arguments} {id : OptionId} (hid : id ≠ .fix)
    (h : arguments.set id = .ok result) : arguments.withoutFix.set id = .ok result.withoutFix := by
  cases id with
  | fix => exact absurd rfl hid
  | help | global | host | portNumber => cases h
  | allowGlobals | noAutoImport | typescript | script | verbose | serve | openBrowser =>
    obtain rfl := Except.ok.inj h
    rfl

theorem give_withoutFix {arguments result : Arguments} {id : OptionId} {value : String}
    (h : arguments.give id value = .ok result) :
    arguments.withoutFix.give id value = .ok result.withoutFix := by
  unfold give at h ⊢
  split at h
  · obtain rfl := Except.ok.inj h
    rfl
  · obtain rfl := Except.ok.inj h
    rfl
  · split at h
    · obtain rfl := Except.ok.inj h
      rfl
    · obtain rfl := Except.ok.inj h
      rfl
    · cases h
  · cases h

end Arguments

namespace Reading

def withoutFix (r : Reading) : Reading :=
  { r with arguments := r.arguments.withoutFix }

theorem endRun_withoutFix (r : Reading) : r.withoutFix.endRun = r.endRun.withoutFix := by
  by_cases hrun : r.run = []
  · rw [endRun_of_run_eq_nil hrun]
    exact endRun_of_run_eq_nil hrun
  · cases htaken : r.taken with
    | true =>
      rw [endRun_of_taken hrun htaken]
      exact endRun_of_taken hrun htaken
    | false =>
      rw [endRun_of_not_taken hrun htaken]
      exact endRun_of_not_taken hrun htaken

/-- A reading from which words that ask for fixes were taken away: it differs in whether fixes are
asked for, or it is still in the run of paths that such a word has ended in the other. -/
structure Lags (r s : Reading) : Prop where
  endRun_eq : s.endRun = r.endRun.withoutFix
  eq_or_taken : s = r.withoutFix ∨ r.run = [] ∧ r.taken = true

theorem lags_withoutFix (r : Reading) : Lags r r.withoutFix :=
  ⟨r.endRun_withoutFix, Or.inl rfl⟩

/-- A word that asks for fixes ends a run. Without it the run goes on. -/
theorem Lags.fix {r s : Reading} (h : Lags r s) :
    Lags { r.endRun with arguments := { r.endRun.arguments with fix := true } } s := by
  have hended : Reading.run { r.endRun with
      arguments := { r.endRun.arguments with fix := true } } = [] := r.run_endRun
  refine ⟨?_, ?_⟩
  · rw [h.endRun_eq, endRun_of_run_eq_nil hended]
    rfl
  · rcases h.eq_or_taken with rfl | ⟨hrun, htaken⟩
    · by_cases hrun : r.run = []
      · refine Or.inl ?_
        rw [endRun_of_run_eq_nil hrun]
        rfl
      · exact Or.inr ⟨r.run_endRun, taken_endRun (Or.inr hrun)⟩
    · exact Or.inr ⟨r.run_endRun, taken_endRun (Or.inl htaken)⟩

theorem Lags.give {r s : Reading} (h : Lags r s) {id : OptionId} {value : String}
    {arguments : Arguments} (hgive : r.endRun.arguments.give id value = .ok arguments) :
    s.endRun.arguments.give id value = .ok arguments.withoutFix := by
  rw [h.endRun_eq]
  exact Arguments.give_withoutFix hgive

end Reading

/-- Whether a word is kept when those that ask for fixes are taken away. -/
def isKept (word : String × Word) : Bool :=
  decide (word.2 ≠ .option .fix none)

/-- Without the words that ask for fixes, a reading that leaves no word over ends the same but for
the fixes. -/
theorem Reads.filter_isKept {r final : Reading} {words : List (String × Word)}
    (h : Reads r words final) (hfinal : final.extras = []) {s : Reading} (hlags : r.Lags s) :
    Reads s (words.filter isKept) final.withoutFix := by
  induction h generalizing s with
  | done r =>
    rw [← hlags.endRun_eq]
    exact .done s
  | @plain r final word kind rest hkind h ih =>
    have hkept : isKept (word, kind) = true := by
      rcases hkind with rfl | rfl <;> rfl
    rw [List.filter_cons_of_pos hkept]
    rcases hlags.eq_or_taken with rfl | ⟨hrun, htaken⟩
    · exact .plain hkind (ih hfinal (Reading.lags_withoutFix _))
    · -- A second run: its words are left over in the end.
      exact absurd hfinal (h.extras_ne_nil (Or.inr ⟨htaken, by simp⟩))
  | unknown h ih => exact absurd hfinal (h.extras_ne_nil (Or.inl (by simp)))
  | @given r final word value id arguments rest hgive h ih =>
    rw [List.filter_cons_of_pos (by simp [isKept])]
    refine .given (hlags.give hgive) ?_
    rw [hlags.endRun_eq]
    exact ih hfinal (Reading.lags_withoutFix _)
  | @awaited r final word value id arguments rest hid hgive h ih =>
    have hne : id ≠ .fix := by
      rintro rfl
      cases hid
    rw [List.filter_cons_of_pos (by simpa [isKept] using hne), List.filter_cons_of_pos rfl]
    refine .awaited hid (hlags.give hgive) ?_
    rw [hlags.endRun_eq]
    exact ih hfinal (Reading.lags_withoutFix _)
  | @flag r final word id arguments rest hid hset h ih =>
    by_cases hfix : id = .fix
    · subst hfix
      rw [List.filter_cons_of_neg (by simp [isKept])]
      obtain rfl := Except.ok.inj hset
      exact ih hfinal hlags.fix
    · rw [List.filter_cons_of_pos (by simpa [isKept] using hfix)]
      have hsets : s.endRun.arguments.set id = .ok arguments.withoutFix := by
        rw [hlags.endRun_eq]
        exact Arguments.set_withoutFix hfix hset
      refine .flag hid hsets ?_
      rw [hlags.endRun_eq]
      exact ih hfinal (Reading.lags_withoutFix _)

/-! ### Words without fixes -/

/-- Whether a word asks for fixes, in full or shortened. -/
def asksForFix (word : String) : Bool :=
  match classify word with
  | .ok (.option .fix none) => true
  | _ => false

/-- A command line without the words that ask for fixes. From the separator on all words are
paths. -/
def withoutFix : List String → List String
  | [] => []
  | word :: rest =>
    if word = separator then word :: rest
    else if asksForFix word then withoutFix rest
    else word :: withoutFix rest

theorem asksForFix_eq {word : String} {kind : Word} (h : classify word = .ok kind) :
    asksForFix word = !isKept (word, kind) := by
  rw [asksForFix, h, isKept]
  split
  next hkind =>
    obtain rfl := Except.ok.inj hkind
    rfl
  next hkind =>
    have hne : kind ≠ .option .fix none := fun heq ↦ hkind (by rw [heq])
    simp [hne]

theorem filter_isKept_separated (word : String) (rest : List String) :
    ((word, Word.separator) :: rest.map fun w ↦ (w, Word.positional)).filter isKept =
      (word, .separator) :: rest.map fun w ↦ (w, .positional) := by
  rw [List.filter_eq_self]
  intro entry hentry
  rcases List.mem_cons.mp hentry with rfl | hentry
  · rfl
  · obtain ⟨other, -, rfl⟩ := List.mem_map.mp hentry
    rfl

theorem classifyAll_withoutFix {words : List String} {classified : List (String × Word)}
    (h : classifyAll words = .ok classified) :
    classifyAll (withoutFix words) = .ok (classified.filter isKept) := by
  induction words generalizing classified with
  | nil =>
    obtain rfl := Except.ok.inj h
    rfl
  | cons word rest ih =>
    rw [classifyAll] at h
    by_cases hseparator : word = separator
    · rw [if_pos hseparator] at h
      obtain rfl := Except.ok.inj h
      rw [withoutFix, if_pos hseparator, classifyAll, if_pos hseparator, filter_isKept_separated]
    · rw [if_neg hseparator] at h
      cases hkind : classify word with
      | error error => rw [hkind] at h; cases h
      | ok kind =>
        rw [hkind] at h
        cases hrest : classifyAll rest with
        | error error => rw [hrest] at h; cases h
        | ok others =>
          rw [hrest] at h
          obtain rfl := Except.ok.inj h
          rw [withoutFix, if_neg hseparator, asksForFix_eq hkind]
          cases hkept : isKept (word, kind) with
          | true =>
            rw [List.filter_cons_of_pos hkept, if_neg (by simp), classifyAll, if_neg hseparator,
              hkind, ih hrest]
            rfl
          | false =>
            rw [List.filter_cons_of_neg (by simp [hkept]), if_pos (by rfl)]
            exact ih hrest

/-- Without the words that ask for fixes, a command line gives the same arguments but for the
fixes. -/
theorem ofWords_withoutFix {words : List String} {arguments : Arguments}
    (h : Arguments.ofWords words = .ok arguments) :
    Arguments.ofWords (withoutFix words) = .ok arguments.withoutFix := by
  unfold Arguments.ofWords at h
  cases hclassified : classifyAll words with
  | error error => rw [hclassified] at h; cases h
  | ok classified =>
    rw [hclassified] at h
    dsimp only at h
    cases hread : readWords .start classified with
    | error refusal => rw [hread] at h; cases h
    | ok final =>
      rw [hread] at h
      dsimp only at h
      by_cases hextras : final.extras.isEmpty = true
      · rw [if_pos hextras] at h
        obtain rfl := Except.ok.inj h
        have hreads : readWords .start (classified.filter isKept) = .ok final.withoutFix :=
          reads_iff.mpr ((reads_iff.mp hread).filter_isKept (by simpa using hextras)
            (Reading.lags_withoutFix .start))
        rw [Arguments.ofWords, classifyAll_withoutFix hclassified]
        dsimp only
        rw [hreads]
        exact if_pos hextras
      · rw [if_neg hextras] at h
        cases h

end TagScope.CommandLine
