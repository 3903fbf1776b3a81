import TagScope.Proofs.Text.Utf8

/-!
# Tokens

A lexer for declarations: words, string literals and single marks, with blanks and comments between
them. It reads one character at a time (`Lexer.step`), so what it makes of a text is put together
from what it makes of the parts (`Lexer.scan_append`).

A text can also be given token by token, each with the gap before it (`Lexeme`). If every gap is
skipped and every word is followed by something that ends it (`Lexed`), then the lexer finds these
tokens (`lex_render_append`), and it goes on finding them when other tokens are put in among them
(`lex_insert`).
-/

set_option autoImplicit false

namespace TagScope

abbrev Token := List Char

namespace Lexer

/-! ### The machine -/

/-- The characters that separate tokens. -/
def isBlank (c : Char) : Bool :=
  decide (0x9 ≤ c.toNat ∧ c.toNat ≤ 0xD) || decide (0x2000 ≤ c.toNat ∧ c.toNat ≤ 0x200B) ||
    [0x20, 0xA0, 0x1680, 0x2028, 0x2029, 0x202F, 0x205F, 0x2060, 0x3000, 0xFEFF].contains c.toNat

def isLineEnd (c : Char) : Bool :=
  [0xA, 0xD, 0x2028, 0x2029].contains c.toNat

def marks : List Char :=
  ":;`\"'@#.,|^&<=>+-*/\\%?!~()[]\x7b\x7d".toList

/-- The characters of a word, escapes apart. -/
def isWordChar (c : Char) : Bool :=
  decide (0x20 ≤ c.toNat) && !isBlank c && !marks.contains c

def quotes : List Char :=
  ['"', '\'']

/-- The characters that may stand in a string literal with either quote as they are. -/
def isPlain (c : Char) : Bool :=
  !quotes.contains c && !(['\\', '\n', '\r'].contains c)

/-- Whether a character continues a word that it follows. -/
def extendsWord (c : Char) : Bool :=
  isWordChar c || decide (c = '\\')

/-- What has been read of the token at hand. -/
inductive Mode where
  | between
  | word (read : Token)
  | escape (read : Token)
  | unicode (read : Token)
  | braced (read : Token)
  | quoted (quote : Char) (read : Token)
  | quotedEscape (quote : Char) (read : Token)
  | slash
  | line
  | block
  | blockStar
deriving DecidableEq, Repr

/-- What a character does where no token is at hand. -/
def start (c : Char) : List Token × Mode :=
  if isBlank c then ([], .between)
  else if isWordChar c then ([], .word [c])
  else if c = '\\' then ([], .escape [c])
  else if c = '/' then ([], .slash)
  else if quotes.contains c then ([], .quoted c [c])
  else ([[c]], .between)

/-- One character: the tokens it completes, and what is at hand after it. A backslash in a word
takes along the letter behind it, and braces if they come next. -/
def step : Mode → Char → List Token × Mode
  | .between, c => start c
  | .word read, c =>
    if isWordChar c then ([], .word (read ++ [c]))
    else if c = '\\' then ([], .escape (read ++ [c]))
    else (read :: (start c).1, (start c).2)
  | .escape read, c => ([], .unicode (read ++ [c]))
  | .unicode read, c => ([], if c = '{' then .braced (read ++ [c]) else .word (read ++ [c]))
  | .braced read, c => ([], if c = '}' then .word (read ++ [c]) else .braced (read ++ [c]))
  | .quoted quote read, c =>
    if c = quote then ([read ++ [c]], .between)
    else if c = '\\' then ([], .quotedEscape quote (read ++ [c]))
    else if c = '\n' ∨ c = '\r' then ([read], .between)
    else ([], .quoted quote (read ++ [c]))
  | .quotedEscape quote read, c => ([], .quoted quote (read ++ [c]))
  | .slash, c =>
    if c = '/' then ([], .line)
    else if c = '*' then ([], .block)
    else (['/'] :: (start c).1, (start c).2)
  | .line, c => ([], if isLineEnd c then .between else .line)
  | .block, c => ([], if c = '*' then .blockStar else .block)
  | .blockStar, c =>
    ([], if c = '/' then .between else if c = '*' then .blockStar else .block)

def scan : Mode → List Char → List Token × Mode
  | mode, [] => ([], mode)
  | mode, c :: rest =>
    ((step mode c).1 ++ (scan (step mode c).2 rest).1, (scan (step mode c).2 rest).2)

/-- The token that is at hand when the text ends. -/
def Mode.rest : Mode → List Token
  | .word read => [read]
  | .escape read => [read]
  | .unicode read => [read]
  | .braced read => [read]
  | .quoted _ read => [read]
  | .quotedEscape _ read => [read]
  | .slash => [['/']]
  | .between => []
  | .line => []
  | .block => []
  | .blockStar => []

def lexFrom (mode : Mode) (text : List Char) : List Token :=
  (scan mode text).1 ++ (scan mode text).2.rest

def lex (text : List Char) : List Token :=
  lexFrom .between text

theorem scan_append (a b : List Char) (mode : Mode) :
    scan mode (a ++ b) =
      ((scan mode a).1 ++ (scan (scan mode a).2 b).1, (scan (scan mode a).2 b).2) := by
  induction a generalizing mode with
  | nil => rfl
  | cons c a ih => simp only [List.cons_append, scan, ih, List.append_assoc]

theorem lexFrom_append (a b : List Char) (mode : Mode) :
    lexFrom mode (a ++ b) = (scan mode a).1 ++ lexFrom (scan mode a).2 b := by
  simp only [lexFrom, scan_append, List.append_assoc]

/-! ### Gaps, words and other tokens -/

/-- A text that is skipped. -/
def IsGap (text : List Char) : Prop :=
  scan .between text = ([], .between)

/-- A text that is read as one word, if it does not go on. -/
def IsWord (text : List Char) : Prop :=
  scan .between text = ([], .word text)

/-- A text that is one token, whatever follows. -/
def IsClosed (text : List Char) : Prop :=
  scan .between text = ([text], .between)

/-- A text that does not continue a word before it. -/
def Breaks (text : List Char) : Prop :=
  text.head?.any extendsWord = false

instance (text : List Char) : Decidable (IsGap text) :=
  inferInstanceAs (Decidable (_ = _))

instance (text : List Char) : Decidable (IsWord text) :=
  inferInstanceAs (Decidable (_ = _))

instance (text : List Char) : Decidable (IsClosed text) :=
  inferInstanceAs (Decidable (_ = _))

instance (text : List Char) : Decidable (Breaks text) :=
  inferInstanceAs (Decidable (_ = _))

theorem lex_gap_append {gap : List Char} (h : IsGap gap) (text : List Char) :
    lex (gap ++ text) = lex text := by
  rw [lex, lexFrom_append, h, List.nil_append, lex]

theorem lex_closed_append {token : Token} (h : IsClosed token) (text : List Char) :
    lex (token ++ text) = token :: lex text := by
  rw [lex, lexFrom_append, h, List.singleton_append, lex]

theorem lexFrom_word_of_breaks {token : Token} {text : List Char} (h : Breaks text) :
    lexFrom (.word token) text = token :: lex text := by
  cases text with
  | nil => rfl
  | cons c text =>
    have hc : extendsWord c = false := h
    simp only [extendsWord, Bool.or_eq_false_iff, decide_eq_false_iff_not] at hc
    simp [lex, lexFrom, scan, step, hc.1, hc.2]

theorem lex_word_append {token : Token} (h : IsWord token) {text : List Char}
    (hbreaks : Breaks text) : lex (token ++ text) = token :: lex text := by
  rw [lex, lexFrom_append, h, List.nil_append, lexFrom_word_of_breaks hbreaks]

theorem scan_quoted {quote : Char} (hquote : quote ∈ quotes) {text : List Char}
    (h : ∀ c ∈ text, isPlain c) (read : Token) :
    scan (.quoted quote read) text = ([], .quoted quote (read ++ text)) := by
  induction text generalizing read with
  | nil => rw [List.append_nil, scan]
  | cons c text ih =>
    obtain ⟨hc, htext⟩ := List.forall_mem_cons.mp h
    have hstep : step (.quoted quote read) c = ([], .quoted quote (read ++ [c])) := by
      simp only [isPlain, Bool.and_eq_true, Bool.not_eq_true', List.contains_eq_mem,
        decide_eq_false_iff_not, List.mem_cons, not_or] at hc
      have hne : c ≠ quote := fun heq ↦ hc.1 (heq ▸ hquote)
      simp [step, hne, hc.2]
    rw [scan, hstep, ih htext, List.append_assoc]
    rfl

/-- A string literal of plain characters is one token. -/
theorem isClosed_quoted {quote : Char} (hquote : quote ∈ quotes) {text : List Char}
    (h : ∀ c ∈ text, isPlain c) : IsClosed (quote :: text ++ [quote]) := by
  have hstart : step .between quote = ([], .quoted quote [quote]) := by
    simp only [quotes, List.mem_cons, List.not_mem_nil, or_false] at hquote
    rcases hquote with rfl | rfl <;> decide
  rw [IsClosed, List.cons_append, scan, hstart, scan_append, scan_quoted hquote h]
  simp [scan, step]

theorem IsClosed.not_isWord {token : Token} (h : IsClosed token) : ¬ IsWord token := by
  intro hword
  rw [IsClosed, hword] at h
  cases h

end Lexer

/-! ### Texts given by their tokens -/

open Lexer

/-- A token in a text, with the gap before it and its span in bytes. -/
structure Lexeme where
  gap : List Char
  text : Token
  start : Nat
  stop : Nat
deriving DecidableEq, Repr

namespace Lexeme

def render (ls : List Lexeme) : List Char :=
  ls.flatMap fun l ↦ l.gap ++ l.text

@[simp] theorem render_nil : render [] = [] := rfl

@[simp] theorem render_cons (l : Lexeme) (ls : List Lexeme) :
    render (l :: ls) = l.gap ++ l.text ++ render ls :=
  List.flatMap_cons

@[simp] theorem render_append (a b : List Lexeme) : render (a ++ b) = render a ++ render b :=
  List.flatMap_append

/-- Each of the tokens is one for the lexer where it stands, `follow` being the text after the
last. -/
def Lexed : List Lexeme → List Char → Prop
  | [], _ => True
  | l :: ls, follow =>
    IsGap l.gap ∧ (IsClosed l.text ∨ IsWord l.text ∧ Breaks (render ls ++ follow)) ∧
      Lexed ls follow

instance decidableLexed : (ls : List Lexeme) → (follow : List Char) → Decidable (Lexed ls follow)
  | [], _ => inferInstanceAs (Decidable True)
  | _ :: ls, follow =>
    have := decidableLexed ls follow
    inferInstanceAs (Decidable (_ ∧ _ ∧ _))

variable {a b ls inner : List Lexeme} {l : Lexeme} {follow : List Char}

theorem lexed_append : Lexed (a ++ b) follow ↔ Lexed a (render b ++ follow) ∧ Lexed b follow := by
  induction a with
  | nil => simp [Lexed]
  | cons l a ih => simp [Lexed, ih, List.append_assoc, and_assoc]

theorem Lexed.breaks_append {text follow' : List Char} (h : Breaks (text ++ follow))
    (hfollow : Breaks follow') : Breaks (text ++ follow') := by
  cases text with
  | nil => exact hfollow
  | cons c text => exact h

/-- What follows may be replaced by anything that ends a word. -/
theorem Lexed.of_breaks {follow' : List Char} (h : Lexed ls follow) (hfollow : Breaks follow') :
    Lexed ls follow' := by
  induction ls with
  | nil => trivial
  | cons l ls ih =>
    obtain ⟨hgap, htoken, hls⟩ := h
    refine ⟨hgap, htoken.imp_right fun hword ↦ ?_, ih hls⟩
    exact ⟨hword.1, Lexed.breaks_append hword.2 hfollow⟩

theorem Lexed.breaks_of_isWord (h : Lexed (a ++ [l]) follow) (hl : IsWord l.text) :
    Breaks follow := by
  rw [lexed_append] at h
  obtain ⟨-, -, hclosed | hword, -⟩ := h
  · exact absurd hl hclosed.not_isWord
  · exact hword.2

/-- The lexer finds the tokens that a text is given by. -/
theorem lex_render_append (h : Lexed ls follow) :
    lex (render ls ++ follow) = ls.map text ++ lex follow := by
  induction ls with
  | nil => rfl
  | cons l ls ih =>
    obtain ⟨hgap, htoken, hls⟩ := h
    rw [render_cons, List.append_assoc, List.append_assoc, lex_gap_append hgap, List.map_cons,
      List.cons_append, ← ih hls]
    rcases htoken with hclosed | ⟨hword, hbreaks⟩
    · exact lex_closed_append hclosed _
    · exact lex_word_append hword hbreaks

/-- Tokens put in among others, with a gap behind them. -/
theorem lex_insert {pad : List Char} (h : Lexed (a ++ b) [])
    (hinner : Lexed inner (pad ++ render b)) (hpad : IsGap pad)
    (hbreaks : a = [] ∨ Breaks (render inner ++ pad ++ render b)) :
    lex (render a ++ (render inner ++ pad) ++ render b) =
      a.map text ++ inner.map text ++ b.map text := by
  rw [lexed_append, List.append_nil] at h
  have ha : Lexed a (render inner ++ (pad ++ render b)) := by
    rcases hbreaks with rfl | hbreaks
    · trivial
    · rw [List.append_assoc] at hbreaks
      exact h.1.of_breaks hbreaks
  have hb : lex (render b) = b.map text := by
    have := lex_render_append h.2
    rwa [List.append_nil, show lex [] = [] from rfl, List.append_nil] at this
  rw [List.append_assoc, List.append_assoc, lex_render_append ha, lex_render_append hinner,
    lex_gap_append hpad, hb, List.append_assoc]

/-! ### Places -/

/-- The spans say where the tokens stand if `before` is the text before them. -/
def Placed : List Char → List Lexeme → Prop
  | _, [] => True
  | before, l :: ls =>
    l.start = (Utf8.encode (before ++ l.gap)).length ∧
      l.stop = (Utf8.encode (before ++ l.gap ++ l.text)).length ∧
        Placed (before ++ l.gap ++ l.text) ls

instance decidablePlaced : (before : List Char) → (ls : List Lexeme) → Decidable (Placed before ls)
  | _, [] => inferInstanceAs (Decidable True)
  | before, l :: ls =>
    have := decidablePlaced (before ++ l.gap ++ l.text) ls
    inferInstanceAs (Decidable (_ ∧ _ ∧ _))

theorem placed_append {before : List Char} :
    Placed before (a ++ b) ↔ Placed before a ∧ Placed (before ++ render a) b := by
  induction a generalizing before with
  | nil => simp [Placed]
  | cons l a ih => simp [Placed, ih, and_assoc]

theorem Placed.start_eq {before : List Char} (h : Placed before (a ++ l :: b)) :
    l.start = (Utf8.encode (before ++ render a ++ l.gap)).length :=
  (placed_append.mp h).2.1

/-- A token ends where the text up to it ends. -/
theorem Placed.stop_eq {before : List Char} (h : Placed before (a ++ l :: b)) :
    l.stop = (Utf8.encode (before ++ render a ++ l.gap ++ l.text)).length :=
  (placed_append.mp h).2.2.1

end Lexeme

end TagScope
