import TagScope.Proofs.Imports.Adding
import TagScope.Proofs.Imports.Seams

/-!
# The names that a text spells

Two readings of texts. Of code, the names are the words that the lexer finds, the keywords of import
statements apart (`spelledNames`); each of the texts that a fix may insert spells just the names it
was made for (`spelledNames_of_mem_importTexts`). Of prose, they are what stands between quotation
marks (`quotedNames`); a list in prose quotes its names in order (`quotedNames_proseList`).
-/

set_option autoImplicit false

namespace TagScope

/-! ### Names in code -/

namespace Import

open Lexer Lexeme

def keywords : List Token :=
  ["import".toList, "from".toList]

/-- The words among some tokens that are no keywords. -/
def namesAmong (tokens : List Token) : List Token :=
  tokens.filter fun token ↦ decide (IsWord token) && !keywords.contains token

/-- The names that a piece of code spells, in order. -/
def spelledNames (text : String) : List String :=
  (namesAmong (lex text.toList)).map String.ofList

theorem namesAmong_append (a b : List Token) :
    namesAmong (a ++ b) = namesAmong a ++ namesAmong b :=
  List.filter_append ..

/-- A word that a fix can import. -/
structure IsSpellable (token : Token) : Prop where
  isWord : IsWord token
  not_keyword : token ∉ keywords

theorem namesAmong_cons_of_isSpellable {token : Token} (h : IsSpellable token)
    (tokens : List Token) : namesAmong (token :: tokens) = token :: namesAmong tokens :=
  List.filter_cons_of_pos (by simpa using ⟨h.isWord, h.not_keyword⟩)

theorem namesAmong_cons_of_isClosed {token : Token} (h : IsClosed token) (tokens : List Token) :
    namesAmong (token :: tokens) = namesAmong tokens :=
  List.filter_cons_of_neg (by simp [h.not_isWord])

theorem namesAmong_cons_of_keyword {token : Token} (h : token ∈ keywords) (tokens : List Token) :
    namesAmong (token :: tokens) = namesAmong tokens :=
  List.filter_cons_of_neg (by simp [h])

section Fresh

variable {names : List Token} (hnames : ∀ name ∈ names, IsSpellable name)

include hnames

theorem namesAmong_freshFurther : namesAmong ((freshFurther names).map text) = names := by
  induction names with
  | nil => rfl
  | cons name more ih =>
    obtain ⟨hname, hmore⟩ := List.forall_mem_cons.mp hnames
    change namesAmong ([','] :: name :: (freshFurther more).map text) = name :: more
    rw [namesAmong_cons_of_isClosed (by decide), namesAmong_cons_of_isSpellable hname, ih hmore]

theorem namesAmong_freshNames (gap : List Char) :
    namesAmong ((freshNames gap names).map text) = names := by
  cases names with
  | nil => rfl
  | cons name more =>
    obtain ⟨hname, hmore⟩ := List.forall_mem_cons.mp hnames
    change namesAmong (name :: (freshFurther more).map text) = name :: more
    rw [namesAmong_cons_of_isSpellable hname, namesAmong_freshFurther hmore]

theorem namesAmong_freshGroup (gap : List Char) :
    namesAmong ((freshGroup gap names).map text) = names := by
  change namesAmong (['{'] :: ((freshNames [' '] names ++ [fresh [' '] ['}']]).map text)) = names
  rw [namesAmong_cons_of_isClosed (by decide), List.map_append, namesAmong_append,
    namesAmong_freshNames hnames]
  exact List.append_nil names

theorem namesAmong_freshStatement {source : Token} (hsource : IsClosed source) :
    namesAmong ((freshStatement names source).map text) = names := by
  change namesAmong ("import".toList :: ((freshGroup [' '] names ++ _).map text)) = names
  rw [namesAmong_cons_of_keyword (by simp [keywords]), List.map_append, namesAmong_append,
    namesAmong_freshGroup hnames]
  change names ++ namesAmong ["from".toList, source, [';']] = names
  rw [namesAmong_cons_of_keyword (by simp [keywords]), namesAmong_cons_of_isClosed hsource]
  exact List.append_nil names

end Fresh

/-- A text that is given by its tokens, with gaps around them, spells the names among the tokens. -/
theorem spelledNames_eq {text : String} {names : List String} (front back : List Char)
    (ls : List Lexeme) (htext : text.toList = front ++ (render ls ++ back)) (hfront : IsGap front)
    (hback : IsGap back) (hls : Lexed ls back)
    (hnames : namesAmong (ls.map Lexeme.text) = names.map String.toList) :
    spelledNames text = names := by
  have hempty : lex back = [] := by
    rw [← List.append_nil back, lex_gap_append hback]
    rfl
  have hid : String.ofList ∘ String.toList = id := funext fun _ ↦ String.ofList_toList
  rw [spelledNames, htext, lex_gap_append hfront, lex_render_append hls, hempty, List.append_nil,
    hnames, List.map_map, hid, List.map_id]

/-- Every text that a fix may insert spells the names it was made for. -/
theorem spelledNames_of_mem_importTexts {source text : String} {names : List String}
    (hsource : ∀ c ∈ source.toList, isPlain c) (hne : names ≠ [])
    (hnames : ∀ name ∈ names, IsSpellable name.toList) (h : text ∈ importTexts source names) :
    spelledNames text = names := by
  have hall : ∀ name ∈ names.map String.toList, IsSpellable name := by simpa using hnames
  have hwords : ∀ name ∈ names.map String.toList, IsWord name :=
    fun name hname ↦ (hall name hname).isWord
  have hclosed : IsClosed (quoted source.toList) := isClosed_quoted (by decide) hsource
  have hgroup := namesAmong_freshGroup hall [' ']
  have hstatement := namesAmong_freshStatement hall hclosed
  have hbreak : IsGap ['\n'] := by decide
  simp only [importTexts, List.mem_cons, List.not_mem_nil, or_false] at h
  -- Each text is a run of fresh tokens with gaps around it.
  rcases h with rfl | rfl | rfl | rfl | rfl | rfl
  · refine spelledNames_eq [] [] (freshGroup [' '] (names.map String.toList) ++
      [fresh [' '] "from".toList]) ?_ rfl rfl ?_ ?_
    · simp [render_freshGroup hne, fresh]
    · exact lexed_append.mpr ⟨lexed_freshGroup isGap_blank hwords, isGap_blank,
        Or.inr ⟨by decide, rfl⟩, trivial⟩
    · rw [List.map_append, namesAmong_append, hgroup]
      exact List.append_nil _
  · refine spelledNames_eq [] [] (freshFurther (names.map String.toList)) ?_ rfl rfl
      (lexed_freshFurther hwords rfl) (namesAmong_freshFurther hall)
    simp [render_freshFurther hne]
  · refine spelledNames_eq [] [' '] (freshNames [' '] (names.map String.toList)) ?_ rfl isGap_blank
      (lexed_freshNames isGap_blank hwords rfl) (namesAmong_freshNames hall [' '])
    simp [render_freshNames hne]
  · refine spelledNames_eq [] [] (fresh [] [','] :: freshGroup [' '] (names.map String.toList)) ?_
      rfl rfl ⟨rfl, Or.inl rfl, lexed_freshGroup isGap_blank hwords⟩ ?_
    · simp [render_freshGroup hne, fresh]
    · exact (namesAmong_cons_of_isClosed (by decide) _).trans hgroup
  · refine spelledNames_eq [] ['\n'] (freshStatement (names.map String.toList)
      (quoted source.toList)) ?_ rfl hbreak (lexed_freshStatement hclosed hwords) hstatement
    simp [render_freshStatement hne]
  · refine spelledNames_eq ['\n'] [] (freshStatement (names.map String.toList)
      (quoted source.toList)) ?_ hbreak rfl (lexed_freshStatement hclosed hwords) hstatement
    simp [render_freshStatement hne]

end Import

/-! ### Names in prose -/

/-- Every second member of a list. -/
def everySecond {α : Type} : List α → List α
  | [] => []
  | [_] => []
  | _ :: b :: rest => b :: everySecond rest

/-- What stands between quotation marks. -/
def quotedIn (text : List Char) : List (List Char) :=
  everySecond (text.splitOn '\'')

def quotedNames (text : String) : List String :=
  (quotedIn text.toList).map String.ofList

theorem quotedIn_append {a : List Char} (h : '\'' ∉ a) (b : List Char) :
    quotedIn (a ++ b) = quotedIn b := by
  induction a with
  | nil => rfl
  | cons c a ih =>
    obtain ⟨hc, ha⟩ := not_or.mp (mt List.mem_cons.mpr h)
    rw [← ih ha, quotedIn, List.cons_append, List.splitOn_cons_eq_if_modifyHead,
      if_neg (by simpa using Ne.symm hc), quotedIn]
    -- The character is added to the first piece, which is not among the second ones.
    rcases (a ++ b).splitOn '\'' with _ | ⟨first, _ | ⟨second, others⟩⟩ <;> rfl

theorem quotedIn_quote_append {name : List Char} (h : '\'' ∉ name) (b : List Char) :
    quotedIn ('\'' :: name ++ '\'' :: b) = name :: quotedIn b := by
  rw [quotedIn, List.cons_append, List.splitOn_cons_eq_if_modifyHead, if_pos (beq_self_eq_true _),
    List.splitOn_append_cons_self_of_not_mem h, everySecond, quotedIn]

/-- A name between quotation marks. -/
def quotedName (name : String) : String :=
  "'" ++ name ++ "'"

theorem quotedIn_quotedName_append {name : String} (h : '\'' ∉ name.toList) (b : List Char) :
    quotedIn ((quotedName name).toList ++ b) = name.toList :: quotedIn b := by
  have htext : (quotedName name).toList ++ b = '\'' :: name.toList ++ '\'' :: b := by
    simp [quotedName]
  rw [htext, quotedIn_quote_append h]

theorem quotedIn_intercalate_append {names : List String} (h : ∀ name ∈ names, '\'' ∉ name.toList)
    (b : List Char) :
    quotedIn ((String.intercalate ", " (names.map quotedName)).toList ++ b) =
      names.map String.toList ++ quotedIn b := by
  rw [String.toList_intercalate]
  induction names with
  | nil => rfl
  | cons name names ih =>
    obtain ⟨hname, hnames⟩ := List.forall_mem_cons.mp h
    cases names with
    | nil => simpa using quotedIn_quotedName_append hname b
    | cons next rest =>
      have hcomma : '\'' ∉ ", ".toList := by decide
      rw [List.map_cons, List.map_cons, List.map_cons, List.map_cons, List.intercalate_cons_cons,
        List.append_assoc, List.append_assoc, quotedIn_quotedName_append hname,
        quotedIn_append hcomma, ← List.map_cons, ← List.map_cons, ih hnames]
      rfl

/-- A list in prose is a series, a conjunction without quotation marks, and the last name. -/
theorem proseList_concat (names : List String) (last : String) :
    ∃ glue : String, '\'' ∉ glue.toList ∧
      proseList (names ++ [last]) =
        String.intercalate ", " (names.map quotedName) ++ glue ++ quotedName last := by
  match names with
  | [] => exact ⟨"", by decide, by simp [proseList, quotedName]⟩
  | [first] => exact ⟨" and ", by decide, by simp [proseList, quotedName]⟩
  | first :: second :: rest =>
    refine ⟨", and ", by decide, ?_⟩
    have hsplit : (first :: second :: rest ++ [last]).map quotedName =
        (first :: second :: rest).map quotedName ++ [quotedName last] := List.map_append
    have hprose : proseList (first :: second :: rest ++ [last]) =
        String.intercalate ", " ((first :: second :: rest ++ [last]).map quotedName).dropLast ++
          ", and " ++ ((first :: second :: rest ++ [last]).map quotedName).getLastD "" := by
      cases rest <;> rfl
    rw [hprose, hsplit, List.dropLast_concat, List.getLastD_concat]

/-- A list in prose quotes its names in order. -/
theorem quotedNames_proseList {names : List String} (h : ∀ name ∈ names, '\'' ∉ name.toList) :
    quotedNames (proseList names) = names := by
  have hid : String.ofList ∘ String.toList = id := funext fun _ ↦ String.ofList_toList
  have hquoted : quotedIn (proseList names).toList = names.map String.toList := by
    rcases List.eq_nil_or_concat' names with rfl | ⟨init, last, rfl⟩
    · rfl
    · obtain ⟨hinit, hlast⟩ := List.forall_mem_append.mp h
      obtain ⟨glue, hglue, hprose⟩ := proseList_concat init last
      rw [hprose, String.toList_append, String.toList_append, List.append_assoc,
        quotedIn_intercalate_append hinit, quotedIn_append hglue, List.map_append]
      have hname := quotedIn_quotedName_append (hlast last List.mem_cons_self) []
      rw [List.append_nil] at hname
      rw [hname]
      rfl
  rw [quotedNames, hquoted, List.map_map, hid, List.map_id]

end TagScope
