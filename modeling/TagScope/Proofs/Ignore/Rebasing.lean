import Mathlib.Data.List.DropRight
import TagScope.Files.Collect
import TagScope.Proofs.Files.Path
import TagScope.Proofs.Ignore.Segments

/-!
# Patterns carried to the root

A line of an ignore file is carried to the root of the repository by putting the directory of the
file before it. The pattern that results is read as it stands (`ofPattern_rebase`), its segments
are the names of the directory and those of the line (`splitOn_rebaseBody`), and if the names are
literal its items are their characters and then those of the line (`matcherOf_rebaseBody`). So it
matches nothing but what lies beneath the directory (`patterns_beneath`).

A name with a wildcard is not literal: it is spliced into the pattern as it is, and the pattern is
then one of other directories (`patterns_stray`).
-/

set_option autoImplicit false

namespace TagScope

namespace Blank

theorem trimRight_eq_rdropWhile (text : List Char) : trimRight text = text.rdropWhile isBlank :=
  rfl

theorem trimRight_trimRight (text : List Char) : trimRight (trimRight text) = trimRight text := by
  simp only [trimRight_eq_rdropWhile]
  exact List.rdropWhile_idempotent isBlank text

/-- What is put before a text does not matter to its end. -/
theorem trimRight_append {text : List Char} (hne : text ≠ []) (h : trimRight text = text)
    (front : List Char) : trimRight (front ++ text) = front ++ text := by
  rw [trimRight_eq_rdropWhile, List.rdropWhile_eq_self_iff] at h ⊢
  intro _
  rw [List.getLast_append_of_ne_nil _ hne]
  exact h hne

/-- The end of a text without blanks at its end has none, either. -/
theorem trimRight_of_suffix {text back : List Char} (h : trimRight text = text)
    (hback : back <:+ text) : trimRight back = back := by
  rw [trimRight_eq_rdropWhile, List.rdropWhile_eq_self_iff] at h ⊢
  intro hne
  rw [hback.getLast hne]
  exact h _

end Blank

namespace Ignore

open TagScope.Path (IsName joined)

/-! ### Reading a pattern -/

/-- The rule of a pattern with a sign and a body. -/
def ruleOf (pattern : List Char) (negated : Bool) (body : List Char) :
    Except PatternError (Option Rule) :=
  match matcherOf (body.splitOn '/') with
  | .ok matcher =>
    match matcher.backwardRange? with
    | some range => .error (.backwardRange range)
    | none => .ok (some ⟨negated, matcher⟩)
  | .error .unclosed => .ok none
  | .error .dangling => .error (.invalid (String.ofList pattern))

theorem stripped_of_trimRight {pattern : List Char} (h : Blank.trimRight pattern = pattern) :
    stripped pattern = pattern := by
  rw [stripped, h, ite_self]

theorem ofPattern_cons {c : Char} {rest : List Char}
    (h : Blank.trimRight (c :: rest) = c :: rest) (hcomment : c ≠ '#')
    (hslash : c :: rest ≠ ['/']) (hsign : c :: rest ≠ ['!']) :
    Rule.ofPattern (c :: rest) =
      ruleOf (c :: rest) (decide (c = '!')) (if c = '!' then rest else c :: rest) := by
  rw [Rule.ofPattern, stripped_of_trimRight h]
  split
  next heq => cases heq
  next heq => exact absurd heq hslash
  next heq => exact absurd heq hsign
  next heq => exact absurd (List.cons.inj heq).1 hcomment
  next heq =>
    obtain ⟨rfl, rfl⟩ := List.cons.inj heq
    rfl

/-- A sign and a body make a pattern. -/
def signed (negated : Bool) (body : List Char) : List Char :=
  if negated then '!' :: body else body

theorem ofPattern_signed {negated : Bool} {body : List Char}
    (h : Blank.trimRight (signed negated body) = signed negated body) (hbody : body ≠ [])
    (hplain : negated = false → body.head? ≠ some '!' ∧ body.head? ≠ some '#' ∧ body ≠ ['/']) :
    Rule.ofPattern (signed negated body) = ruleOf (signed negated body) negated body := by
  cases negated with
  | true => exact ofPattern_cons h (by decide) (by simp) (by simpa using hbody)
  | false =>
    obtain ⟨c, rest, rfl⟩ := List.exists_cons_of_ne_nil hbody
    obtain ⟨hsign, hcomment, hslash⟩ := hplain rfl
    have hc : c ≠ '!' := by simpa using hsign
    rw [signed, if_neg Bool.false_ne_true] at h ⊢
    rw [ofPattern_cons h (by simpa using hcomment) hslash (by simp [hc]), if_neg hc]
    simp [hc]

/-! ### The text of a carried pattern -/

variable {base : List Char} {body : List Char}

/-- A body without the slashes it begins with. -/
def bare (body : List Char) : List Char := body.dropWhile isSlash

theorem bare_suffix (body : List Char) : bare body <:+ body :=
  List.dropWhile_suffix _

theorem exists_rebaseBody_eq (base body : List Char) :
    ∃ front, rebaseBody base body = front ++ '/' :: bare body := by
  rw [rebaseBody]
  split_ifs
  · exact ⟨_, rfl⟩
  · exact ⟨_, rfl⟩
  · exact ⟨['*', '*'], rfl⟩
  · exact ⟨'/' :: base ++ ['/', '*', '*'], by simp [bare]⟩

theorem head?_rebaseBody (base body : List Char) :
    (rebaseBody base body).head? = some '/' ∨ (rebaseBody base body).head? = some '*' := by
  rw [rebaseBody]
  split_ifs
  · exact Or.inl rfl
  · exact Or.inl rfl
  · exact Or.inr rfl
  · exact Or.inl rfl

theorem bare_ne_nil_of_isAnchored (h : isAnchored body = true) : bare body ≠ [] := by
  intro hbare
  have hslashes : ∀ c ∈ body, isSlash c = true := List.dropWhile_eq_nil_iff.mp hbare
  have hnone : body.reverse.dropWhile isSlash = [] :=
    List.dropWhile_eq_nil_iff.mpr fun c hc ↦ hslashes c (List.mem_reverse.mp hc)
  rw [isAnchored, hnone] at h
  cases h

theorem rebaseBody_ne_slash (base body : List Char) : rebaseBody base body ≠ ['/'] := by
  rw [rebaseBody]
  split_ifs with hanchored hbase hbase
  · exact fun heq ↦ bare_ne_nil_of_isAnchored hanchored (List.cons.inj heq).2
  · simp
  · simp
  · simp

theorem trimRight_signed_rebaseBody {negated : Bool}
    (h : Blank.trimRight (signed negated body) = signed negated body) (base : List Char) :
    Blank.trimRight (signed negated (rebaseBody base body)) =
      signed negated (rebaseBody base body) := by
  have hbody : body <:+ signed negated body := by
    cases negated
    · exact List.suffix_rfl
    · exact List.suffix_cons _ _
  have hslash : Blank.trimRight ('/' :: bare body) = '/' :: bare body := by
    by_cases hbare : bare body = []
    · rw [hbare]
      decide
    · exact Blank.trimRight_append hbare
        (Blank.trimRight_of_suffix h ((bare_suffix body).trans hbody)) ['/']
  obtain ⟨front, hfront⟩ := exists_rebaseBody_eq base body
  have happend := fun more ↦ Blank.trimRight_append (List.cons_ne_nil _ _) hslash more
  cases negated with
  | false => simpa [signed, hfront] using happend front
  | true => simpa [signed, hfront] using happend ('!' :: front)

/-- A pattern is yielded for the lines that have a body and are no comments. -/
theorem rebase_eq_some_iff {line pattern : List Char} :
    rebase base line = some pattern ↔
      ∃ negated body, Blank.trimRight line = signed negated body ∧
        (negated = false → body ≠ [] ∧ body.head? ≠ some '!' ∧ body.head? ≠ some '#') ∧
        pattern = signed negated (rebaseBody base body) := by
  rw [rebase]
  constructor
  · intro h
    split at h
    · cases h
    · cases h
    next body heq =>
      exact ⟨true, body, heq, by simp, (Option.some.inj h).symm⟩
    next text hnil hcomment hsign =>
      refine ⟨false, Blank.trimRight line, rfl, fun _ ↦ ⟨hnil, fun hhead ↦ ?_, fun hhead ↦ ?_⟩,
        (Option.some.inj h).symm⟩
      · obtain ⟨rest, hrest⟩ := List.head?_eq_some_iff.mp hhead
        exact hsign rest hrest
      · obtain ⟨rest, hrest⟩ := List.head?_eq_some_iff.mp hhead
        exact hcomment rest hrest
  · rintro ⟨negated, body, hline, hplain, rfl⟩
    rw [hline]
    cases negated with
    | true => rfl
    | false =>
      obtain ⟨hne, hsign, hcomment⟩ := hplain rfl
      rw [signed, if_neg Bool.false_ne_true]
      split
      next heq => exact absurd rfl hne
      next heq => simp at hcomment
      next heq => simp at hsign
      next => rfl

theorem ofPattern_signed_rebaseBody {negated : Bool}
    (h : Blank.trimRight (signed negated body) = signed negated body) (base : List Char) :
    Rule.ofPattern (signed negated (rebaseBody base body)) =
      ruleOf (signed negated (rebaseBody base body)) negated (rebaseBody base body) := by
  refine ofPattern_signed (trimRight_signed_rebaseBody h base) ?_ ?_
  · intro hnil
    have hhead := head?_rebaseBody base body
    simp [hnil] at hhead
  · intro _
    rcases head?_rebaseBody base body with hhead | hhead <;>
      simp [hhead, rebaseBody_ne_slash base body]

/-- A pattern that is yielded for a line is read as a sign and a body. -/
theorem ofPattern_rebase {line pattern : List Char} (h : rebase base line = some pattern) :
    ∃ negated body, Rule.ofPattern pattern = ruleOf pattern negated (rebaseBody base body) := by
  obtain ⟨negated, body, hline, -, rfl⟩ := rebase_eq_some_iff.mp h
  have htrim : Blank.trimRight (signed negated body) = signed negated body := by
    rw [← hline, Blank.trimRight_trimRight]
  exact ⟨negated, body, ofPattern_signed_rebaseBody htrim base⟩

/-! ### The segments of a carried pattern -/

/-- The segments of a line as they follow those of its directory. -/
def tailSegments (body : List Char) : List Segment :=
  if isAnchored body then (bare body).splitOn '/' else deep :: (bare body).splitOn '/'

theorem tailSegments_ne_nil (body : List Char) : tailSegments body ≠ [] := by
  rw [tailSegments]
  split_ifs
  · exact List.splitOn_ne_nil '/' _
  · exact List.cons_ne_nil _ _

variable {names : List String}

theorem joined_isEmpty (hne : names ≠ []) (hnames : ∀ name ∈ names, IsName name) :
    (joined names).isEmpty = false := by
  obtain ⟨name, rest, rfl⟩ := List.exists_cons_of_ne_nil hne
  have hname : name ≠ "" := (hnames name List.mem_cons_self).ne_empty
  cases rest <;> simp [joined, hname]

theorem splitOn_rebaseBody (hne : names ≠ []) (hnames : ∀ name ∈ names, IsName name)
    (body : List Char) :
    (rebaseBody (joined names) body).splitOn '/' =
      [] :: (names.map String.toList ++ tailSegments body) := by
  have hcut : ∀ rest, ('/' :: joined names ++ '/' :: rest).splitOn '/' =
      [] :: (names.map String.toList ++ rest.splitOn '/') := by
    intro rest
    rw [List.cons_append, List.splitOn_cons_eq_if_modifyHead, if_pos (beq_self_eq_true _),
      List.splitOn_append_cons_self,
      Path.splitOn_joined hne fun name hname ↦ (hnames name hname).slash_not_mem]
  rw [rebaseBody, tailSegments, joined_isEmpty hne hnames]
  rw [if_neg Bool.false_ne_true, if_neg Bool.false_ne_true]
  split_ifs
  · exact hcut _
  · rw [show '/' :: joined names ++ ['/', '*', '*', '/'] ++ body.dropWhile isSlash =
      '/' :: joined names ++ '/' :: (['*', '*'] ++ '/' :: bare body) by simp [bare], hcut,
      List.splitOn_append_cons_self_of_not_mem (by decide)]
    rfl

/-- The matcher of a pattern that begins with literal segments: these, and then the rest. -/
theorem matcherOf_append {front : List Segment} (hne : front ≠ [])
    (hfront : ∀ segment ∈ front, IsLiteral segment) {rest : List Segment} (hrest : rest ≠ []) :
    matcherOf ([] :: (front ++ rest)) = (itemsOf true (settled rest)).map fun items ↦
      .sequence ((['/'].intercalate front).map .char ++ items) := by
  have hnormal : normalize ([] :: (front ++ rest)) = front ++ settled rest := by
    rw [normalize_eq, placed]
    exact settled_append (fun segment hsegment ↦ (hfront segment hsegment).ne_deep) hrest
  have hitems := itemsOf_append hne hfront (settled_ne_nil hrest) false
  obtain ⟨segment, front, rfl⟩ := List.exists_cons_of_ne_nil hne
  have hsegment : segment ≠ deep := (hfront segment List.mem_cons_self).ne_deep
  rw [matcherOf]
  rw [hnormal, List.cons_append, if_neg (by simp [hsegment]), if_neg (by simp [hsegment]),
    if_neg (by simp [hsegment])]
  dsimp only
  rw [if_neg hsegment, ← List.cons_append, hitems]
  cases itemsOf true (settled rest) <;> rfl

/-- A carried pattern of a literal directory: the directory, and then the line. -/
theorem matcherOf_rebaseBody (hne : names ≠ []) (hnames : ∀ name ∈ names, IsName name)
    (hliteral : ∀ name ∈ names, IsLiteral name.toList) (body : List Char) :
    matcherOf ((rebaseBody (joined names) body).splitOn '/') =
      (itemsOf true (settled (tailSegments body))).map fun items ↦
        .sequence ((joined names).map .char ++ items) := by
  rw [splitOn_rebaseBody hne hnames]
  exact matcherOf_append (by simpa using hne) (by simpa using hliteral) (tailSegments_ne_nil body)

/-! ### What lies beneath a directory -/

/-- What a rule of a sign and a body tells of the matcher. -/
theorem matcherOf_of_ruleOf {pattern : List Char} {negated : Bool} {rule : Rule}
    (h : ruleOf pattern negated body = .ok (some rule)) :
    matcherOf (body.splitOn '/') = .ok rule.matcher := by
  rw [ruleOf] at h
  split at h
  next matcher heq =>
    split at h
    · cases h
    · rw [heq, ← Option.some.inj (Except.ok.inj h)]
  · cases h
  · cases h

/-- Paths that begin with a directory and a slash lie beneath the directory. -/
theorem exists_below_of_joined {parts : List String} (hne : names ≠ [])
    (hnames : ∀ name ∈ names, IsName name) (hparts : ∀ part ∈ parts, IsName part)
    {rest : List Char} (h : joined parts = joined names ++ '/' :: rest) :
    ∃ below, below ≠ [] ∧ parts = names ++ below := by
  have hslash : ∀ {texts : List String}, (∀ text ∈ texts, IsName text) →
      ∀ text ∈ texts, '/' ∉ text.toList := fun htexts text htext ↦ (htexts text htext).slash_not_mem
  have hpartsne : parts ≠ [] := by
    rintro rfl
    exact absurd (congrArg List.length h) (by simp [joined])
  have hsplit : parts.map String.toList = names.map String.toList ++ rest.splitOn '/' := by
    rw [← Path.splitOn_joined hpartsne (hslash hparts), h, List.splitOn_append_cons_self,
      Path.splitOn_joined hne (hslash hnames)]
  have hback : parts = names ++ (rest.splitOn '/').map String.ofList := by
    have hmap := congrArg (List.map String.ofList) hsplit
    have hid : String.ofList ∘ String.toList = id := funext fun _ ↦ String.ofList_toList
    simpa only [List.map_append, List.map_map, hid, List.map_id] using hmap
  exact ⟨_, by simp, hback⟩

theorem toList_intercalate (names : List String) :
    (String.intercalate "/" names).toList = joined names := by
  simp [joined]

/-- Beneath a root, a path is matched by the names from the root on. -/
theorem matchedText_below (root : Path) {parts : List String} (hne : parts ≠ [])
    (hparts : ∀ part ∈ parts, IsName part) :
    Disk.matchedText root (root.below parts) = joined parts := by
  have hrelative : (root.below parts).relativeTo? root = some ⟨.relative, parts⟩ := by
    simp [Path.relativeTo?, Path.below]
  have htext : (Path.toText ⟨.relative, parts⟩).toList = joined parts := by
    simp [Path.toText, hne, Anchor.text, joined]
  rw [Disk.matchedText, hrelative, Option.getD_some, htext]
  have hhead := Path.head?_joined_ne hparts
  split
  next rest heq => simp [heq] at hhead
  next => rfl

/-- An ignore file in a directory whose names are literal speaks only of what lies beneath that
directory. -/
theorem patterns_beneath {base : List String}
    (hbase : ∀ name ∈ base, IsName name ∧ IsLiteral name.toList) (content : Bytes)
    {pattern : List Char} (hpattern : pattern ∈ patterns content (String.intercalate "/" base))
    {rule : Rule} (hrule : Rule.ofPattern pattern = .ok (some rule)) (root : Path)
    {parts : List String} (hne : parts ≠ []) (hparts : ∀ part ∈ parts, IsName part)
    (haccepts : rule.matcher.accepts (Disk.matchedText root (root.below parts)) = true) :
    ∃ below, below ≠ [] ∧ parts = base ++ below := by
  by_cases hroot : base = []
  · exact ⟨parts, hne, by rw [hroot, List.nil_append]⟩
  have hnames : ∀ name ∈ base, IsName name := fun name hname ↦ (hbase name hname).1
  have hliteral : ∀ name ∈ base, IsLiteral name.toList := fun name hname ↦ (hbase name hname).2
  obtain ⟨line, -, hline⟩ := List.mem_filterMap.mp hpattern
  rw [toList_intercalate] at hline
  obtain ⟨negated, body, hread⟩ := ofPattern_rebase hline
  have hmatcher := matcherOf_of_ruleOf (hread ▸ hrule)
  rw [matcherOf_rebaseBody hroot hnames hliteral] at hmatcher
  cases hitems : itemsOf true (settled (tailSegments body)) with
  | error defect => rw [hitems] at hmatcher; cases hmatcher
  | ok items =>
    rw [hitems] at hmatcher
    rw [← Except.ok.inj hmatcher, matchedText_below root hne hparts] at haccepts
    obtain ⟨rest, hpath, hrest⟩ := (itemsMatch_chars _).mp haccepts
    obtain ⟨rest, rfl⟩ := List.head?_eq_some_iff.mp
      (head?_of_itemsMatch (settled_ne_nil (tailSegments_ne_nil body)) hitems hrest)
    exact exists_below_of_joined hroot hnames hparts hpath

theorem patterns_beneath_spaced :
    (∀ name ∈ ["my app", "(a)]"], IsName name ∧ IsLiteral name.toList) ∧
    "!/my app/(a)]/**/*.tsx".toList ∈
      patterns (Utf8.encode "# views\n!*.tsx \n".toList)
        (String.intercalate "/" ["my app", "(a)]"]) ∧
    ∃ below, below ≠ [] ∧ ["my app", "(a)]", "src", "x.tsx"] = ["my app", "(a)]"] ++ below := by
  have hbase : ∀ name ∈ ["my app", "(a)]"], IsName name ∧ IsLiteral name.toList := by
    decide
  have hpattern : "!/my app/(a)]/**/*.tsx".toList ∈
      patterns (Utf8.encode "# views\n!*.tsx \n".toList)
        (String.intercalate "/" ["my app", "(a)]"]) := by
    decide
  obtain ⟨rule, hrule, haccepts⟩ : ∃ rule,
      Rule.ofPattern "!/my app/(a)]/**/*.tsx".toList = .ok (some rule) ∧
        rule.matcher.accepts (Disk.matchedText ⟨.root, ["w"]⟩
          (Path.below ⟨.root, ["w"]⟩ ["my app", "(a)]", "src", "x.tsx"])) = true :=
    ⟨_, rfl, by decide⟩
  exact ⟨hbase, hpattern, patterns_beneath hbase _ hpattern hrule ⟨.root, ["w"]⟩ (by decide)
    (by decide) haccepts⟩

/-- A name with a wildcard is read as one: the ignore file of the directory `[id]` speaks of the
directory `i`. -/
theorem patterns_stray :
    IsName "[id]" ∧
    ∃ pattern ∈ patterns (Utf8.encode "x.tsx\n".toList) (String.intercalate "/" ["[id]"]), ∃ rule,
      Rule.ofPattern pattern = .ok (some rule) ∧
      rule.matcher.accepts (Disk.matchedText ⟨.root, ["w"]⟩
        (Path.below ⟨.root, ["w"]⟩ ["i", "x.tsx"])) = true ∧
      ¬ ∃ below, below ≠ [] ∧ ["i", "x.tsx"] = ["[id]"] ++ below := by
  refine ⟨by decide, "/[id]/**/x.tsx".toList, by decide, _, rfl, by decide, ?_⟩
  rintro ⟨below, -, heq⟩
  exact absurd (List.cons.inj heq).1 (by decide)

end Ignore

end TagScope
