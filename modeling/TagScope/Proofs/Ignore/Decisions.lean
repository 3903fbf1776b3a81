import Mathlib.Data.List.Chain
import TagScope.Proofs.Ignore.Rebasing

/-!
# Carried patterns decide alike

A line that is used in its own directory has the same normal form as what follows the directory in
its carried pattern (`normalize_splitOn`). At the root itself the two are therefore the same
pattern. In a literal directory the carried pattern matches a path there as the line matches the
path from the directory on (`matchAlike_settled`), with one exception: a line that names every
directory, which is read in a way of its own but is carried like any other
(`NamesEveryDirectory`). It is `**/` and its likes, which name everything but the files of the
directory itself.

Rules that match alike decide alike (`decision_alike`), so whole ignore files do
(`patterns_decide`). Under `**/` the files of the directory itself are lost
(`patterns_overreach`).
-/

set_option autoImplicit false

namespace TagScope.Ignore

open TagScope.Path (IsName joined)

/-! ### Lines and their normal forms -/

/-- A line without its sign. -/
def bodyOf : List Char → List Char
  | '!' :: body => body
  | body => body

/-- No two slashes in a row. -/
abbrev SingleSlashed (text : List Char) : Prop := text.IsChain fun a b ↦ ¬ (a = '/' ∧ b = '/')

/-- A line without blanks at its end or two slashes in a row, in which something but slashes comes
after the sign. -/
structure IsOrdinary (line : List Char) : Prop where
  trimmed : Blank.trimRight line = line
  single : SingleSlashed line
  nonempty : ∃ c ∈ bodyOf line, c ≠ '/'

instance (line : List Char) : Decidable (IsOrdinary line) :=
  decidable_of_iff (Blank.trimRight line = line ∧ SingleSlashed line ∧
      ((bodyOf line).any fun c ↦ c != '/') = true)
    ⟨fun ⟨h₁, h₂, h₃⟩ ↦ ⟨h₁, h₂, by simpa using h₃⟩, fun ⟨h₁, h₂, h₃⟩ ↦ ⟨h₁, h₂, by simpa using h₃⟩⟩

theorem isAnchored_iff_mem_rdropWhile (body : List Char) :
    isAnchored body = true ↔ '/' ∈ body.rdropWhile isSlash := by
  rw [isAnchored, List.contains_iff_mem, List.rdropWhile, List.mem_reverse]

theorem isAnchored_append_cons (front : List Char) {back : List Char} (h : ∃ c ∈ back, c ≠ '/') :
    isAnchored (front ++ '/' :: back) = true := by
  obtain ⟨c, hc, hslash⟩ := h
  have hany : ¬ ∀ d ∈ back.reverse, isSlash d = true := fun hall ↦
    hslash (by simpa [isSlash] using hall c (List.mem_reverse.mpr hc))
  rw [isAnchored, List.reverse_append, List.reverse_cons, List.append_assoc,
    List.dropWhile_append, if_neg (by simpa [List.dropWhile_eq_nil_iff] using hany)]
  simp

theorem isAnchored_of_not_mem {body : List Char} (h : '/' ∉ body) : isAnchored body = false := by
  rw [← Bool.not_eq_true, isAnchored_iff_mem_rdropWhile]
  exact fun hmem ↦ h ((List.rdropWhile_prefix _ _).subset hmem)

theorem isAnchored_concat {body : List Char} (h : '/' ∉ body) :
    isAnchored (body ++ ['/']) = false := by
  rw [← Bool.not_eq_true, isAnchored_iff_mem_rdropWhile,
    List.rdropWhile_concat_pos _ _ _ (by decide)]
  exact fun hmem ↦ h ((List.rdropWhile_prefix _ _).subset hmem)

theorem exists_splitOn_cons {mark c : Char} (h : c ≠ mark) (text : List Char) :
    ∃ piece others, (c :: text).splitOn mark = (c :: piece) :: others := by
  obtain ⟨piece, others, hpieces⟩ := List.exists_cons_of_ne_nil (List.splitOn_ne_nil mark text)
  refine ⟨piece, others, ?_⟩
  rw [List.splitOn_cons_eq_if_modifyHead, if_neg (by simpa using h), hpieces, List.modifyHead_cons]

theorem placed_of_ne_nil {first second : Segment} (hfirst : first ≠ []) (hsecond : second ≠ [])
    (rest : List Segment) : placed (first :: second :: rest) = first :: second :: rest := by
  rw [placed]
  · exact fun others heq ↦ hfirst (List.cons.inj heq).1
  · simp
  · simp [hsecond]

/-- A lone segment, with a slash after it or not, is found at any depth. -/
theorem settled_placed_lone {segment : Segment} (h : segment ≠ []) {ending : List Segment}
    (hending : ending = [] ∨ ending = [[]]) :
    settled (placed (segment :: ending)) = settled (deep :: segment :: ending) := by
  have hplaced : placed (segment :: ending) =
      if segment = deep then segment :: ending else deep :: segment :: ending := by
    obtain ⟨c, rest, rfl⟩ := List.exists_cons_of_ne_nil h
    rcases hending with rfl | rfl <;> rfl
  by_cases hdeep : segment = deep
  · -- a `**` in front of another one is dropped
    rw [hplaced, if_pos hdeep, hdeep]
    rcases hending with rfl | rfl <;> rfl
  · rw [hplaced, if_neg hdeep]

variable {body : List Char}

theorem bare_cons {c : Char} (h : c ≠ '/') (rest : List Char) : bare (c :: rest) = c :: rest := by
  rw [bare, List.dropWhile_cons_of_neg (by simpa [isSlash] using h)]

theorem bare_slash_cons {rest : List Char} (h : rest.head? ≠ some '/') :
    bare ('/' :: rest) = rest := by
  rw [bare, List.dropWhile_cons_of_pos (by decide)]
  cases rest with
  | nil => rfl
  | cons c rest => exact bare_cons (by simpa using h) rest

/-- After a slash comes no other one. -/
theorem head?_of_single (front : List Char) {back : List Char}
    (h : SingleSlashed (front ++ '/' :: back)) : back.head? ≠ some '/' := fun hhead ↦
  (List.isChain_cons.mp h.right_of_append).1 '/' hhead ⟨rfl, rfl⟩

/-- The normal form of a line is that of its segments as they follow those of its directory. -/
theorem normalize_splitOn (hsingle : SingleSlashed body) (hbody : ∃ c ∈ body, c ≠ '/') :
    normalize (body.splitOn '/') = settled (tailSegments body) := by
  rw [normalize_eq, tailSegments]
  obtain ⟨c, rest, rfl⟩ : ∃ c rest, body = c :: rest :=
    List.exists_cons_of_ne_nil (by rintro rfl; simp at hbody)
  by_cases hc : c = '/'
  · -- a line that begins with a slash is anchored by it
    subst hc
    have hanchored : isAnchored ('/' :: rest) = true :=
      isAnchored_append_cons [] (by simpa using hbody)
    rw [hanchored, if_pos rfl, bare_slash_cons (head?_of_single [] hsingle),
      List.splitOn_cons_eq_if_modifyHead, if_pos (beq_self_eq_true _)]
    rfl
  rw [bare_cons hc]
  by_cases hslash : '/' ∈ c :: rest
  · obtain ⟨front, back, hsplit, hfront⟩ := List.eq_append_cons_of_mem hslash
    have hfrontne : front ≠ [] := by
      rintro rfl
      exact hc (List.cons.inj hsplit).1
    rw [hsplit] at hsingle ⊢
    rw [List.splitOn_append_cons_self_of_not_mem hfront]
    cases back with
    | nil =>
      rw [isAnchored_concat hfront, if_neg Bool.false_ne_true]
      exact settled_placed_lone hfrontne (.inr rfl)
    | cons d back =>
      have hd : d ≠ '/' := by simpa using head?_of_single _ hsingle
      obtain ⟨piece, others, hback⟩ := exists_splitOn_cons hd back
      rw [isAnchored_append_cons _ ⟨d, List.mem_cons_self, hd⟩, if_pos rfl, hback,
        placed_of_ne_nil hfrontne (List.cons_ne_nil _ _)]
  · rw [List.splitOn_eq_singleton hslash, isAnchored_of_not_mem hslash, if_neg Bool.false_ne_true]
    exact settled_placed_lone (List.cons_ne_nil _ _) (.inl rfl)

/-! ### Ranges that run backwards -/

theorem isSome_inBody? (form form' : List Char) (position position' : Nat) (text : List Char) :
    (BackwardRange.inBody? form position text).isSome =
      (BackwardRange.inBody? form' position' text).isSome := by
  fun_induction BackwardRange.inBody? form position text generalizing position' with
  | case1 => rfl
  | case2 position a b rest hlt => simp [BackwardRange.inBody?, hlt]
  | case3 position a b rest hlt ih => simpa [BackwardRange.inBody?, hlt] using ih _
  | case4 position a rest hnot ih => simpa [BackwardRange.inBody?, hnot] using ih _

/-- Whether an item has a range that runs backwards. -/
def Item.isBackward (item : Item) : Bool := (BackwardRange.inItem? [] 0 item).isSome

theorem isSome_inItems? (form : List Char) (position : Nat) (items : List Item) :
    (BackwardRange.inItems? form position items).isSome = items.any Item.isBackward := by
  induction items generalizing position with
  | nil => rfl
  | cons item items ih =>
    have hitem : (BackwardRange.inItem? form position item).isSome = item.isBackward := by
      cases item with
      | oneOf negated text => exact isSome_inBody? _ _ _ _ _
      | _ => rfl
    rw [BackwardRange.inItems?, Option.isSome_or, ih, hitem, List.any_cons]

theorem isSome_backwardRange? (items : List Item) :
    (Matcher.sequence items).backwardRange?.isSome = items.any Item.isBackward :=
  isSome_inItems? _ _ _

@[simp] theorem any_isBackward_chars (text : List Char) :
    (text.map Item.char).any Item.isBackward = false := by
  rw [List.any_map, List.any_eq_false]
  exact fun c _ ↦ Bool.false_ne_true

/-! ### Matchers -/

/-- Two readings of segments of which the first matches one path as the second matches another. -/
inductive MatchAlike (path full : List Char) :
    Except Defect Matcher → Except Defect Matcher → Prop
  | defect (defect : Defect) : MatchAlike path full (.error defect) (.error defect)
  | matcher {own carried : Matcher}
      (backward : carried.backwardRange?.isSome = own.backwardRange?.isSome)
      (accepts : carried.accepts full = own.accepts path) :
      MatchAlike path full (.ok own) (.ok carried)

theorem MatchAlike.refl (path : List Char) (result : Except Defect Matcher) :
    MatchAlike path path result result := by
  cases result with
  | error defect => exact .defect defect
  | ok matcher => exact .matcher rfl rfl

theorem matcherOf_congr {segments segments' : List Segment}
    (hnormal : normalize segments' = normalize segments)
    (hlast : segments'.getLast? = segments.getLast?) :
    matcherOf segments' = matcherOf segments := by
  rw [matcherOf, matcherOf, hnormal, hlast]

variable {text path : List Char}

/-- A sequence that begins with a text matches what comes after the text. -/
theorem accepts_chars (text : List Char) (items : List Item) (rest : List Char) :
    (Matcher.sequence (text.map .char ++ items)).accepts (text ++ rest) = itemsMatch items rest :=
  itemsMatch_chars_self text

/-- Items alike on what they see are alike after the text of a directory. -/
theorem matchAlike_sequence {result : Except Defect (List Item)}
    {own carried : List Item → List Item}
    (hbackward : ∀ items, (carried items).any Item.isBackward = (own items).any Item.isBackward)
    (haccepts : ∀ items, itemsMatch (carried items) ('/' :: path) = itemsMatch (own items) path) :
    MatchAlike path (text ++ '/' :: path) (result.map fun items ↦ .sequence (own items))
      ((result.map carried).map fun items ↦ .sequence (text.map .char ++ items)) := by
  cases result with
  | error defect => exact .defect defect
  | ok items =>
    refine .matcher ?_ ?_
    · rw [isSome_backwardRange?, isSome_backwardRange?, List.any_append, any_isBackward_chars,
        Bool.false_or, hbackward]
    · exact (accepts_chars _ _ _).trans (haccepts items)

/-- The first directory or file of a path is a name. -/
theorem itemsMatch_everyName (hne : path ≠ []) (hhead : path.head? ≠ some '/') :
    itemsMatch [.leading, .name, .stop] path = true := by
  rw [itemsMatch_leading, itemsMatch_name]
  left
  by_cases hslash : '/' ∈ path
  · obtain ⟨front, back, rfl, hfront⟩ := List.eq_append_cons_of_mem hslash
    refine ⟨front, '/' :: back, ?_, hfront, rfl, rfl⟩
    rintro rfl
    simp at hhead
  · exact ⟨path, [], hne, hslash, (List.append_nil path).symm, rfl⟩

/-- A path with a directory in it is one that has a slash after a name. -/
theorem itemsMatch_everyDirectory (hhead : path.head? ≠ some '/') :
    itemsMatch [.leading, .name, .char '/'] path = path.contains '/' := by
  rw [Bool.eq_iff_iff, List.contains_iff_mem]
  constructor
  · rw [itemsMatch_leading, itemsMatch_name]
    rintro (⟨front, rest, -, -, rfl, h⟩ | ⟨front, rest, -, -, rfl, -⟩)
    · obtain ⟨others, rfl, -⟩ := (itemsMatch_char '/').mp h
      simp
    · simp
  · intro hslash
    obtain ⟨front, back, rfl, hfront⟩ := List.eq_append_cons_of_mem hslash
    rw [itemsMatch_leading, itemsMatch_name]
    refine Or.inl ⟨front, '/' :: back, ?_, hfront, rfl, itemsMatch_char_self '/'⟩
    rintro rfl
    simp at hhead

/-- A line matches a path as its carried pattern matches the path beneath a directory, unless it
names everything but does not match that path. -/
theorem matchAlike_settled {segments : List Segment} {normal : List Segment}
    (hnormal : normalize segments = normal) (hnormalne : normal ≠ []) (hne : path ≠ [])
    (hhead : path.head? ≠ some '/') (hany : (path.any fun c ↦ c != '\n') = true)
    (hdirectory : normal = [deep] → segments.getLast? = some [] → path.contains '/' = true) :
    MatchAlike path (text ++ '/' :: path) (matcherOf segments)
      ((itemsOf true normal).map fun items ↦ .sequence (text.map .char ++ items)) := by
  have hdeep : ∀ rest, normal = deep :: rest → rest.head? ≠ some deep := fun rest hrest ↦
    head?_of_collapse_deep (hnormal.trans hrest)
  have hbackward : ∀ items : List Item, items.any Item.isBackward = false →
      (Matcher.sequence (text.map .char ++ items)).backwardRange?.isSome = false := by
    intro items hitems
    rw [isSome_backwardRange?, List.any_append, any_isBackward_chars, hitems, Bool.false_or]
  rw [matcherOf]
  simp only [hnormal]
  -- three forms are read in a way of their own
  by_cases hall : normal = [deep]
  · rw [if_pos hall, hall]
    refine .matcher ((hbackward _ rfl).trans ?_) ?_
    · split_ifs <;> rfl
    · refine (accepts_chars _ _ _).trans ((itemsMatch_char_self '/').trans ?_)
      split_ifs with hlast
      · exact (hdirectory hall hlast).symm
      · exact hany.symm
  rw [if_neg hall]
  by_cases hnames : normal = [deep, star]
  · rw [if_pos hnames, hnames,
      show itemsOf true [deep, star] = .ok [.between, .char '/', .name, .stop] from rfl]
    refine .matcher (hbackward _ rfl) ?_
    dsimp only
    rw [accepts_chars, itemsMatch_between, itemsMatch_everyName hne hhead]
    exact hany.symm
  rw [if_neg hnames]
  by_cases hdirectories : normal = [deep, star, deep]
  · rw [if_pos hdirectories, hdirectories,
      show itemsOf true [deep, star, deep] = .ok [.between, .char '/', .name, .char '/'] from rfl]
    refine .matcher (hbackward _ rfl) ?_
    dsimp only
    rw [accepts_chars, itemsMatch_between, itemsMatch_everyDirectory hhead]
    rfl
  rw [if_neg hdirectories]
  obtain ⟨segment, rest, rfl⟩ := List.exists_cons_of_ne_nil hnormalne
  dsimp only
  by_cases hsegment : segment = deep
  · -- leading directories become directories between the directory and the rest
    subst hsegment
    have hrest : rest ≠ [] := fun hnil ↦ hall (by rw [hnil])
    have hitems : itemsOf true (deep :: rest) =
        (itemsOf false rest).map fun items ↦ .between :: .char '/' :: items := by
      rw [itemsOf, if_pos rfl, if_neg (by simpa using hrest), itemsOf_true hrest (hdeep rest rfl)]
      cases itemsOf false rest <;> rfl
    rw [if_pos rfl, hitems]
    exact matchAlike_sequence (fun _ ↦ rfl) fun _ ↦ itemsMatch_between
  · rw [if_neg hsegment, itemsOf_true hnormalne (by simpa using hsegment)]
    exact matchAlike_sequence (fun _ ↦ rfl) fun _ ↦ itemsMatch_char_self '/'

/-! ### Lines that name every directory -/

/-- A line that names every directory: it ends in a slash, and its segments are all `**`. -/
def NamesEveryDirectory (line : List Char) : Prop :=
  ((bodyOf line).splitOn '/').getLast? = some [] ∧
    ∀ segment ∈ (bodyOf line).splitOn '/', segment = [] ∨ segment = deep

theorem mem_collapse {segment : Segment} {segments : List Segment} (h : segment ∈ segments) :
    segment ∈ collapse segments := by
  fun_induction collapse segments with
  | case1 => exact h
  | case2 only => exact h
  | case3 a b others hab ih =>
    simp only [Bool.and_eq_true, decide_eq_true_eq] at hab
    rcases List.mem_cons.mp h with rfl | h
    · exact ih (by rw [hab.1, hab.2]; exact List.mem_cons_self)
    · exact ih h
  | case4 a b others hab ih =>
    rcases List.mem_cons.mp h with rfl | h
    · exact List.mem_cons_self
    · exact List.mem_cons_of_mem _ (ih h)

/-- Segments that come to nothing but `**` are all `**`, or the empty one of a final slash. -/
theorem eq_of_settled_eq_deep {segments : List Segment} (h : settled segments = [deep])
    {segment : Segment} (hsegment : segment ∈ segments) : segment = [] ∨ segment = deep := by
  have hdeep : ∀ other ∈ segments.dropLast ++ segments.getLast?.toList.map fun last ↦
      if last = [] then deep else last, other = deep := by
    intro other hother
    have hmem := mem_collapse hother
    rw [← settled, h] at hmem
    exact List.mem_singleton.mp hmem
  obtain ⟨front, last, rfl⟩ := List.eq_nil_or_concat segments |>.resolve_left
    (List.ne_nil_of_mem hsegment)
  simp only [List.concat_eq_append, List.dropLast_concat, List.getLast?_concat,
    Option.toList_some, List.map_cons, List.map_nil] at hdeep hsegment
  rcases List.mem_append.mp hsegment with hfront | hlast
  · exact Or.inr (hdeep segment (List.mem_append_left _ hfront))
  · obtain rfl := List.mem_singleton.mp hlast
    by_cases hnil : segment = []
    · exact Or.inl hnil
    · have hlast := hdeep _ (List.mem_append_right _ (List.mem_singleton_self _))
      exact Or.inr (by rwa [if_neg hnil] at hlast)

theorem getLast?_splitOn_bare (body : List Char) :
    ((bare body).splitOn '/').getLast? = (body.splitOn '/').getLast? := by
  induction body with
  | nil => rfl
  | cons c rest ih =>
    by_cases hc : c = '/'
    · subst hc
      have hbare : bare ('/' :: rest) = bare rest := List.dropWhile_cons_of_pos (by decide)
      rw [hbare, ih, List.splitOn_cons_eq_if_modifyHead, if_pos (beq_self_eq_true _),
        List.getLast?_cons_of_ne_nil (List.splitOn_ne_nil '/' rest)]
    · rw [bare_cons hc]

theorem mem_splitOn_bare {segment : Segment} {body : List Char} (h : segment ∈ body.splitOn '/') :
    segment = [] ∨ segment ∈ (bare body).splitOn '/' := by
  induction body with
  | nil => exact Or.inr h
  | cons c rest ih =>
    by_cases hc : c = '/'
    · subst hc
      have hbare : bare ('/' :: rest) = bare rest := List.dropWhile_cons_of_pos (by decide)
      rw [List.splitOn_cons_eq_if_modifyHead, if_pos (beq_self_eq_true _)] at h
      rw [hbare]
      rcases List.mem_cons.mp h with rfl | h
      · exact Or.inl rfl
      · exact ih h
    · rw [bare_cons hc]
      exact Or.inr h

theorem namesEveryDirectory_of_settled {line : List Char}
    (hlast : ((bodyOf line).splitOn '/').getLast? = some [])
    (h : settled (tailSegments (bodyOf line)) = [deep]) : NamesEveryDirectory line := by
  refine ⟨hlast, fun segment hsegment ↦ ?_⟩
  rcases mem_splitOn_bare hsegment with hnil | hbare
  · exact Or.inl hnil
  · refine eq_of_settled_eq_deep h ?_
    rw [tailSegments]
    split_ifs
    · exact hbare
    · exact List.mem_cons_of_mem _ hbare

/-! ### Carried patterns -/

theorem placed_deep {segments : List Segment} (h : segments ≠ []) :
    placed (deep :: segments) = deep :: segments := by
  obtain ⟨segment, rest, rfl⟩ := List.exists_cons_of_ne_nil h
  cases segment <;> cases rest <;> rfl

/-- At the root a line is carried to a pattern with the same normal form. -/
theorem matcherOf_rebaseBody_nil (hsingle : SingleSlashed body) (hbody : ∃ c ∈ body, c ≠ '/') :
    matcherOf ((rebaseBody [] body).splitOn '/') = matcherOf (body.splitOn '/') := by
  have hne := List.splitOn_ne_nil '/' (bare body)
  have hnormal := normalize_splitOn hsingle hbody
  rw [tailSegments] at hnormal
  have hsegments : (rebaseBody [] body).splitOn '/' =
      if isAnchored body then [] :: (bare body).splitOn '/'
      else deep :: (bare body).splitOn '/' := by
    simp only [rebaseBody, List.isEmpty_nil, if_true]
    split_ifs
    · rfl
    · exact List.splitOn_append_cons_self_of_not_mem (show '/' ∉ ['*', '*'] by decide) _
  rw [hsegments]
  split_ifs at hnormal ⊢
  · exact matcherOf_congr (by rw [hnormal, normalize_eq]; rfl)
      (by rw [List.getLast?_cons_of_ne_nil hne, getLast?_splitOn_bare])
  · exact matcherOf_congr (by rw [hnormal, normalize_eq, placed_deep hne])
      (by rw [List.getLast?_cons_of_ne_nil hne, getLast?_splitOn_bare])

/-- Two readings of patterns of which the first decides one path as the second decides another. -/
inductive ReadAlike (path full : List Char) :
    Except PatternError (Option Rule) → Except PatternError (Option Rule) → Prop
  | refused (error error' : PatternError) : ReadAlike path full (.error error) (.error error')
  | void : ReadAlike path full (.ok none) (.ok none)
  | rule (negated : Bool) {own carried : Matcher}
      (accepts : carried.accepts full = own.accepts path) :
      ReadAlike path full (.ok (some ⟨negated, own⟩)) (.ok (some ⟨negated, carried⟩))

theorem readAlike_ruleOf {path full body body' : List Char}
    (h : MatchAlike path full (matcherOf (body.splitOn '/')) (matcherOf (body'.splitOn '/')))
    (pattern pattern' : List Char) (negated : Bool) :
    ReadAlike path full (ruleOf pattern negated body) (ruleOf pattern' negated body') := by
  rw [ruleOf, ruleOf]
  generalize matcherOf (body.splitOn '/') = own, matcherOf (body'.splitOn '/') = carried at h ⊢
  cases h with
  | defect defect =>
    cases defect with
    | unclosed => exact .void
    | dangling => exact .refused _ _
  | @matcher own carried hbackward haccepts =>
    dsimp only
    cases hown : own.backwardRange? with
    | none =>
      have hcarried : carried.backwardRange? = none := by simpa [hown] using hbackward
      rw [hcarried]
      exact .rule negated haccepts
    | some range =>
      obtain ⟨range', hcarried⟩ := Option.isSome_iff_exists.mp (by simpa [hown] using hbackward)
      rw [hcarried]
      exact .refused _ _

/-- The reading of the pattern that a line is carried to; comments are carried to none. -/
def carriedRule (base line : List Char) : Except PatternError (Option Rule) :=
  match rebase base line with
  | none => .ok none
  | some pattern => Rule.ofPattern pattern

theorem exists_signed_bodyOf (line : List Char) :
    ∃ negated, line = signed negated (bodyOf line) ∧
      (negated = false → (bodyOf line).head? ≠ some '!') := by
  rw [bodyOf.eq_def]
  split
  next body => exact ⟨true, rfl, by simp⟩
  next hsign =>
    refine ⟨false, rfl, fun _ hhead ↦ ?_⟩
    obtain ⟨rest, hrest⟩ := List.head?_eq_some_iff.mp hhead
    exact hsign rest hrest

/-- A line is a comment, or it has a sign and a body with which it is read and carried. -/
theorem IsOrdinary.read_cases {line : List Char} (h : IsOrdinary line) (base : List Char) :
    (Rule.ofPattern line = .ok none ∧ rebase base line = none) ∨
    ∃ negated, Rule.ofPattern line = ruleOf line negated (bodyOf line) ∧
      ∃ pattern, rebase base line = some pattern ∧
        Rule.ofPattern pattern = ruleOf pattern negated (rebaseBody base (bodyOf line)) := by
  obtain ⟨negated, hline, hsign⟩ := exists_signed_bodyOf line
  have hbody : bodyOf line ≠ [] := by
    obtain ⟨c, hc, -⟩ := h.nonempty
    exact List.ne_nil_of_mem hc
  have htrim : Blank.trimRight (signed negated (bodyOf line)) = signed negated (bodyOf line) := by
    rw [← hline, h.trimmed]
  by_cases hcomment : negated = false ∧ (bodyOf line).head? = some '#'
  · left
    obtain ⟨rfl, hhead⟩ := hcomment
    obtain ⟨rest, hrest⟩ := List.head?_eq_some_iff.mp hhead
    obtain rfl : line = '#' :: rest := hline.trans hrest
    refine ⟨?_, ?_⟩
    · rw [Rule.ofPattern, stripped_of_trimRight h.trimmed]
      rfl
    · rw [rebase, h.trimmed]
      rfl
  · right
    have hplain : negated = false → (bodyOf line).head? ≠ some '#' :=
      fun hnegated hhead ↦ hcomment ⟨hnegated, hhead⟩
    refine ⟨negated, ?_, signed negated (rebaseBody base (bodyOf line)), ?_,
      ofPattern_signed_rebaseBody htrim base⟩
    · have hread := ofPattern_signed htrim hbody fun hnegated ↦
        ⟨hsign hnegated, hplain hnegated, fun hslash ↦ by simpa [hslash] using h.nonempty⟩
      rwa [← hline] at hread
    · exact rebase_eq_some_iff.mpr ⟨negated, bodyOf line, h.trimmed.trans hline,
        fun hnegated ↦ ⟨hbody, hsign hnegated, hplain hnegated⟩, rfl⟩

theorem IsOrdinary.single_bodyOf {line : List Char} (h : IsOrdinary line) :
    SingleSlashed (bodyOf line) := by
  obtain ⟨negated, hline, -⟩ := exists_signed_bodyOf line
  refine h.single.suffix ?_
  conv => enter [2]; rw [hline]
  cases negated
  · exact List.suffix_refl _
  · exact List.suffix_cons _ _

variable {names p : List String}

/-- A line is read in its own directory as its carried pattern is read at the root. -/
theorem IsOrdinary.readAlike {line : List Char} (h : IsOrdinary line)
    (hnames : ∀ name ∈ names, IsName name ∧ IsLiteral name.toList) (hne : p ≠ [])
    (hp : ∀ part ∈ p, IsName part)
    (hspared : names = [] ∨ 1 < p.length ∨
      (∃ c ∈ joined p, c ≠ '\n') ∧ ¬ NamesEveryDirectory line) :
    ReadAlike (joined p) (joined (names ++ p)) (Rule.ofPattern line)
      (carriedRule (joined names) line) := by
  rw [carriedRule]
  rcases h.read_cases (joined names) with ⟨hread, hcarried⟩ |
    ⟨negated, hread, pattern, hcarried, hpattern⟩
  · rw [hread, hcarried]
    exact .void
  rw [hread, hcarried]
  dsimp only
  rw [hpattern]
  refine readAlike_ruleOf ?_ _ _ _
  by_cases hroot : names = []
  · subst hroot
    rw [List.nil_append, show joined [] = [] from rfl,
      matcherOf_rebaseBody_nil h.single_bodyOf h.nonempty]
    exact .refl _ _
  have hslash : 1 < p.length → '/' ∈ joined p := by
    intro hlength
    obtain ⟨first, second, rest, rfl⟩ : ∃ first second rest, p = first :: second :: rest := by
      match p, hlength with
      | first :: second :: rest, _ => exact ⟨first, second, rest, rfl⟩
    simp [joined]
  have hspared := hspared.resolve_left hroot
  rw [matcherOf_rebaseBody hroot (fun name hname ↦ (hnames name hname).1)
    (fun name hname ↦ (hnames name hname).2), Path.joined_append hroot hne]
  refine matchAlike_settled (normalize_splitOn h.single_bodyOf h.nonempty)
    (settled_ne_nil (tailSegments_ne_nil _)) ?_ (Path.head?_joined_ne hp) ?_ ?_
  · simpa using joined_isEmpty hne hp
  · rw [List.any_eq_true]
    rcases hspared with hlength | ⟨⟨c, hc, hnewline⟩, -⟩
    · exact ⟨'/', hslash hlength, by decide⟩
    · exact ⟨c, hc, by simpa using hnewline⟩
  · intro hdeep hlast
    rw [List.contains_iff_mem]
    rcases hspared with hlength | ⟨-, hnot⟩
    · exact hslash hlength
    · exact absurd (namesEveryDirectory_of_settled hlast hdeep) hnot

/-! ### Decisions -/

/-- What rules make of a path that is ignored, or not, before them. -/
def decision (rules : List Rule) (path : List Char) (ignored : Bool) : Bool :=
  rules.foldl (fun ignored rule ↦ if rule.matcher.accepts path then !rule.negated else ignored)
    ignored

theorem ignores_eq_decision (rules : List Rule) (path : List Char) :
    ignores rules path = decision rules path false :=
  rfl

theorem toOption_map_map {ε α β γ : Type} (result : Except ε α) (f : α → β) (g : β → γ) :
    (result.map f).toOption.map g = result.toOption.map fun a ↦ g (f a) := by
  cases result <;> rfl

/-- Patterns that are read alike decide alike: one rule after the other. -/
theorem decision_alike {path full base : List Char} {lines : List (List Char)}
    (h : ∀ line ∈ lines, ReadAlike path full (Rule.ofPattern line) (carriedRule base line))
    (ignored : Bool) :
    ((rulesOf (lines.filterMap (rebase base))).toOption.map fun rules ↦
        decision rules full ignored) =
      (rulesOf lines).toOption.map fun rules ↦ decision rules path ignored := by
  induction lines generalizing ignored with
  | nil => rfl
  | cons line lines ih =>
    obtain ⟨hline, hlines⟩ := List.forall_mem_cons.mp h
    have ih := ih hlines
    rw [carriedRule] at hline
    cases hrebase : rebase base line with
    | none =>
      rw [hrebase] at hline
      rw [List.filterMap_cons_none hrebase, ih, rulesOf]
      generalize Rule.ofPattern line = own at hline
      cases hline
      exact (toOption_map_map _ _ _).symm
    | some pattern =>
      rw [hrebase] at hline
      rw [List.filterMap_cons_some hrebase, rulesOf, rulesOf]
      dsimp only at hline
      generalize Rule.ofPattern line = own, Rule.ofPattern pattern = carried at hline ⊢
      cases hline with
      | refused error error' => rfl
      | void =>
        dsimp only
        rw [toOption_map_map, toOption_map_map]
        exact ih ignored
      | @rule negated own carried haccepts =>
        dsimp only
        rw [toOption_map_map, toOption_map_map]
        have hrule := ih (if own.accepts path then !negated else ignored)
        simpa [decision, haccepts] using hrule

/-- The lines of an ignore file. -/
def linesOf (content : Bytes) : List (List Char) :=
  LineBreak.lines (LineBreak.normalize (Utf8.decodeReplacing content))

theorem patterns_eq (content : Bytes) (base : List String) :
    patterns content (String.intercalate "/" base) =
      (linesOf content).filterMap (rebase (joined base)) := by
  rw [patterns, toList_intercalate]
  rfl

/-- The patterns of an ignore file decide a path from the root on as its lines, used in their own
directory, decide the path from there on. A line that names every directory is an exception for the
entries of the directory itself; and so are these, for any line that names everything, if they have
nothing but line feeds in their names. -/
theorem patterns_decide (root : Path) {base p : List String}
    (hbase : ∀ name ∈ base, IsName name ∧ IsLiteral name.toList) (hne : p ≠ [])
    (hp : ∀ part ∈ p, IsName part) (content : Bytes)
    (hlines : ∀ line ∈ linesOf content, IsOrdinary line)
    (hspared : base = [] ∨ 1 < p.length ∨
      (∃ c ∈ joined p, c ≠ '\n') ∧ ∀ line ∈ linesOf content, ¬ NamesEveryDirectory line) :
    ((rulesOf (patterns content (String.intercalate "/" base))).toOption.map fun rules ↦
        Disk.isIgnored root rules ((root.below base).below p)) =
      (rulesOf (linesOf content)).toOption.map fun rules ↦
        Disk.isIgnored (root.below base) rules ((root.below base).below p) := by
  have hnames : ∀ part ∈ base ++ p, IsName part := by
    intro part hpart
    rcases List.mem_append.mp hpart with hpart | hpart
    · exact (hbase part hpart).1
    · exact hp part hpart
  have hroot : Disk.matchedText root ((root.below base).below p) = joined (base ++ p) := by
    rw [← matchedText_below root (by simp [hne]) hnames, Path.below, Path.below, Path.below,
      List.append_assoc]
  have halike : ∀ line ∈ linesOf content, ReadAlike (joined p) (joined (base ++ p))
      (Rule.ofPattern line) (carriedRule (joined base) line) := by
    intro line hline
    refine (hlines line hline).readAlike hbase hne hp (hspared.imp_right (Or.imp_right ?_))
    exact fun hboth ↦ ⟨hboth.1, hboth.2 line hline⟩
  simp only [Disk.isIgnored, hroot, matchedText_below _ hne hp, ignores_eq_decision, patterns_eq]
  exact decision_alike halike false

theorem patterns_decide_nested :
    (∀ name ∈ ["my app", "src"], IsName name ∧ IsLiteral name.toList) ∧
    (∀ line ∈ linesOf (Utf8.encode "**/\n!*.gen.tsx\n# old\n/legacy/**/[a-c]?.gen.tsx\n".toList),
      IsOrdinary line) ∧
    ((rulesOf (patterns
          (Utf8.encode "**/\n!*.gen.tsx\n# old\n/legacy/**/[a-c]?.gen.tsx\n".toList)
          (String.intercalate "/" ["my app", "src"]))).toOption.map fun rules ↦
        Disk.isIgnored ⟨.root, ["w"]⟩ rules
          (((Path.mk .root ["w"]).below ["my app", "src"]).below ["legacy", "x", "b1.gen.tsx"])) =
      some true := by
  have hbase : ∀ name ∈ ["my app", "src"], IsName name ∧ IsLiteral name.toList := by
    decide
  have hlines : ∀ line ∈
      linesOf (Utf8.encode "**/\n!*.gen.tsx\n# old\n/legacy/**/[a-c]?.gen.tsx\n".toList),
      IsOrdinary line := by
    decide
  refine ⟨hbase, hlines, ?_⟩
  rw [patterns_decide ⟨.root, ["w"]⟩ hbase (by decide) (by decide) _ hlines
    (Or.inr (Or.inl (by decide)))]
  decide

/-- A line that names every directory is carried to a pattern that names the files of its own
directory, too. -/
theorem patterns_overreach :
    (∀ line ∈ linesOf (Utf8.encode "**/\n".toList), IsOrdinary line) ∧
    ((rulesOf (linesOf (Utf8.encode "**/\n".toList))).toOption.map fun rules ↦
        Disk.isIgnored ((Path.mk .root ["w"]).below ["b"]) rules
          (((Path.mk .root ["w"]).below ["b"]).below ["x.tsx"])) = some false ∧
    ((rulesOf (patterns (Utf8.encode "**/\n".toList) (String.intercalate "/" ["b"]))).toOption.map
        fun rules ↦ Disk.isIgnored ⟨.root, ["w"]⟩ rules
          (((Path.mk .root ["w"]).below ["b"]).below ["x.tsx"])) = some true := by
  decide

-- The other exception: `*` alone does not take a line feed, but what stands below `b/` may be one.
example :
    ((rulesOf ["*".toList]).toOption.map fun rules ↦
        Disk.isIgnored ⟨.root, ["w", "b"]⟩ rules ⟨.root, ["w", "b", "\n"]⟩) = some false ∧
    ((rulesOf (patterns (Utf8.encode "*\n".toList) "b")).toOption.map fun rules ↦
        Disk.isIgnored ⟨.root, ["w"]⟩ rules ⟨.root, ["w", "b", "\n"]⟩) = some true := by
  decide

end TagScope.Ignore
