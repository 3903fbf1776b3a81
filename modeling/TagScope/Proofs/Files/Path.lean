import TagScope.Files.Path

/-!
# Reading back the text of a path

Names that are joined by slashes come back when the text is cut at its slashes (`splitOn_joined`),
so an absolute path whose parts are names is read back from its text (`IsPlain.ofText_toText`).
Every text means such a path in a working directory (`isPlain_absolute_ofText`).
-/

set_option autoImplicit false

namespace TagScope

/-- What stands between the occurrences of a mark does not have the mark. -/
theorem not_mem_of_mem_splitOn {mark : Char} {text piece : List Char}
    (h : piece ∈ text.splitOn mark) : mark ∉ piece := by
  induction text generalizing piece with
  | nil =>
    rw [List.splitOn_nil, List.mem_singleton] at h
    rw [h]
    exact List.not_mem_nil
  | cons c text ih =>
    rw [List.splitOn_cons_eq_if_modifyHead] at h
    split at h
    next =>
      rcases List.mem_cons.mp h with rfl | h
      · exact List.not_mem_nil
      · exact ih h
    next hc =>
      obtain ⟨first, others, hpieces⟩ := List.exists_cons_of_ne_nil (List.splitOn_ne_nil mark text)
      rw [hpieces, List.modifyHead_cons] at h
      rcases List.mem_cons.mp h with rfl | h
      · rw [List.mem_cons, not_or]
        exact ⟨fun heq ↦ hc (beq_iff_eq.mpr heq.symm), ih (hpieces ▸ List.mem_cons_self)⟩
      · exact ih (hpieces ▸ List.mem_cons_of_mem _ h)

namespace Path

/-- A text that can be the name of an entry. -/
structure IsName (text : String) : Prop where
  ne_empty : text ≠ ""
  ne_dot : text ≠ "."
  ne_dots : text ≠ ".."
  slash_not_mem : '/' ∉ text.toList

instance (text : String) : Decidable (IsName text) :=
  decidable_of_iff (text ≠ "" ∧ text ≠ "." ∧ text ≠ ".." ∧ '/' ∉ text.toList)
    ⟨fun ⟨h₁, h₂, h₃, h₄⟩ ↦ ⟨h₁, h₂, h₃, h₄⟩, fun ⟨h₁, h₂, h₃, h₄⟩ ↦ ⟨h₁, h₂, h₃, h₄⟩⟩

/-- Names with slashes between them. -/
def joined (parts : List String) : List Char :=
  ['/'].intercalate (parts.map String.toList)

variable {parts : List String}

theorem joined_append {front back : List String} (hfront : front ≠ []) (hback : back ≠ []) :
    joined (front ++ back) = joined front ++ '/' :: joined back := by
  induction front with
  | nil => exact absurd rfl hfront
  | cons part front ih =>
    cases front with
    | nil =>
      obtain ⟨next, back, rfl⟩ := List.exists_cons_of_ne_nil hback
      simp [joined]
    | cons next front =>
      have hrest := ih (List.cons_ne_nil _ _)
      simp only [joined, List.cons_append, List.map_cons, List.intercalate_cons_cons,
        List.append_assoc] at hrest ⊢
      rw [hrest]

theorem splitOn_joined (hne : parts ≠ []) (h : ∀ part ∈ parts, '/' ∉ part.toList) :
    (joined parts).splitOn '/' = parts.map String.toList :=
  List.splitOn_intercalate '/' (by simpa using h) (by simpa using hne)

theorem head?_joined_ne (h : ∀ part ∈ parts, IsName part) : (joined parts).head? ≠ some '/' := by
  cases parts with
  | nil => simp [joined]
  | cons part rest =>
    have hpart := h part List.mem_cons_self
    obtain ⟨c, text, htext⟩ : ∃ c text, part.toList = c :: text :=
      List.exists_cons_of_ne_nil (by simpa using hpart.ne_empty)
    have hc : c ≠ '/' := fun heq ↦ hpart.slash_not_mem (by rw [htext, heq]; simp)
    cases rest <;> simp [joined, htext, hc]

theorem filter_splitOn_joined (h : ∀ part ∈ parts, IsName part) :
    ((((joined parts).splitOn '/').map String.ofList).filter fun part ↦
      part != "" && part != ".") = parts := by
  cases parts with
  | nil => rfl
  | cons part rest =>
    rw [splitOn_joined (List.cons_ne_nil _ _) fun other hother ↦ (h other hother).slash_not_mem,
      List.map_map]
    have hid : String.ofList ∘ String.toList = id := funext fun _ ↦ String.ofList_toList
    rw [hid, List.map_id, List.filter_eq_self]
    intro other hother
    simp [(h other hother).ne_empty, (h other hother).ne_dot]

theorem takeWhile_slash_append {front text : List Char} (hfront : ∀ c ∈ front, c = '/')
    (htext : text.head? ≠ some '/') :
    ((front ++ text).takeWhile fun c ↦ c = '/') = front := by
  rw [List.takeWhile_append_of_pos (by simpa using hfront)]
  cases text with
  | nil => simp
  | cons c text =>
    have hc : c ≠ '/' := fun heq ↦ htext (by rw [heq]; rfl)
    simp [hc]

/-- An absolute path whose parts are all names. -/
structure IsPlain (path : Path) : Prop where
  anchored : path.anchor ≠ .relative
  isName : ∀ part ∈ path.parts, IsName part

/-- A plain path is read back from its text. -/
theorem IsPlain.ofText_toText {path : Path} (h : path.IsPlain) : ofText path.toText = path := by
  obtain ⟨anchor, parts⟩ := path
  obtain ⟨hanchor, hparts⟩ := h
  have htext : (toText ⟨anchor, parts⟩).toList = anchor.text.toList ++ joined parts := by
    simp [toText, show anchor ≠ .relative from hanchor, joined]
  have hslashes : ∀ c ∈ anchor.text.toList, c = '/' := by
    cases anchor <;> simp [Anchor.text]
  rw [ofText, htext, takeWhile_slash_append hslashes (head?_joined_ne hparts)]
  cases anchor with
  | relative => exact absurd rfl hanchor
  | root =>
    simpa [Anchor.text, List.splitOn_cons_eq_if_modifyHead] using filter_splitOn_joined hparts
  | doubleRoot =>
    simpa [Anchor.text, List.splitOn_cons_eq_if_modifyHead] using filter_splitOn_joined hparts

/-- The path to an entry beneath a directory. -/
def below (path : Path) (parts : List String) : Path :=
  { path with parts := path.parts ++ parts }

theorem IsPlain.join {path : Path} (h : path.IsPlain) {name : String} (hname : IsName name) :
    (path.join name).IsPlain := by
  refine ⟨h.anchored, fun part hpart ↦ ?_⟩
  rcases List.mem_append.mp hpart with hold | hnew
  · exact h.isName part hold
  · rwa [List.mem_singleton.mp hnew]

/-! ### Two dots -/

theorem mem_foldl_resolve {up : List String} {part : String}
    (h : part ∈ parts.foldl (fun up part ↦ if part = ".." then up.tail else part :: up) up) :
    part ∈ up ∨ part ∈ parts ∧ part ≠ ".." := by
  induction parts generalizing up with
  | nil => exact Or.inl h
  | cons first rest ih =>
    rcases ih h with hup | ⟨hrest, hne⟩
    · dsimp only at hup
      by_cases hdots : first = ".."
      · rw [if_pos hdots] at hup
        exact Or.inl (List.mem_of_mem_tail hup)
      · rw [if_neg hdots] at hup
        rcases List.mem_cons.mp hup with rfl | hup
        · exact Or.inr ⟨List.mem_cons_self, hdots⟩
        · exact Or.inl hup
    · exact Or.inr ⟨List.mem_cons_of_mem _ hrest, hne⟩

/-- What is left of the parts of a path are parts of it, and no two dots. -/
theorem mem_resolveParts {part : String} (h : part ∈ resolveParts parts) :
    part ∈ parts ∧ part ≠ ".." := by
  rcases mem_foldl_resolve (List.mem_reverse.mp h) with hnone | hsome
  · simp at hnone
  · exact hsome

theorem foldl_resolve_of_isName (h : ∀ part ∈ parts, part ≠ "..") (up : List String) :
    parts.foldl (fun up part ↦ if part = ".." then up.tail else part :: up) up =
      parts.reverse ++ up := by
  induction parts generalizing up with
  | nil => rfl
  | cons first rest ih =>
    obtain ⟨hfirst, hrest⟩ := List.forall_mem_cons.mp h
    rw [List.foldl_cons, if_neg hfirst, ih hrest, List.reverse_cons, List.append_assoc]
    rfl

theorem resolveParts_of_ne (h : ∀ part ∈ parts, part ≠ "..") : resolveParts parts = parts := by
  rw [resolveParts, foldl_resolve_of_isName h, List.append_nil, List.reverse_reverse]

theorem IsPlain.absolute_eq {path : Path} (h : path.IsPlain) (cwd : List String) :
    path.absolute cwd = path := by
  have hparts := resolveParts_of_ne fun part hpart ↦ (h.isName part hpart).ne_dots
  obtain ⟨anchor, parts⟩ := path
  cases anchor with
  | relative => exact absurd rfl h.anchored
  | root => rw [absolute, hparts]
  | doubleRoot => rw [absolute, hparts]

/-- The part of a path that is read from a text is a name, or two dots. -/
theorem isName_of_mem_ofText {text part : String} (h : part ∈ (ofText text).parts)
    (hdots : part ≠ "..") : IsName part := by
  obtain ⟨htext, hpart⟩ := List.mem_filter.mp h
  simp only [Bool.and_eq_true, bne_iff_ne] at hpart
  obtain ⟨piece, hpiece, rfl⟩ := List.mem_map.mp htext
  refine ⟨hpart.1, hpart.2, hdots, ?_⟩
  rw [String.toList_ofList]
  exact not_mem_of_mem_splitOn hpiece

/-- Whatever a text says, it means a plain path in a working directory of names. -/
theorem isPlain_absolute_ofText {cwd : List String} (hcwd : ∀ part ∈ cwd, IsName part)
    (text : String) : ((ofText text).absolute cwd).IsPlain := by
  have hparts : ∀ part ∈ (ofText text).parts, part ≠ ".." → IsName part :=
    fun part hpart ↦ isName_of_mem_ofText hpart
  generalize ofText text = path at hparts ⊢
  obtain ⟨anchor, parts⟩ := path
  cases anchor with
  | relative =>
    refine ⟨by simp [absolute], fun part hpart ↦ ?_⟩
    obtain ⟨hmem, hne⟩ := mem_resolveParts hpart
    rcases List.mem_append.mp hmem with hmem | hmem
    · exact hcwd part hmem
    · exact hparts part hmem hne
  | root =>
    refine ⟨by simp [absolute], fun part hpart ↦ ?_⟩
    obtain ⟨hmem, hne⟩ := mem_resolveParts hpart
    exact hparts part hmem hne
  | doubleRoot =>
    refine ⟨by simp [absolute], fun part hpart ↦ ?_⟩
    obtain ⟨hmem, hne⟩ := mem_resolveParts hpart
    exact hparts part hmem hne

end Path

end TagScope
