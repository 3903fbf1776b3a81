import TagScope.Proofs.Imports.Tokens

/-!
# Import statements

The concrete syntax of import statements, over any kind of token: `Import.Statement Token` is a
statement as its bare tokens, `Import.Statement Lexeme` one as it stands in a text. A statement has
a clause with a default binding, a group of specifiers or a namespace, the first alone or before
either of the others, or it has none and imports a module for its effects alone.

`Statement.IsImport` says which statements are grammatical. What such a statement binds can be read
off its tokens, for they belong to no other statement (`Statement.eq_of_tokens_eq`).
-/

set_option autoImplicit false

namespace TagScope.Import

variable {α β : Type}

/-! ### Syntax -/

/-- One specifier: the keyword `type`, the name in the module with the keyword `as`, and the name
that is bound. -/
structure Specifier (α : Type) where
  typeWord : Option α
  imported : Option (α × α)
  binding : α
deriving DecidableEq, Repr

/-- Specifiers with the commas between them, and perhaps one behind. -/
structure Members (α : Type) where
  first : Specifier α
  more : List (α × Specifier α)
  trailing : Option α
deriving DecidableEq, Repr

structure Group (α : Type) where
  opening : α
  members : Option (Members α)
  closing : α
deriving DecidableEq, Repr

/-- What can follow a default binding: specifiers, or a name for all of the module. -/
inductive Tail (α : Type) where
  | group (group : Group α)
  | all (star word name : α)
deriving DecidableEq, Repr

/-- A default binding alone, or a tail that may have a default binding and a comma before it. -/
inductive Clause (α : Type) where
  | default (name : α)
  | rest (front : Option (α × α)) (tail : Tail α)
deriving DecidableEq, Repr

/-- A statement: its keyword, its clause with the keyword `from`, and the literal that names the
module. -/
structure Statement (α : Type) where
  keyword : α
  clause : Option (Clause α × α)
  source : α
  semicolon : Option α
deriving DecidableEq, Repr

/-! ### Tokens -/

def Specifier.tokens (s : Specifier α) : List α :=
  s.typeWord.toList ++ (s.imported.elim [] fun p ↦ [p.1, p.2]) ++ [s.binding]

/-- What follows the first of some specifiers: the others, each with the comma before it, and
perhaps a comma. -/
def further (more : List (α × Specifier α)) (trailing : Option α) : List α :=
  (more.flatMap fun p ↦ p.1 :: p.2.tokens) ++ trailing.toList

theorem further_cons (p : α × Specifier α) (more : List (α × Specifier α)) (trailing : Option α) :
    further (p :: more) trailing = p.1 :: (p.2.tokens ++ further more trailing) := by
  simp [further]

def Members.tokens (m : Members α) : List α :=
  m.first.tokens ++ further m.more m.trailing

/-- The tokens without those of a trailing comma. -/
def Members.body (m : Members α) : List α :=
  m.first.tokens ++ m.more.flatMap fun p ↦ p.1 :: p.2.tokens

theorem Members.tokens_eq_body (m : Members α) : m.tokens = m.body ++ m.trailing.toList := by
  rw [tokens, further, body, List.append_assoc]

def Group.tokens (g : Group α) : List α :=
  g.opening :: g.members.elim [] Members.tokens ++ [g.closing]

def Tail.tokens : Tail α → List α
  | .group g => g.tokens
  | .all star word name => [star, word, name]

def Clause.tokens : Clause α → List α
  | .default name => [name]
  | .rest front tail => (front.elim [] fun p ↦ [p.1, p.2]) ++ tail.tokens

def Statement.tokens (st : Statement α) : List α :=
  st.keyword :: (st.clause.elim [] fun p ↦ p.1.tokens ++ [p.2]) ++
    st.source :: st.semicolon.toList

/-! ### Bindings -/

def Members.specifiers (m : Members α) : List (Specifier α) :=
  m.first :: m.more.map Prod.snd

def Group.specifiers (g : Group α) : List (Specifier α) :=
  g.members.elim [] Members.specifiers

def Clause.default? : Clause α → Option α
  | .default name => some name
  | .rest front _ => front.map Prod.fst

def Clause.namespace? : Clause α → Option α
  | .rest _ (.all _ _ name) => some name
  | _ => none

def Clause.group? : Clause α → Option (Group α)
  | .rest _ (.group g) => some g
  | _ => none

def Clause.specifiers (c : Clause α) : List (Specifier α) :=
  c.group?.elim [] Group.specifiers

def Statement.default? (st : Statement α) : Option α :=
  st.clause.bind fun p ↦ p.1.default?

def Statement.namespace? (st : Statement α) : Option α :=
  st.clause.bind fun p ↦ p.1.namespace?

def Statement.specifiers (st : Statement α) : List (Specifier α) :=
  st.clause.elim [] fun p ↦ p.1.specifiers

theorem Statement.exists_members_of_mem {st : Statement α} {s : Specifier α}
    (hs : s ∈ st.specifiers) : ∃ front opening m closing word,
      st.clause = some (.rest front (.group ⟨opening, some m, closing⟩), word) ∧
        s ∈ m.specifiers := by
  obtain ⟨keyword, clause, source, semicolon⟩ := st
  rcases clause with _ | ⟨_ | ⟨front, ⟨opening, _ | m, closing⟩ | ⟨star, word, name⟩⟩, word⟩
  · cases hs
  · cases hs
  · cases hs
  · exact ⟨front, opening, m, closing, word, rfl, hs⟩
  · cases hs

/-- The last specifier ends with its name. -/
theorem Members.exists_body_eq (m : Members α) : ∃ last init,
    m.specifiers.getLast? = some last ∧ m.body = init ++ [last.binding] := by
  obtain ⟨first, more, trailing⟩ := m
  rcases List.eq_nil_or_concat more with rfl | ⟨more, p, rfl⟩
  · exact ⟨first, _, rfl, List.append_nil _⟩
  · refine ⟨p.2, first.tokens ++ (more.flatMap fun p ↦ p.1 :: p.2.tokens) ++ p.1 ::
      (p.2.typeWord.toList ++ p.2.imported.elim [] fun p ↦ [p.1, p.2]), ?_, ?_⟩
    · simp [specifiers, List.getLast?_cons]
    · simp [body, Specifier.tokens]

theorem Members.tokens_subset {m : Members α} {s : Specifier α} (hs : s ∈ m.specifiers) :
    s.tokens ⊆ m.tokens := by
  intro l hl
  rcases List.mem_cons.mp hs with rfl | hs
  · exact List.mem_append_left _ hl
  · obtain ⟨p, hp, rfl⟩ := List.mem_map.mp hs
    refine List.mem_append_right _ (List.mem_append_left _ ?_)
    exact List.mem_flatMap.mpr ⟨p, hp, List.mem_cons_of_mem _ hl⟩

theorem Statement.tokens_subset {st : Statement α} {s : Specifier α} (hs : s ∈ st.specifiers) :
    s.tokens ⊆ st.tokens := by
  obtain ⟨front, opening, m, closing, word, hclause, hs⟩ := exists_members_of_mem hs
  intro l hl
  have hm := Members.tokens_subset hs hl
  simp [tokens, hclause, Clause.tokens, Tail.tokens, Group.tokens, hm]

/-- The names that the specifiers without the keyword `type` bind. -/
def Statement.valueBindings (st : Statement α) : List α :=
  (st.specifiers.filter fun s ↦ s.typeWord.isNone).map Specifier.binding

/-- The names that no specifier binds as a value. -/
def Statement.unbound (st : Statement Token) (names : List String) : List String :=
  names.filter fun name ↦ !st.valueBindings.contains name.toList

/-- The module that a literal names: the literal without its quotes. -/
def moduleOf (source : Token) : List Char :=
  source.tail.dropLast

@[simp] theorem moduleOf_quoted (quote : Char) (text : List Char) :
    moduleOf (quote :: text ++ [quote]) = text := by
  simp [moduleOf]

/-! ### Statements over other tokens -/

def Specifier.map (f : α → β) (s : Specifier α) : Specifier β :=
  ⟨s.typeWord.map f, s.imported.map (Prod.map f f), f s.binding⟩

def Members.map (f : α → β) (m : Members α) : Members β :=
  ⟨m.first.map f, m.more.map (Prod.map f (Specifier.map f)), m.trailing.map f⟩

def Group.map (f : α → β) (g : Group α) : Group β :=
  ⟨f g.opening, g.members.map (Members.map f), f g.closing⟩

def Tail.map (f : α → β) : Tail α → Tail β
  | .group g => .group (g.map f)
  | .all star word name => .all (f star) (f word) (f name)

def Clause.map (f : α → β) : Clause α → Clause β
  | .default name => .default (f name)
  | .rest front tail => .rest (front.map (Prod.map f f)) (tail.map f)

def Statement.map (f : α → β) (st : Statement α) : Statement β :=
  ⟨f st.keyword, st.clause.map (Prod.map (Clause.map f) f), f st.source, st.semicolon.map f⟩

variable (f : α → β)

@[simp] theorem Specifier.tokens_map (s : Specifier α) : (s.map f).tokens = s.tokens.map f := by
  obtain ⟨typeWord, imported, binding⟩ := s
  cases typeWord <;> cases imported <;> simp [Specifier.tokens, Specifier.map]

@[simp] theorem Members.body_map (m : Members α) : (m.map f).body = m.body.map f := by
  simp [Members.body, Members.map, List.flatMap_map, List.map_flatMap]

@[simp] theorem Members.tokens_map (m : Members α) : (m.map f).tokens = m.tokens.map f := by
  rw [tokens_eq_body, tokens_eq_body, body_map, List.map_append, ← Option.toList_map]
  rfl

@[simp] theorem Group.tokens_map (g : Group α) : (g.map f).tokens = g.tokens.map f := by
  obtain ⟨opening, members, closing⟩ := g
  cases members <;> simp [Group.tokens, Group.map]

@[simp] theorem Tail.tokens_map (t : Tail α) : (t.map f).tokens = t.tokens.map f := by
  cases t <;> simp [Tail.tokens, Tail.map]

@[simp] theorem Clause.tokens_map (c : Clause α) : (c.map f).tokens = c.tokens.map f := by
  cases c with
  | default name => rfl
  | rest front tail => cases front <;> simp [Clause.tokens, Clause.map]

@[simp] theorem Statement.tokens_map (st : Statement α) :
    (st.map f).tokens = st.tokens.map f := by
  obtain ⟨keyword, clause, source, semicolon⟩ := st
  cases clause <;> cases semicolon <;> simp [Statement.tokens, Statement.map]

@[simp] theorem Members.specifiers_map (m : Members α) :
    (m.map f).specifiers = m.specifiers.map (Specifier.map f) := by
  simp [Members.specifiers, Members.map]

@[simp] theorem Group.specifiers_map (g : Group α) :
    (g.map f).specifiers = g.specifiers.map (Specifier.map f) := by
  obtain ⟨opening, members, closing⟩ := g
  cases members <;> simp [Group.specifiers, Group.map]

@[simp] theorem Clause.specifiers_map (c : Clause α) :
    (c.map f).specifiers = c.specifiers.map (Specifier.map f) := by
  rcases c with name | ⟨front, group | ⟨star, word, name⟩⟩ <;>
    simp [Clause.specifiers, Clause.group?, Clause.map, Tail.map]

@[simp] theorem Statement.specifiers_map (st : Statement α) :
    (st.map f).specifiers = st.specifiers.map (Specifier.map f) := by
  obtain ⟨keyword, clause, source, semicolon⟩ := st
  cases clause <;> simp [Statement.specifiers, Statement.map]

@[simp] theorem Clause.namespace?_map (c : Clause α) :
    (c.map f).namespace? = c.namespace?.map f := by
  rcases c with name | ⟨front, group | ⟨star, word, name⟩⟩ <;> rfl

@[simp] theorem Statement.namespace?_map (st : Statement α) :
    (st.map f).namespace? = st.namespace?.map f := by
  obtain ⟨keyword, clause, source, semicolon⟩ := st
  cases clause <;> simp [Statement.namespace?, Statement.map]

/-! ### Grammatical statements -/

open Lexer

/-- Words that name nothing. -/
def reserved : List Token :=
  ["break", "case", "catch", "class", "const", "continue", "debugger", "default", "delete", "do",
    "else", "enum", "export", "extends", "false", "finally", "for", "function", "if", "import",
    "in", "instanceof", "new", "null", "return", "super", "switch", "this", "throw", "true", "try",
    "typeof", "var", "void", "while", "with"].map String.toList

/-- A word that can be bound. -/
def IsIdentifier (t : Token) : Prop :=
  IsWord t ∧ t.head?.any Char.isDigit = false ∧ t ∉ reserved

/-- A string literal of any content. -/
def IsLiteral (t : Token) : Prop :=
  IsClosed t ∧ t.head?.any quotes.contains = true

/-- A string literal without quotes, backslashes and line ends in it. -/
def IsSource (t : Token) : Prop :=
  (∃ quote ∈ quotes, t = quote :: moduleOf t ++ [quote]) ∧ ∀ c ∈ moduleOf t, isPlain c

theorem IsSource.exists_eq {t : Token} (h : IsSource t) :
    ∃ quote ∈ quotes, ∃ text, t = quote :: text ++ [quote] ∧ moduleOf t = text := by
  obtain ⟨⟨quote, hquote, ht⟩, -⟩ := h
  exact ⟨quote, hquote, moduleOf t, ht, rfl⟩

def Specifier.IsValid (s : Specifier Token) : Prop :=
  (∀ t ∈ s.typeWord, t = "type".toList) ∧
    (∀ p ∈ s.imported, (IsWord p.1 ∨ IsLiteral p.1) ∧ p.2 = "as".toList) ∧ IsIdentifier s.binding

def Members.IsValid (m : Members Token) : Prop :=
  m.first.IsValid ∧ (∀ p ∈ m.more, p.1 = [','] ∧ p.2.IsValid) ∧ ∀ t ∈ m.trailing, t = [',']

def Group.IsValid (g : Group Token) : Prop :=
  g.opening = ['{'] ∧ (∀ m ∈ g.members, m.IsValid) ∧ g.closing = ['}']

def Tail.IsValid : Tail Token → Prop
  | .group g => g.IsValid
  | .all star word name => star = ['*'] ∧ word = "as".toList ∧ IsIdentifier name

def Clause.IsValid : Clause Token → Prop
  | .default name => IsIdentifier name
  | .rest front tail => (∀ p ∈ front, IsIdentifier p.1 ∧ p.2 = [',']) ∧ tail.IsValid

/-- The statement is a grammatical import of a module. -/
structure Statement.IsImport (st : Statement Token) : Prop where
  keyword : st.keyword = "import".toList
  clause : ∀ p ∈ st.clause, p.1.IsValid ∧ p.2 = "from".toList
  source : IsSource st.source
  semicolon : ∀ t ∈ st.semicolon, t = [';']

section Decidable

instance (t : Token) : Decidable (IsIdentifier t) :=
  inferInstanceAs (Decidable (_ ∧ _ ∧ _))

instance (t : Token) : Decidable (IsLiteral t) :=
  inferInstanceAs (Decidable (_ ∧ _))

instance (t : Token) : Decidable (IsSource t) :=
  decidable_of_iff
    ((quotes.any fun quote ↦ t = quote :: moduleOf t ++ [quote]) ∧ (moduleOf t).all isPlain)
    (by simp [IsSource])

instance (s : Specifier Token) : Decidable s.IsValid :=
  inferInstanceAs (Decidable (_ ∧ _ ∧ _))

instance (m : Members Token) : Decidable m.IsValid :=
  inferInstanceAs (Decidable (_ ∧ _ ∧ _))

instance (g : Group Token) : Decidable g.IsValid :=
  inferInstanceAs (Decidable (_ ∧ _ ∧ _))

instance : (t : Tail Token) → Decidable t.IsValid
  | .group g => inferInstanceAs (Decidable g.IsValid)
  | .all _ _ _ => inferInstanceAs (Decidable (_ ∧ _ ∧ _))

instance : (c : Clause Token) → Decidable c.IsValid
  | .default name => inferInstanceAs (Decidable (IsIdentifier name))
  | .rest _ _ => inferInstanceAs (Decidable (_ ∧ _))

end Decidable

theorem Statement.IsImport.isValid_of_mem {st : Statement Token} (h : st.IsImport)
    {s : Specifier Token} (hs : s ∈ st.specifiers) : s.IsValid := by
  obtain ⟨front, opening, m, closing, word, hclause, hs⟩ := exists_members_of_mem hs
  have hm : m.IsValid := (h.clause _ hclause).1.2.2.1 m rfl
  rcases List.mem_cons.mp hs with rfl | hs
  · exact hm.1
  · obtain ⟨p, hp, rfl⟩ := List.mem_map.mp hs
    exact (hm.2.1 p hp).2

/-! ### A statement can be read off its tokens -/

/-- The tokens that specifiers are made of. -/
def IsPart (t : Token) : Prop :=
  IsWord t ∨ IsLiteral t

instance (t : Token) : Decidable (IsPart t) :=
  inferInstanceAs (Decidable (_ ∨ _))

theorem IsSource.isClosed {t : Token} (h : IsSource t) : IsClosed t := by
  obtain ⟨⟨quote, hquote, ht⟩, hmodule⟩ := h
  rw [ht]
  exact isClosed_quoted hquote hmodule

/-- Two lists whose first parts are of one kind, and whose second parts do not start so, agree part
by part. -/
theorem append_inj_of_kind {p : Token → Prop} {xs ys r r' : List Token} (hxs : ∀ t ∈ xs, p t)
    (hys : ∀ t ∈ ys, p t) (hr : ∀ t ∈ r.head?, ¬ p t) (hr' : ∀ t ∈ r'.head?, ¬ p t)
    (h : xs ++ r = ys ++ r') : xs = ys ∧ r = r' := by
  induction xs generalizing ys with
  | nil =>
    cases ys with
    | nil => exact ⟨rfl, h⟩
    | cons y ys =>
      subst h
      exact absurd (hys y List.mem_cons_self) (hr y rfl)
  | cons x xs ih =>
    cases ys with
    | nil =>
      subst h
      exact absurd (hxs x List.mem_cons_self) (hr' x rfl)
    | cons y ys =>
      obtain ⟨rfl, htail⟩ := List.cons.inj h
      obtain ⟨rfl, rfl⟩ := ih (fun t ht ↦ hxs t (List.mem_cons_of_mem _ ht))
        (fun t ht ↦ hys t (List.mem_cons_of_mem _ ht)) htail
      exact ⟨rfl, rfl⟩

theorem Specifier.IsValid.isPart {s : Specifier Token} (h : s.IsValid) :
    ∀ t ∈ s.tokens, IsPart t := by
  obtain ⟨typeWord, imported, binding⟩ := s
  obtain ⟨htype, himported, hbinding⟩ := h
  have hwords : IsPart "type".toList ∧ IsPart "as".toList := by decide
  have hname : IsPart binding := Or.inl hbinding.1
  rcases typeWord with _ | t <;> rcases imported with _ | ⟨name, word⟩ <;>
    simp_all [Specifier.tokens, IsPart]

theorem Specifier.eq_of_tokens_eq {s s' : Specifier Token} (h : s.tokens = s'.tokens) :
    s = s' := by
  obtain ⟨typeWord, imported, binding⟩ := s
  obtain ⟨typeWord', imported', binding'⟩ := s'
  rcases typeWord with _ | t <;> rcases imported with _ | ⟨name, word⟩ <;>
    rcases typeWord' with _ | t' <;> rcases imported' with _ | ⟨name', word'⟩ <;>
    simp_all [Specifier.tokens]

/-- Two specifiers before tokens of another kind. -/
theorem Specifier.IsValid.append_inj {s s' : Specifier Token} (h : s.IsValid) (h' : s'.IsValid)
    {r r' : List Token} (hr : ∀ t ∈ r.head?, ¬ IsPart t) (hr' : ∀ t ∈ r'.head?, ¬ IsPart t)
    (heq : s.tokens ++ r = s'.tokens ++ r') : s = s' ∧ r = r' := by
  obtain ⟨htokens, rfl⟩ := append_inj_of_kind h.isPart h'.isPart hr hr' heq
  exact ⟨Specifier.eq_of_tokens_eq htokens, rfl⟩

theorem Specifier.IsValid.append_ne_cons {s : Specifier Token} (h : s.IsValid) {t : Token}
    (ht : ¬ IsPart t) (r r' : List Token) : s.tokens ++ r ≠ t :: r' := by
  intro heq
  have hne : s.tokens ≠ [] := by simp [Specifier.tokens]
  obtain ⟨t', ts, htokens⟩ := List.exists_cons_of_ne_nil hne
  rw [htokens, List.cons_append] at heq
  obtain ⟨rfl, -⟩ := List.cons.inj heq
  exact ht (h.isPart t' (by rw [htokens]; exact List.mem_cons_self))

/-- What follows the first specifier, up to the brace, does not start like a specifier. -/
theorem further_head {more : List (Token × Specifier Token)} {trailing : Option Token}
    (hmore : ∀ p ∈ more, p.1 = [','] ∧ p.2.IsValid) (htrailing : ∀ t ∈ trailing, t = [','])
    (r : List Token) : ∀ t ∈ (further more trailing ++ ['}'] :: r).head?, ¬ IsPart t := by
  have hmarks : ¬ IsPart [','] ∧ ¬ IsPart ['}'] := by decide
  intro t ht
  rcases more with _ | ⟨p, more⟩
  · rcases trailing with _ | comma
    · rw [← Option.mem_some.mp ht]
      exact hmarks.2
    · rw [← Option.mem_some.mp ht, htrailing comma rfl]
      exact hmarks.1
  · rw [← Option.mem_some.mp ht, (hmore p List.mem_cons_self).1]
    exact hmarks.1

theorem trailing_inj {trailing trailing' : Option Token} (h : ∀ t ∈ trailing, t = [','])
    (h' : ∀ t ∈ trailing', t = [',']) {r r' : List Token}
    (heq : trailing.toList ++ ['}'] :: r = trailing'.toList ++ ['}'] :: r') :
    trailing = trailing' ∧ r = r' := by
  rcases trailing with _ | comma <;> rcases trailing' with _ | comma'
  · exact ⟨rfl, (List.cons.inj heq).2⟩
  · obtain rfl := h' comma' rfl
    cases heq
  · obtain rfl := h comma rfl
    cases heq
  · obtain rfl := h comma rfl
    obtain rfl := h' comma' rfl
    exact ⟨rfl, (List.cons.inj (List.cons.inj heq).2).2⟩

/-- A last comma is told from one before a specifier by the brace behind it. -/
theorem trailing_append_ne {trailing : Option Token} {p : Token × Specifier Token}
    (hp : p.1 = [','] ∧ p.2.IsValid) (rest r : List Token) :
    trailing.toList ++ ['}'] :: r ≠ p.1 :: (p.2.tokens ++ rest) := by
  intro heq
  rcases trailing with _ | comma
  · rw [hp.1] at heq
    cases heq
  · exact hp.2.append_ne_cons (by decide) _ _ (List.cons.inj heq).2.symm

theorem further_inj {more more' : List (Token × Specifier Token)}
    {trailing trailing' : Option Token} (hmore : ∀ p ∈ more, p.1 = [','] ∧ p.2.IsValid)
    (htrailing : ∀ t ∈ trailing, t = [','])
    (hmore' : ∀ p ∈ more', p.1 = [','] ∧ p.2.IsValid) (htrailing' : ∀ t ∈ trailing', t = [','])
    {r r' : List Token}
    (h : further more trailing ++ ['}'] :: r = further more' trailing' ++ ['}'] :: r') :
    more = more' ∧ trailing = trailing' ∧ r = r' := by
  induction more generalizing more' with
  | nil =>
    rcases more' with _ | ⟨p', more'⟩
    · exact ⟨rfl, trailing_inj htrailing htrailing' h⟩
    · rw [further_cons, List.cons_append, List.append_assoc] at h
      exact absurd h (trailing_append_ne (hmore' p' List.mem_cons_self) _ _)
  | cons p more ih =>
    obtain ⟨⟨hcomma, hvalid⟩, hmore⟩ := List.forall_mem_cons.mp hmore
    rcases more' with _ | ⟨p', more'⟩
    · rw [further_cons, List.cons_append, List.append_assoc] at h
      exact absurd h.symm (trailing_append_ne ⟨hcomma, hvalid⟩ _ _)
    · obtain ⟨⟨hcomma', hvalid'⟩, hmore'⟩ := List.forall_mem_cons.mp hmore'
      rw [further_cons, further_cons, List.cons_append, List.append_assoc, List.cons_append,
        List.append_assoc] at h
      obtain ⟨hspecifier, hrest⟩ := hvalid.append_inj hvalid' (further_head hmore htrailing r)
        (further_head hmore' htrailing' r') (List.cons.inj h).2
      obtain ⟨rfl, hbehind⟩ := ih hmore hmore' hrest
      refine ⟨?_, hbehind⟩
      rw [Prod.ext (hcomma.trans hcomma'.symm) hspecifier]

theorem Members.IsValid.append_inj {m m' : Members Token} (h : m.IsValid) (h' : m'.IsValid)
    {r r' : List Token} (heq : m.tokens ++ ['}'] :: r = m'.tokens ++ ['}'] :: r') :
    m = m' ∧ r = r' := by
  obtain ⟨first, more, trailing⟩ := m
  obtain ⟨first', more', trailing'⟩ := m'
  obtain ⟨hfirst, hmore, htrailing⟩ := h
  obtain ⟨hfirst', hmore', htrailing'⟩ := h'
  rw [Members.tokens, Members.tokens, List.append_assoc, List.append_assoc] at heq
  obtain ⟨rfl, hrest⟩ := hfirst.append_inj hfirst' (further_head hmore htrailing r)
    (further_head hmore' htrailing' r') heq
  obtain ⟨rfl, rfl, rfl⟩ := further_inj hmore htrailing hmore' htrailing' hrest
  exact ⟨rfl, rfl⟩

theorem Group.IsValid.append_inj {g g' : Group Token} (h : g.IsValid) (h' : g'.IsValid)
    {r r' : List Token} (heq : g.tokens ++ r = g'.tokens ++ r') : g = g' ∧ r = r' := by
  have hclosing : ¬ IsPart ['}'] := by decide
  obtain ⟨opening, members, closing⟩ := g
  obtain ⟨opening', members', closing'⟩ := g'
  obtain ⟨rfl, hmembers, rfl⟩ := h
  obtain ⟨rfl, hmembers', rfl⟩ := h'
  simp only [Group.tokens, List.cons_append, List.append_assoc, List.nil_append] at heq
  have htail := (List.cons.inj heq).2
  rcases members with _ | m <;> rcases members' with _ | m'
  · exact ⟨rfl, (List.cons.inj htail).2⟩
  · rw [Option.elim_none, Option.elim_some, Members.tokens, List.append_assoc] at htail
    exact absurd htail.symm ((hmembers' m' rfl).1.append_ne_cons hclosing _ _)
  · rw [Option.elim_none, Option.elim_some, Members.tokens, List.append_assoc] at htail
    exact absurd htail ((hmembers m rfl).1.append_ne_cons hclosing _ _)
  · obtain ⟨rfl, rfl⟩ := (hmembers m rfl).append_inj (hmembers' m' rfl) htail
    exact ⟨rfl, rfl⟩

theorem Tail.IsValid.append_inj {t t' : Tail Token} (h : t.IsValid) (h' : t'.IsValid)
    {r r' : List Token} (heq : t.tokens ++ r = t'.tokens ++ r') : t = t' ∧ r = r' := by
  rcases t with g | ⟨star, word, name⟩ <;> rcases t' with g' | ⟨star', word', name'⟩
  · obtain ⟨rfl, rfl⟩ := Group.IsValid.append_inj h h' heq
    exact ⟨rfl, rfl⟩
  · have hhead := (List.cons.inj heq).1
    rw [h.1, h'.1] at hhead
    cases hhead
  · have hhead := (List.cons.inj heq).1
    rw [h.1, h'.1] at hhead
    cases hhead
  · simp only [Tail.tokens, List.cons_append, List.nil_append, List.cons.injEq] at heq
    obtain ⟨rfl, rfl, rfl, rfl⟩ := heq
    exact ⟨rfl, rfl⟩

/-- A tail starts with a brace or a star. -/
theorem Tail.IsValid.mem_of_append_eq {t : Tail Token} (h : t.IsValid) {mark : Token}
    {r r' : List Token} (heq : t.tokens ++ r = mark :: r') : mark ∈ [['{'], ['*']] := by
  rcases t with g | ⟨star, word, name⟩
  · rw [← (List.cons.inj heq).1, h.1]
    decide
  · rw [← (List.cons.inj heq).1, h.1]
    decide

theorem Tail.IsValid.append_ne_cons {t : Tail Token} (h : t.IsValid) {name : Token}
    (hname : IsIdentifier name) (r r' : List Token) : t.tokens ++ r ≠ name :: r' := by
  have hmarks : ∀ mark ∈ [['{'], ['*']], ¬ IsWord mark := by decide
  intro heq
  exact hmarks name (h.mem_of_append_eq heq) hname.1

/-- Two clauses before the keyword `from`. -/
theorem Clause.IsValid.append_inj {c c' : Clause Token} (h : c.IsValid) (h' : c'.IsValid)
    {r r' : List Token} (heq : c.tokens ++ "from".toList :: r = c'.tokens ++ "from".toList :: r') :
    c = c' ∧ r = r' := by
  have hfrom : "from".toList ≠ [','] := by decide
  rcases c with name | ⟨_ | ⟨name, comma⟩, t⟩ <;>
    rcases c' with name' | ⟨_ | ⟨name', comma'⟩, t'⟩ <;>
    simp only [Clause.tokens, Option.elim_none, Option.elim_some, List.cons_append, List.nil_append,
      List.cons.injEq] at heq
  · obtain ⟨rfl, -, rfl⟩ := heq
    exact ⟨rfl, rfl⟩
  · exact absurd heq.symm (h'.2.append_ne_cons h _ _)
  · exact absurd (heq.2.1.trans (h'.1 _ rfl).2) hfrom
  · exact absurd heq (h.2.append_ne_cons h' _ _)
  · obtain ⟨rfl, hrest⟩ := h.2.append_inj h'.2 heq
    exact ⟨rfl, (List.cons.inj hrest).2⟩
  · exact absurd heq (h.2.append_ne_cons (h'.1 _ rfl).1 _ _)
  · exact absurd (heq.2.1.symm.trans (h.1 _ rfl).2) hfrom
  · exact absurd heq.symm (h'.2.append_ne_cons (h.1 _ rfl).1 _ _)
  · obtain ⟨rfl, rfl, htail⟩ := heq
    obtain ⟨rfl, hrest⟩ := h.2.append_inj h'.2 htail
    exact ⟨rfl, (List.cons.inj hrest).2⟩

theorem Clause.IsValid.append_ne_cons {c : Clause Token} (h : c.IsValid) {source : Token}
    (hsource : IsSource source) (r r' : List Token) : c.tokens ++ r ≠ source :: r' := by
  have hmarks : ∀ mark ∈ [['{'], ['*']], mark.head?.any quotes.contains = false := by decide
  intro heq
  rcases c with name | ⟨_ | ⟨name, comma⟩, t⟩
  · rw [← (List.cons.inj heq).1] at hsource
    exact hsource.isClosed.not_isWord h.1
  · have hmark := hmarks source (h.2.mem_of_append_eq heq)
    obtain ⟨⟨quote, hquote, hliteral⟩, -⟩ := hsource
    rw [hliteral] at hmark
    simp [hquote] at hmark
  · rw [← (List.cons.inj heq).1] at hsource
    exact hsource.isClosed.not_isWord (h.1 _ rfl).1.1

/-- A statement is determined by its tokens. -/
theorem Statement.eq_of_tokens_eq {st st' : Statement Token} (h : st.IsImport) (h' : st'.IsImport)
    (heq : st.tokens = st'.tokens) : st = st' := by
  obtain ⟨keyword, clause, source, semicolon⟩ := st
  obtain ⟨keyword', clause', source', semicolon'⟩ := st'
  obtain ⟨rfl, hclause, hsource, -⟩ := h
  obtain ⟨rfl, hclause', hsource', -⟩ := h'
  rcases clause with _ | ⟨c, word⟩ <;> rcases clause' with _ | ⟨c', word'⟩ <;>
    simp only [Statement.tokens, Option.elim_none, Option.elim_some, List.cons_append,
      List.nil_append, List.append_assoc, List.cons.injEq, true_and] at heq
  · obtain ⟨rfl, hsemicolon⟩ := heq
    obtain rfl : semicolon = semicolon' := by simpa using congrArg List.head? hsemicolon
    rfl
  · exact absurd heq.symm ((hclause' _ rfl).1.append_ne_cons hsource _ _)
  · exact absurd heq ((hclause _ rfl).1.append_ne_cons hsource' _ _)
  · obtain ⟨hvalid, rfl⟩ := hclause _ rfl
    obtain ⟨hvalid', rfl⟩ := hclause' _ rfl
    obtain ⟨rfl, hrest⟩ := hvalid.append_inj hvalid' heq
    obtain ⟨rfl, hsemicolon⟩ := List.cons.inj hrest
    obtain rfl : semicolon = semicolon' := by simpa using congrArg List.head? hsemicolon
    rfl

end TagScope.Import
