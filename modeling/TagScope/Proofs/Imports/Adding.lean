import TagScope.Imports.Fix
import TagScope.Proofs.Imports.Grammar

/-!
# Adding specifiers to an import statement

`Statement.add` puts specifiers behind those that a statement has. A statement without a clause
gains one, a default binding gains braces, and braces gain members. A namespace leaves no room for
specifiers; a statement of its own imports the names (`Statement.ofNames`). What adding names is to
achieve is said by `Statement.Extends`, and both ways achieve it (`Statement.IsImport.extends_add`,
`Statement.IsImport.extends_ofNames`).

The new tokens are then given as they are put into a text, each with the gap before it. The lexer
finds them whatever follows (`lexed_freshGroup`, `lexed_freshStatement`) or if what follows ends a
word (`lexed_freshFurther`, `lexed_freshNames`), and their texts are those of the insertions.
-/

set_option autoImplicit false

namespace TagScope.Import

open Lexer Lexeme

/-! ### Statements with more specifiers -/

section Adding

variable (names : List Token)

/-- A specifier that is a name alone. -/
def Specifier.plain (name : Token) : Specifier Token :=
  ⟨none, none, name⟩

/-- Names that follow a specifier, each with a comma. -/
def furtherNames : List (Token × Specifier Token) :=
  names.map fun name ↦ ([','], .plain name)

def Members.ofNames? : List Token → Option (Members Token)
  | [] => none
  | name :: more => some ⟨.plain name, furtherNames more, none⟩

def Group.ofNames : Group Token :=
  ⟨['{'], Members.ofNames? names, ['}']⟩

/-- The specifiers come behind those there are, before a trailing comma. -/
def Members.add (m : Members Token) : Members Token :=
  { m with more := m.more ++ furtherNames names }

def Group.add (g : Group Token) : Group Token :=
  match g.members with
  | none => { g with members := Members.ofNames? names }
  | some m => { g with members := some (m.add names) }

/-- A namespace takes no specifiers. -/
def Clause.add : Clause Token → Clause Token
  | .default name => .rest (some (name, [','])) (.group (.ofNames names))
  | .rest front (.group g) => .rest front (.group (g.add names))
  | .rest front (.all star word name) => .rest front (.all star word name)

def Statement.add (st : Statement Token) : Statement Token :=
  match st.clause with
  | none => { st with clause := some (.rest none (.group (.ofNames names)), "from".toList) }
  | some (c, word) => { st with clause := some (c.add names, word) }

/-- A statement that imports just these names. -/
def Statement.ofNames (source : Token) : Statement Token :=
  ⟨"import".toList, some (.rest none (.group (.ofNames names)), "from".toList), source, some [';']⟩

theorem Members.tokens_add (m : Members Token) :
    (m.add names).tokens = m.body ++ further (furtherNames names) m.trailing := by
  simp [Members.tokens, Members.add, further, Members.body]

end Adding

/-! ### They are grammatical -/

section Validity

variable {names : List Token}

theorem Specifier.isValid_plain {name : Token} (h : IsIdentifier name) :
    (Specifier.plain name).IsValid := by
  refine ⟨?_, ?_, h⟩
  · rintro t ⟨⟩
  · rintro p ⟨⟩

theorem isValid_furtherNames (hnames : ∀ name ∈ names, IsIdentifier name) :
    ∀ p ∈ furtherNames names, p.1 = [','] ∧ p.2.IsValid := by
  intro p hp
  obtain ⟨name, hname, rfl⟩ := List.mem_map.mp hp
  exact ⟨rfl, Specifier.isValid_plain (hnames name hname)⟩

theorem Members.isValid_ofNames (hnames : ∀ name ∈ names, IsIdentifier name) :
    ∀ m ∈ Members.ofNames? names, m.IsValid := by
  rcases names with _ | ⟨name, more⟩
  · rintro m ⟨⟩
  · rintro m ⟨⟩
    obtain ⟨hname, hmore⟩ := List.forall_mem_cons.mp hnames
    refine ⟨Specifier.isValid_plain hname, isValid_furtherNames hmore, ?_⟩
    rintro t ⟨⟩

theorem Group.isValid_ofNames (hnames : ∀ name ∈ names, IsIdentifier name) :
    (Group.ofNames names).IsValid :=
  ⟨rfl, Members.isValid_ofNames hnames, rfl⟩

theorem Group.IsValid.add {g : Group Token} (h : g.IsValid)
    (hnames : ∀ name ∈ names, IsIdentifier name) : (g.add names).IsValid := by
  obtain ⟨opening, members, closing⟩ := g
  obtain ⟨hopening, hmembers, hclosing⟩ := h
  rcases members with _ | m
  · exact ⟨hopening, Members.isValid_ofNames hnames, hclosing⟩
  · refine ⟨hopening, ?_, hclosing⟩
    rintro m' ⟨⟩
    obtain ⟨hfirst, hmore, htrailing⟩ := hmembers m rfl
    exact ⟨hfirst, List.forall_mem_append.mpr ⟨hmore, isValid_furtherNames hnames⟩, htrailing⟩

theorem Clause.IsValid.add {c : Clause Token} (h : c.IsValid)
    (hnames : ∀ name ∈ names, IsIdentifier name) : (c.add names).IsValid := by
  rcases c with name | ⟨front, g | ⟨star, word, name⟩⟩
  · refine ⟨?_, Group.isValid_ofNames hnames⟩
    rintro p ⟨⟩
    exact ⟨h, rfl⟩
  · exact ⟨h.1, Group.IsValid.add h.2 hnames⟩
  · exact h

theorem Statement.IsImport.add {st : Statement Token} (h : st.IsImport)
    (hnames : ∀ name ∈ names, IsIdentifier name) : (st.add names).IsImport := by
  obtain ⟨keyword, clause, source, semicolon⟩ := st
  obtain ⟨hkeyword, hclause, hsource, hsemicolon⟩ := h
  rcases clause with _ | ⟨c, word⟩
  · refine ⟨hkeyword, ?_, hsource, hsemicolon⟩
    rintro p ⟨⟩
    refine ⟨⟨?_, Group.isValid_ofNames hnames⟩, rfl⟩
    rintro p ⟨⟩
  · refine ⟨hkeyword, ?_, hsource, hsemicolon⟩
    rintro p ⟨⟩
    obtain ⟨hvalid, hword⟩ := hclause _ rfl
    exact ⟨hvalid.add hnames, hword⟩

/-- The literal in which a new statement names a module. -/
def quoted (text : List Char) : Token :=
  '"' :: text ++ ['"']

theorem isSource_quoted {source : Token} (h : IsSource source) :
    IsSource (quoted (moduleOf source)) := by
  have hmodule : moduleOf (quoted (moduleOf source)) = moduleOf source := moduleOf_quoted _ _
  refine ⟨⟨'"', by decide, ?_⟩, ?_⟩
  · rw [hmodule]
    rfl
  · rw [hmodule]
    exact h.2

theorem Statement.isImport_ofNames {source : Token} (hsource : IsSource source)
    (hnames : ∀ name ∈ names, IsIdentifier name) : (Statement.ofNames names source).IsImport := by
  refine ⟨rfl, ?_, hsource, ?_⟩
  · rintro p ⟨⟩
    refine ⟨⟨?_, Group.isValid_ofNames hnames⟩, rfl⟩
    rintro p ⟨⟩
  · rintro t ⟨⟩
    rfl

/-! ### What they bind -/

theorem Group.specifiers_ofNames : (Group.ofNames names).specifiers = names.map .plain := by
  cases names <;>
    simp [Group.ofNames, Group.specifiers, Members.ofNames?, Members.specifiers, furtherNames]

theorem Group.specifiers_add (g : Group Token) :
    (g.add names).specifiers = g.specifiers ++ names.map .plain := by
  obtain ⟨opening, members, closing⟩ := g
  rcases members with _ | m
  · exact Group.specifiers_ofNames
  · simp [Group.add, Members.add, Group.specifiers, Members.specifiers, furtherNames]

theorem Clause.specifiers_add {c : Clause Token} (hc : c.namespace? = none) :
    (c.add names).specifiers = c.specifiers ++ names.map .plain := by
  rcases c with name | ⟨front, g | ⟨star, word, name⟩⟩
  · exact Group.specifiers_ofNames
  · exact Group.specifiers_add g
  · cases hc

theorem Statement.specifiers_add {st : Statement Token} (hst : st.namespace? = none) :
    (st.add names).specifiers = st.specifiers ++ names.map .plain := by
  obtain ⟨keyword, clause, source, semicolon⟩ := st
  rcases clause with _ | ⟨c, word⟩
  · exact Group.specifiers_ofNames
  · exact Clause.specifiers_add hst

theorem Statement.default?_add (st : Statement Token) : (st.add names).default? = st.default? := by
  obtain ⟨keyword, clause, source, semicolon⟩ := st
  rcases clause with _ | ⟨_ | ⟨front, g | ⟨star, word, name⟩⟩, word⟩ <;> rfl

theorem Statement.namespace?_add (st : Statement Token) :
    (st.add names).namespace? = st.namespace? := by
  obtain ⟨keyword, clause, source, semicolon⟩ := st
  rcases clause with _ | ⟨_ | ⟨front, g | ⟨star, word, name⟩⟩, word⟩ <;> rfl

theorem Statement.source_add (st : Statement Token) : (st.add names).source = st.source := by
  obtain ⟨keyword, clause, source, semicolon⟩ := st
  rcases clause with _ | ⟨c, word⟩ <;> rfl

end Validity

/-! ### The outcome -/

/-- The tokens are those of this import statement, and of no other. -/
def Statement.Spells (st : Statement Token) (tokens : List Token) : Prop :=
  ∀ other : Statement Token, other.IsImport ∧ other.tokens = tokens ↔ other = st

/-- The tokens are what an import statement is to become when names are added to it. Without a
namespace, they are those of one import statement of the same module with the same default binding,
and its specifiers are the old ones followed by the names. With a namespace, they are those of a
statement that imports just the names from the same module, followed by the old ones. -/
def Statement.Extends (old : Statement Token) (names : List Token) (tokens : List Token) : Prop :=
  match old.namespace? with
  | none => ∃ new : Statement Token, new.Spells tokens ∧
      moduleOf new.source = moduleOf old.source ∧ new.default? = old.default? ∧
        new.namespace? = none ∧ new.specifiers = old.specifiers ++ names.map .plain
  | some _ => ∃ fresh : Statement Token, fresh.IsImport ∧ tokens = fresh.tokens ++ old.tokens ∧
      moduleOf fresh.source = moduleOf old.source ∧ fresh.default? = none ∧
        fresh.namespace? = none ∧ fresh.specifiers = names.map .plain

theorem Statement.IsImport.spells {st : Statement Token} (h : st.IsImport) :
    st.Spells st.tokens := by
  intro other
  constructor
  · rintro ⟨hother, htokens⟩
    exact Statement.eq_of_tokens_eq hother h htokens
  · rintro rfl
    exact ⟨h, rfl⟩

theorem Statement.IsImport.extends_add {old : Statement Token} (h : old.IsImport)
    (hold : old.namespace? = none) {names : List Token}
    (hnames : ∀ name ∈ names, IsIdentifier name) : old.Extends names (old.add names).tokens := by
  rw [Statement.Extends, hold]
  refine ⟨old.add names, (h.add hnames).spells, ?_, old.default?_add, ?_, specifiers_add hold⟩
  · rw [source_add]
  · rw [namespace?_add, hold]

theorem Statement.IsImport.extends_ofNames {old : Statement Token} (h : old.IsImport)
    (hold : old.namespace? ≠ none) {names : List Token}
    (hnames : ∀ name ∈ names, IsIdentifier name) :
    old.Extends names
      ((Statement.ofNames names (quoted (moduleOf old.source))).tokens ++ old.tokens) := by
  obtain ⟨name, hname⟩ := Option.ne_none_iff_exists'.mp hold
  rw [Statement.Extends, hname]
  exact ⟨_, isImport_ofNames (isSource_quoted h.source) hnames, rfl, moduleOf_quoted _ _, rfl, rfl,
    Group.specifiers_ofNames⟩

/-! ### The tokens that are put in -/

section Fresh

/-- A token to be put in. -/
def fresh (gap : List Char) (text : Token) : Lexeme :=
  ⟨gap, text, 0, 0⟩

variable (gap : List Char) (names : List Token)

/-- Names behind another, each with a comma before it. -/
def freshFurther : List Lexeme :=
  names.flatMap fun name ↦ [fresh [] [','], fresh [' '] name]

/-- Names with commas between them. -/
def freshNames : List Token → List Lexeme
  | [] => []
  | name :: more => fresh gap name :: freshFurther more

def freshGroup : List Lexeme :=
  fresh gap ['{'] :: freshNames [' '] names ++ [fresh [' '] ['}']]

def freshStatement (source : Token) : List Lexeme :=
  fresh [] "import".toList :: freshGroup [' '] names ++
    [fresh [' '] "from".toList, fresh [' '] source, fresh [] [';']]

theorem further_furtherNames (trailing : Option Token) :
    further (furtherNames names) trailing =
      (freshFurther names).map text ++ trailing.toList := by
  simp [freshFurther, further, furtherNames, fresh, Specifier.tokens, Specifier.plain,
    List.map_flatMap, List.flatMap_map]

theorem map_text_freshNames :
    (freshNames gap names).map text = (Members.ofNames? names).elim [] Members.tokens := by
  cases names with
  | nil => rfl
  | cons name more =>
    simp [freshNames, Members.ofNames?, Members.tokens, further_furtherNames, fresh,
      Specifier.plain, Specifier.tokens]

theorem map_text_freshGroup :
    (freshGroup gap names).map text = (Group.ofNames names).tokens := by
  simp [freshGroup, Group.ofNames, Group.tokens, map_text_freshNames, fresh]

theorem map_text_freshStatement (source : Token) :
    (freshStatement names source).map text = (Statement.ofNames names source).tokens := by
  simp [freshStatement, Statement.ofNames, Statement.tokens, Clause.tokens, Tail.tokens,
    map_text_freshGroup, fresh]

end Fresh

section Lexed

variable {gap follow : List Char} {names : List Token}

theorem isGap_blank : IsGap [' '] := by
  decide

theorem breaks_render_freshFurther (hfollow : Breaks follow) :
    Breaks (render (freshFurther names) ++ follow) := by
  cases names with
  | nil => exact hfollow
  | cons name more => rfl

theorem lexed_freshFurther (hnames : ∀ name ∈ names, IsWord name) (hfollow : Breaks follow) :
    Lexed (freshFurther names) follow := by
  induction names with
  | nil => trivial
  | cons name more ih =>
    obtain ⟨hname, hmore⟩ := List.forall_mem_cons.mp hnames
    exact ⟨rfl, Or.inl rfl, isGap_blank,
      Or.inr ⟨hname, breaks_render_freshFurther hfollow⟩, ih hmore⟩

theorem lexed_freshNames (hgap : IsGap gap) (hnames : ∀ name ∈ names, IsWord name)
    (hfollow : Breaks follow) : Lexed (freshNames gap names) follow := by
  cases names with
  | nil => trivial
  | cons name more =>
    obtain ⟨hname, hmore⟩ := List.forall_mem_cons.mp hnames
    exact ⟨hgap, Or.inr ⟨hname, breaks_render_freshFurther hfollow⟩,
      lexed_freshFurther hmore hfollow⟩

theorem lexed_freshGroup (hgap : IsGap gap) (hnames : ∀ name ∈ names, IsWord name) :
    Lexed (freshGroup gap names) follow := by
  refine ⟨hgap, Or.inl rfl, lexed_append.mpr ⟨?_, isGap_blank, Or.inl rfl, trivial⟩⟩
  exact lexed_freshNames isGap_blank hnames rfl

theorem lexed_freshStatement {source : Token} (hsource : IsClosed source)
    (hnames : ∀ name ∈ names, IsWord name) : Lexed (freshStatement names source) follow := by
  refine ⟨rfl, Or.inr ⟨by decide, rfl⟩, lexed_append.mpr ⟨lexed_freshGroup isGap_blank hnames, ?_⟩⟩
  exact ⟨isGap_blank, Or.inr ⟨by decide, rfl⟩, isGap_blank, Or.inl hsource, rfl, Or.inl rfl,
    trivial⟩

end Lexed

/-! ### Their texts -/

section Texts

variable {names : List String} (hnames : names ≠ [])

theorem toList_joinNames_cons (name : String) (more : List String) :
    (joinNames (name :: more)).toList =
      name.toList ++ render (freshFurther (more.map String.toList)) := by
  rw [joinNames, String.toList_intercalate]
  induction more generalizing name with
  | nil => simp [freshFurther]
  | cons next more ih =>
    rw [List.map_cons, List.map_cons, List.intercalate_cons_cons, ← List.map_cons, ih]
    simp [freshFurther, fresh]

include hnames

theorem render_freshNames (gap : List Char) :
    render (freshNames gap (names.map String.toList)) = gap ++ (joinNames names).toList := by
  obtain ⟨name, more, rfl⟩ := List.exists_cons_of_ne_nil hnames
  rw [toList_joinNames_cons, List.map_cons, freshNames, render_cons, List.append_assoc]
  rfl

theorem render_freshFurther :
    render (freshFurther (names.map String.toList)) = (", " ++ joinNames names).toList := by
  obtain ⟨name, more, rfl⟩ := List.exists_cons_of_ne_nil hnames
  rw [String.toList_append, toList_joinNames_cons]
  simp [freshFurther, fresh]

theorem render_freshGroup (gap : List Char) :
    render (freshGroup gap (names.map String.toList)) = gap ++ (bracedNames names).toList := by
  simp [freshGroup, bracedNames, render_freshNames hnames, fresh]

theorem render_freshStatement (source : String) :
    render (freshStatement (names.map String.toList) (quoted source.toList)) =
      (importStatement source names).toList := by
  simp [freshStatement, importStatement, render_freshGroup hnames, fresh, quoted]

end Texts

end TagScope.Import
