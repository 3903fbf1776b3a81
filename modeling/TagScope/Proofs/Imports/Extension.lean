import TagScope.Proofs.Imports.Adding
import TagScope.Proofs.Imports.Trees

/-!
# Extending an import statement in a document

A statement stands in a document (`Statement.Written`) when its tokens are the text between two
others and a node of the tree has the nodes of the statement, comments apart. The names found in
such a tree are those that the value specifiers bind (`Statement.Written.valueNames_eq`).

An insertion cuts the tokens in two and puts new ones between them. For every form of the statement
the text then has the tokens of the statement with more specifiers (`grows_of_none`,
`grows_of_default`, `grows_of_braces`, `grows_of_members`), or those of a statement above it
(`grows_of_all`). Together with the names already bound this is what the extension of an import
statement promises (`addNames_extends`).
-/

set_option autoImplicit false

namespace TagScope.Import

open Lexer Lexeme

/-! ### A statement in a document -/

/-- The statement stands in a document, between two texts, and the node is its tree. -/
structure Statement.Written (st : Statement Lexeme) (doc : Document) (n : Node)
    (before after : List Char) : Prop where
  content : doc.content = Utf8.encode (before ++ render st.tokens ++ after)
  lexed : Lexed st.tokens []
  placed : Placed before st.tokens
  gap : st.keyword.gap = []
  isImport : (st.map Lexeme.text).IsImport
  kind : n.kind = "import_statement"
  start : n.start = st.keyword.start
  nodes : n.bare.children = st.nodes

variable {st : Statement Lexeme} {doc : Document} {n : Node} {before after : List Char}

/-! ### The texts of its tokens -/

namespace Statement.Written

theorem kind_ne_string (h : st.Written doc n before after) : n.kind ≠ "string" := by
  rw [h.kind]
  decide

theorem bytesOf_eq (h : st.Written doc n before after) {l : Lexeme} (hl : l ∈ st.tokens) {c : Node}
    (hstart : c.start = l.start) (hstop : c.stop = l.stop) :
    doc.bytesOf c = Utf8.encode l.text := by
  obtain ⟨a, b, hsplit⟩ := List.append_of_mem hl
  have hplaced := h.placed
  rw [hsplit] at hplaced
  have hcontent : doc.content = Utf8.encode
      (before ++ render a ++ l.gap ++ l.text ++ (render b ++ after)) := by
    rw [h.content, hsplit]
    simp
  exact Document.bytesOf_of_span hcontent (hstart.trans hplaced.start_eq)
    (hstop.trans hplaced.stop_eq)

theorem nameOf_eq (h : st.Written doc n before after) {l : Lexeme} (hl : l ∈ st.tokens) {c : Node}
    (hstart : c.start = l.start) (hstop : c.stop = l.stop) :
    doc.nameOf c = String.ofList l.text := by
  rw [Document.nameOf, h.bytesOf_eq hl hstart hstop, Utf8.decodeDropping_encode]

/-! ### The names it binds -/

theorem isValid_of_mem (h : st.Written doc n before after) {s : Specifier Lexeme}
    (hs : s ∈ st.specifiers) : (s.map Lexeme.text).IsValid := by
  refine h.isImport.isValid_of_mem ?_
  rw [specifiers_map]
  exact List.mem_map_of_mem hs

theorem isForTypes_node (h : st.Written doc n before after) {s : Specifier Lexeme}
    (hs : s ∈ st.specifiers) : doc.isForTypes s.node = s.typeWord.isSome := by
  have hkind : ∀ name : Token, nameKind name ≠ "type" := by
    intro name
    unfold nameKind
    split <;> decide
  have htype : ∀ l ∈ s.typeWord, doc.bytesOf (l.mark "type") = Utf8.encode "type".toList := by
    intro l hl
    have hmem : l ∈ s.tokens := by simp [Specifier.tokens, Option.mem_def.mp hl]
    rw [h.bytesOf_eq (Statement.tokens_subset hs hmem) rfl rfl,
      (h.isValid_of_mem hs).1 l.text (by simp [Specifier.map, Option.mem_def.mp hl])]
  obtain ⟨typeWord, imported, binding⟩ := s
  cases typeWord <;> cases imported <;>
    simp_all [Document.isForTypes, Specifier.node, Specifier.nodes]

theorem binding_node (h : st.Written doc n before after) {s : Specifier Lexeme}
    (hs : s ∈ st.specifiers) :
    ((s.node.child? "alias").or (s.node.child? "name")).map doc.nameOf =
      some (String.ofList s.binding.text) := by
  have hmem : s.binding ∈ st.tokens := Statement.tokens_subset hs (by simp [Specifier.tokens])
  have hname : ∀ field, doc.nameOf (s.binding.leaf "identifier" field) =
      String.ofList s.binding.text := fun field ↦ h.nameOf_eq hmem rfl rfl
  obtain ⟨typeWord, imported, binding⟩ := s
  cases typeWord <;> cases imported <;>
    simp_all [Node.child?, Specifier.node, Specifier.nodes]

theorem namesIn_node (h : st.Written doc n before after) {g : Group Lexeme}
    (hg : g.specifiers ⊆ st.specifiers) :
    doc.namesIn g.node = (g.specifiers.filter fun s ↦ s.typeWord.isNone).map fun s ↦
      String.ofList s.binding.text := by
  have hfilter : g.specifiers.filter ((fun c ↦ !doc.isForTypes c) ∘ Specifier.node) =
      g.specifiers.filter fun s ↦ s.typeWord.isNone := by
    refine List.filter_congr fun s hs ↦ ?_
    rw [Function.comp_apply, h.isForTypes_node (hg hs), Option.not_isSome]
  rw [Document.namesIn, g.childrenOfKind_specifier, List.filter_map, List.filterMap_map, hfilter,
    ← List.filterMap_eq_map]
  exact List.filterMap_congr fun s hs ↦ h.binding_node (hg (List.mem_of_mem_filter hs))

/-- The names found in the tree of a statement are those that its value specifiers bind. -/
theorem valueNames_eq (h : st.Written doc n before after) :
    doc.valueNames n = (st.map Lexeme.text).valueBindings.map String.ofList := by
  have hbindings : (st.map Lexeme.text).valueBindings.map String.ofList =
      (st.specifiers.filter fun s ↦ s.typeWord.isNone).map fun s ↦
        String.ofList s.binding.text := by
    rw [valueBindings, specifiers_map, List.filter_map, List.map_map, List.map_map]
    simp [Function.comp_def, Specifier.map]
  rw [hbindings, ← Document.valueNames_bare h.kind_ne_string, Document.valueNames,
    childOfKind?_clause h.nodes]
  cases hclause : st.clause with
  | none => simp [specifiers, hclause]
  | some p =>
    change (p.1.node.childrenOfKind "named_imports").flatMap doc.namesIn = _
    rw [p.1.childrenOfKind_group]
    cases hgroup : p.1.group? with
    | none => simp [specifiers, hclause, Clause.specifiers, hgroup]
    | some g =>
      have hspecifiers : st.specifiers = g.specifiers := by
        simp [specifiers, hclause, Clause.specifiers, hgroup]
      rw [Option.map_some, Option.toList_some, List.flatMap_singleton,
        h.namesIn_node (hspecifiers ▸ List.Subset.refl _), hspecifiers]

end Statement.Written

/-! ### Insertions -/

/-- With the insertion, the text of the statement has these tokens, and the texts around it are
unchanged. -/
def Statement.Becomes (st : Statement Lexeme) (doc : Document) (before after : List Char)
    (insertion : Insertion) (tokens : List Token) : Prop :=
  ∃ text, (doc.editOf insertion).apply (before ++ render st.tokens ++ after) =
    before ++ text ++ after ∧ lex text = tokens

/-- Extending the statement by the names gives these tokens. -/
def Statement.GrowsTo (st : Statement Lexeme) (doc : Document) (n : Node) (before after : List Char)
    (names : List String) (tokens : List Token) : Prop :=
  ∃ insertion, doc.extended n.bare names = .ok insertion ∧
    st.Becomes doc before after insertion tokens

namespace Statement.Written

variable {a b : List Lexeme} {l : Lexeme} {text : String}

/-- Tokens put in between those of a statement. -/
theorem becomes_of_split (h : st.Written doc n before after) (hsplit : st.tokens = a ++ b)
    (inner : List Lexeme) (pad : List Char) (hinner : Lexed inner (pad ++ render b))
    (hpad : IsGap pad) (hbreaks : a = [] ∨ Breaks (render inner ++ pad ++ render b))
    (htext : text.toList = render inner ++ pad) {tokens : List Token}
    (htokens : tokens = a.map Lexeme.text ++ inner.map Lexeme.text ++ b.map Lexeme.text) :
    st.Becomes doc before after ⟨(Utf8.encode (before ++ render a)).length, text⟩ tokens := by
  refine ⟨render a ++ (render inner ++ pad) ++ render b, ?_, ?_⟩
  · have hsource : before ++ render st.tokens ++ after =
        (before ++ render a) ++ (render b ++ after) := by
      rw [hsplit]
      simp
    rw [Document.editOf, Document.charsBefore, h.content, hsource, Bytes.charsBefore_encode,
      Edit.apply_insertion, htext]
    simp
  · rw [htokens]
    exact lex_insert (hsplit ▸ h.lexed) hinner hpad hbreaks

/-- Tokens put in behind one of a statement. -/
theorem becomes_after (h : st.Written doc n before after) (hsplit : st.tokens = a ++ l :: b)
    (inner : List Lexeme) (pad : List Char) (hinner : Lexed inner (pad ++ render b))
    (hpad : IsGap pad) (hbreaks : Breaks (render inner ++ pad ++ render b))
    (htext : text.toList = render inner ++ pad) {tokens : List Token}
    (htokens : tokens =
      (a ++ [l]).map Lexeme.text ++ inner.map Lexeme.text ++ b.map Lexeme.text) :
    st.Becomes doc before after ⟨l.stop, text⟩ tokens := by
  have hstop : l.stop = (Utf8.encode (before ++ render (a ++ [l]))).length := by
    rw [Placed.stop_eq (hsplit ▸ h.placed)]
    simp
  rw [List.append_cons] at hsplit
  rw [hstop]
  exact h.becomes_of_split hsplit inner pad hinner hpad (Or.inr hbreaks) htext htokens

/-- What follows a word of the statement does not continue it. -/
theorem breaks_after (h : st.Written doc n before after) (hsplit : st.tokens = a ++ l :: b)
    (hword : IsWord l.text) : Breaks (render b) := by
  have hlexed := h.lexed
  rw [hsplit, List.append_cons, lexed_append, List.append_nil] at hlexed
  exact hlexed.1.breaks_of_isWord hword

/-! ### The forms of a statement -/

section Forms

variable {names : List String} {front : Option (Lexeme × Lexeme)} {opening closing word : Lexeme}

variable (h : st.Written doc n before after) (hne : names ≠ [])
  (hnames : ∀ name ∈ names.map String.toList, IsWord name)

include h hne hnames

/-- A statement without a clause gains one. -/
theorem grows_of_none (hclause : st.clause = none) :
    st.GrowsTo doc n before after names
      ((st.map Lexeme.text).add (names.map String.toList)).tokens := by
  have hsplit : st.tokens = [] ++ st.keyword :: (st.source :: st.semicolon.toList) := by
    simp [tokens, hclause]
  have hkeyword : IsWord st.keyword.text := by
    rw [show st.keyword.text = _ from h.isImport.keyword]
    decide
  refine ⟨⟨st.keyword.stop, " " ++ bracedNames names ++ " from"⟩, ?_,
    h.becomes_after hsplit
      (freshGroup [' '] (names.map String.toList) ++ [fresh [' '] "from".toList]) []
      ?_ rfl ?_ ?_ ?_⟩
  · simp [Document.extended, childOfKind?_clause h.nodes, hclause, afterFirstChild_eq h.nodes]
  · refine lexed_append.mpr ⟨lexed_freshGroup isGap_blank hnames, isGap_blank, ?_⟩
    exact ⟨Or.inr ⟨by decide, h.breaks_after hsplit hkeyword⟩, trivial⟩
  · rfl
  · simp [render_freshGroup hne, fresh]
  · simp [Statement.add, Statement.map, hclause, tokens, Clause.tokens, Tail.tokens,
      map_text_freshGroup, fresh, Option.toList_map]

/-- A default binding gains braces behind it. -/
theorem grows_of_default {name : Lexeme} (hclause : st.clause = some (.default name, word)) :
    st.GrowsTo doc n before after names
      ((st.map Lexeme.text).add (names.map String.toList)).tokens := by
  have hsplit : st.tokens =
      [st.keyword] ++ name :: (word :: st.source :: st.semicolon.toList) := by
    simp [tokens, hclause, Clause.tokens]
  refine ⟨⟨name.stop, ", " ++ bracedNames names⟩, ?_,
    h.becomes_after hsplit (fresh [] [','] :: freshGroup [' '] (names.map String.toList)) []
      ?_ rfl ?_ ?_ ?_⟩
  · have hnamespace := (Clause.default name).isSome_childOfKind?_namespace
    simp only [Clause.namespace?, Option.isSome_none, Option.isSome_eq_false_iff,
      Option.isNone_iff_eq_none] at hnamespace
    simp [Document.extended, childOfKind?_clause h.nodes, hclause, Clause.childOfKind?_group,
      Clause.group?, Clause.childOfKind?_identifier, Clause.default?, hnamespace]
  · exact ⟨rfl, Or.inl rfl, lexed_freshGroup isGap_blank hnames⟩
  · rfl
  · simp [render_freshGroup hne, fresh]
  · simp [Statement.add, Statement.map, hclause, tokens, Clause.map, Clause.add, Clause.tokens,
      Tail.tokens, map_text_freshGroup, fresh, Option.toList_map]

/-- Empty braces are filled. -/
theorem grows_of_braces
    (hclause : st.clause = some (.rest front (.group ⟨opening, none, closing⟩), word)) :
    st.GrowsTo doc n before after names
      ((st.map Lexeme.text).add (names.map String.toList)).tokens := by
  have hsplit : st.tokens = st.keyword :: (front.elim [] fun p ↦ [p.1, p.2]) ++ opening ::
      (closing :: word :: st.source :: st.semicolon.toList) := by
    simp [tokens, hclause, Clause.tokens, Tail.tokens, Group.tokens]
  refine ⟨⟨opening.stop, " " ++ joinNames names ++ " "⟩, ?_,
    h.becomes_after hsplit (freshNames [' '] (names.map String.toList)) [' '] ?_ isGap_blank ?_
      ?_ ?_⟩
  · simp [Document.extended, childOfKind?_clause h.nodes, hclause, Clause.childOfKind?_group,
      Clause.group?, Group.childrenOfKind_specifier, Group.specifiers, Group.afterFirstChild_node]
  · exact lexed_freshNames isGap_blank hnames rfl
  · rw [render_freshNames hne]
    rfl
  · simp [render_freshNames hne]
  · cases front <;>
      simp [Statement.add, Statement.map, hclause, tokens, Clause.map, Tail.map, Group.map,
        Clause.add, Group.add, Clause.tokens, Tail.tokens, Group.tokens, map_text_freshNames,
        Option.toList_map]

/-- Specifiers are followed by more. -/
theorem grows_of_members {m : Members Lexeme}
    (hclause : st.clause = some (.rest front (.group ⟨opening, some m, closing⟩), word)) :
    st.GrowsTo doc n before after names
      ((st.map Lexeme.text).add (names.map String.toList)).tokens := by
  obtain ⟨last, init, hlast, hinit⟩ := m.exists_body_eq
  have hsplit : st.tokens = (st.keyword :: (front.elim [] fun p ↦ [p.1, p.2]) ++ opening :: init) ++
      last.binding ::
        (m.trailing.toList ++ closing :: word :: st.source :: st.semicolon.toList) := by
    have hm : m.tokens = init ++ last.binding :: m.trailing.toList := by
      rw [m.tokens_eq_body, hinit, List.append_assoc]
      rfl
    simp [tokens, hclause, Clause.tokens, Tail.tokens, Group.tokens, hm]
  have hbinding : IsWord last.binding.text := by
    have hspecifiers : st.specifiers = m.specifiers := by
      simp [specifiers, hclause, Clause.specifiers, Clause.group?, Group.specifiers]
    exact (h.isValid_of_mem (hspecifiers ▸ List.mem_of_getLast? hlast)).2.2.1
  -- What ends the last name of the old specifiers also ends the last of the new ones.
  have hbreaks := h.breaks_after hsplit hbinding
  refine ⟨⟨last.binding.stop, ", " ++ joinNames names⟩, ?_,
    h.becomes_after hsplit (freshFurther (names.map String.toList)) [] ?_ rfl ?_ ?_ ?_⟩
  · simp [Document.extended, childOfKind?_clause h.nodes, hclause, Clause.childOfKind?_group,
      Clause.group?, Group.childrenOfKind_specifier, Group.specifiers, hlast]
  · exact lexed_freshFurther hnames hbreaks
  · rw [List.append_nil]
    exact breaks_render_freshFurther hbreaks
  · rw [List.append_nil, render_freshFurther hne]
  · have htokens : ((m.map Lexeme.text).add (names.map String.toList)).tokens =
        init.map Lexeme.text ++ last.binding.text ::
          ((freshFurther (names.map String.toList)).map Lexeme.text ++
            m.trailing.toList.map Lexeme.text) := by
      rw [Members.tokens_add, Members.body_map, hinit, further_furtherNames, ← Option.toList_map]
      simp [Members.map]
    cases front <;>
      simp [Statement.add, Statement.map, hclause, tokens, Clause.map, Tail.map, Group.map,
        Clause.add, Group.add, Clause.tokens, Tail.tokens, Group.tokens, htokens,
        Option.toList_map]

end Forms

/-! ### Namespaces -/

theorem between_quoted (quote : Char) (text : List Char) :
    Slice.between (quote :: text ++ [quote]) 1 (-1) = text := by
  have hlength : (quote :: text ++ [quote]).length = text.length + 2 := by simp
  have hstop : Slice.clamp (quote :: text ++ [quote]).length (-1) = text.length + 1 := by
    rw [Slice.clamp, if_pos (by decide), hlength]
    omega
  have hstart : Slice.clamp (quote :: text ++ [quote]).length 1 = 1 := by
    rw [Slice.clamp, if_neg (by decide), hlength]
    omega
  rw [Slice.between, hstop, hstart]
  simp

theorem moduleOf?_eq (h : st.Written doc n before after) :
    doc.moduleOf? n.bare = some (String.ofList (moduleOf st.source.text)) := by
  have hmem : st.source ∈ st.tokens := by simp [tokens]
  have hname : doc.nameOf (st.source.leaf "string" (some "source")) =
      String.ofList st.source.text := h.nameOf_eq hmem rfl rfl
  obtain ⟨quote, -, text, hliteral, hmodule⟩ := IsSource.exists_eq h.isImport.source
  have hbetween : Slice.between st.source.text 1 (-1) = moduleOf st.source.text := by
    change st.source.text = _ at hliteral
    change moduleOf st.source.text = _ at hmodule
    rw [hmodule, hliteral, between_quoted]
  rw [Document.moduleOf?, child?_source h.nodes]
  simp [hname, hbetween]

/-- A namespace gets a statement above it. -/
theorem grows_of_all (h : st.Written doc n before after) {names : List String} (hne : names ≠ [])
    (hnames : ∀ name ∈ names.map String.toList, IsWord name)
    {front : Option (Lexeme × Lexeme)} {star word name fromWord : Lexeme}
    (hclause : st.clause = some (.rest front (.all star word name), fromWord)) :
    st.GrowsTo doc n before after names
      ((Statement.ofNames (names.map String.toList) (quoted (moduleOf st.source.text))).tokens ++
        (st.map Lexeme.text).tokens) := by
  have hstart : n.bare.start = (Utf8.encode (before ++ render [])).length := by
    have hplaced : Placed before ([] ++ st.tokens) := h.placed
    rw [Node.toLabel_bare, h.start, Placed.start_eq hplaced, h.gap, render_nil, List.append_nil]
  have hclosed : IsClosed (quoted (moduleOf st.source.text)) :=
    (isSource_quoted h.isImport.source).isClosed
  refine ⟨⟨n.bare.start,
    importStatement (String.ofList (moduleOf st.source.text)) names ++ "\n"⟩, ?_, ?_⟩
  · have hnamespace := (Clause.rest front (.all star word name)).isSome_childOfKind?_namespace
    simp only [Clause.namespace?, Option.isSome_some, Option.isSome_iff_exists] at hnamespace
    obtain ⟨namespaceNode, hnamespace⟩ := hnamespace
    simp [Document.extended, childOfKind?_clause h.nodes, hclause, Clause.childOfKind?_group,
      Clause.group?, hnamespace, h.moduleOf?_eq]
  · rw [hstart]
    refine h.becomes_of_split (List.nil_append _).symm
      (freshStatement (names.map String.toList) (quoted (moduleOf st.source.text))) ['\n']
      (lexed_freshStatement hclosed hnames) (by decide) (Or.inl rfl) ?_ ?_
    · have hrender := render_freshStatement hne (String.ofList (moduleOf st.source.text))
      rw [String.toList_ofList] at hrender
      rw [hrender, String.toList_append]
      rfl
    · rw [map_text_freshStatement, tokens_map]
      rfl

/-! ### All statements -/

/-- Whatever its form, extending a statement does what it is to do. -/
theorem exists_growsTo (h : st.Written doc n before after) {names : List String} (hne : names ≠ [])
    (hnames : ∀ name ∈ names.map String.toList, IsIdentifier name) :
    ∃ tokens, st.GrowsTo doc n before after names tokens ∧
      (st.map Lexeme.text).Extends (names.map String.toList) tokens := by
  have hwords : ∀ name ∈ names.map String.toList, IsWord name := fun name hname ↦
    (hnames name hname).1
  have hadd : st.namespace? = none → (st.map Lexeme.text).Extends (names.map String.toList)
      ((st.map Lexeme.text).add (names.map String.toList)).tokens := fun hnamespace ↦
    h.isImport.extends_add (by rw [namespace?_map, hnamespace]; rfl) hnames
  rcases hclause : st.clause with
    _ | ⟨name | ⟨front, ⟨opening, _ | m, closing⟩ | ⟨star, word, name⟩⟩, fromWord⟩
  · exact ⟨_, h.grows_of_none hne hwords hclause, hadd (by simp [namespace?, hclause])⟩
  · exact ⟨_, h.grows_of_default hne hwords hclause,
      hadd (by simp [namespace?, hclause, Clause.namespace?])⟩
  · exact ⟨_, h.grows_of_braces hne hwords hclause,
      hadd (by simp [namespace?, hclause, Clause.namespace?])⟩
  · exact ⟨_, h.grows_of_members hne hwords hclause,
      hadd (by simp [namespace?, hclause, Clause.namespace?])⟩
  · refine ⟨_, h.grows_of_all hne hwords hclause, h.isImport.extends_ofNames ?_ hnames⟩
    rw [namespace?_map, namespace?, hclause]
    exact Option.some_ne_none _

theorem filter_valueNames (h : st.Written doc n before after) (names : List String) :
    (names.filter fun name ↦ !(doc.valueNames n).contains name) =
      (st.map Lexeme.text).unbound names := by
  rw [h.valueNames_eq, unbound]
  refine List.filter_congr fun name _ ↦ ?_
  congr 1
  rw [Bool.eq_iff_iff, List.contains_iff_mem, List.contains_iff_mem, List.mem_map]
  constructor
  · rintro ⟨t, ht, rfl⟩
    rwa [String.toList_ofList]
  · intro hmem
    exact ⟨_, hmem, String.ofList_toList⟩

end Statement.Written

/-- Adding names to an import statement adds specifiers for those that it does not bind as values,
and there is nothing to do just when it binds all of them. -/
theorem addNames_extends (h : st.Written doc n before after) (names : List String)
    (hnames : ∀ name ∈ names, IsIdentifier name.toList) (hnodup : names.Nodup) :
    ((st.map Lexeme.text).unbound names).Nodup ∧
      ∃ fix, doc.addNames n names = .ok fix ∧
        (fix = none ↔ (st.map Lexeme.text).unbound names = []) ∧
          ∀ insertion ∈ fix, ∃ text,
            (doc.editOf insertion).apply (before ++ render st.tokens ++ after) =
                before ++ text ++ after ∧
              (st.map Lexeme.text).Extends
                (((st.map Lexeme.text).unbound names).map String.toList) (lex text) := by
  refine ⟨hnodup.filter _, ?_⟩
  rw [Document.addNames, h.filter_valueNames]
  by_cases hmissing : (st.map Lexeme.text).unbound names = []
  · rw [hmissing]
    refine ⟨none, rfl, by simp, ?_⟩
    rintro insertion ⟨⟩
  · have hidentifiers : ∀ name ∈ ((st.map Lexeme.text).unbound names).map String.toList,
        IsIdentifier name := by
      intro name hname
      obtain ⟨s, hs, rfl⟩ := List.mem_map.mp hname
      exact hnames s (List.mem_of_mem_filter hs)
    obtain ⟨tokens, ⟨insertion, hextended, text, happly, hlex⟩, hextends⟩ :=
      h.exists_growsTo hmissing hidentifiers
    refine ⟨some insertion, ?_, by simp [hmissing], ?_⟩
    · split
      · exact absurd ‹_› hmissing
      · rw [← Document.extended_bare h.kind_ne_string, hextended]
        rfl
    · rintro _ ⟨⟩
      exact ⟨text, happly, hlex ▸ hextends⟩

/-- A token in ASCII. -/
def lexeme (start : Nat) (gap text : String) : Lexeme :=
  ⟨gap.toList, text.toList, start, start + text.length⟩

/-- `import d, { a as b, type C /* ö */, } from 'm';` -/
def mixed : Statement Lexeme where
  keyword := lexeme 6 "" "import"
  clause := some (.rest (some (lexeme 13 " " "d", lexeme 14 "" ",")) (.group {
    opening := lexeme 16 " " "\x7b"
    members := some {
      first := ⟨none, some (lexeme 18 " " "a", lexeme 20 " " "as"), lexeme 23 " " "b"⟩
      more := [(lexeme 24 "" ",", ⟨some (lexeme 26 " " "type"), none, lexeme 31 " " "C"⟩)]
      trailing := some (lexeme 41 " /* ö */" ",") }
    closing := lexeme 43 " " "\x7d" }), lexeme 45 " " "from")
  source := lexeme 50 " " "'m'"
  semicolon := some (lexeme 53 "" ";")

def mixedTree : Node :=
  ⟨⟨"import_statement", true, 6, 54, none⟩, [.mark "import" 6 12,
    ⟨⟨"import_clause", true, 13, 44, none⟩, [.leaf "identifier" 13 14 none, .mark "," 14 15,
      ⟨⟨"named_imports", true, 16, 44, none⟩, [.mark "\x7b" 16 17,
        ⟨⟨"import_specifier", true, 18, 24, none⟩, [.leaf "identifier" 18 19 (some "name"),
          .mark "as" 20 22, .leaf "identifier" 23 24 (some "alias")]⟩,
        .mark "," 24 25,
        ⟨⟨"import_specifier", true, 26, 32, none⟩, [.mark "type" 26 30,
          .leaf "identifier" 31 32 (some "name")]⟩,
        .leaf "comment" 33 41 none, .mark "," 41 42, .mark "\x7d" 43 44]⟩]⟩,
    .mark "from" 45 49,
    ⟨⟨"string", true, 50, 53, some "source"⟩, [.mark "'" 50 51,
      .leaf "string_fragment" 51 52 none, .mark "'" 52 53]⟩,
    .mark ";" 53 54]⟩

def mixedDocument : Document :=
  ⟨Utf8.encode "// é\nimport d, \x7b a as b, type C /* ö */, \x7d from 'm';\n".toList,
    ⟨⟨"program", true, 0, 55, none⟩, [.leaf "comment" 0 5 none, mixedTree]⟩⟩

theorem written_mixed : mixed.Written mixedDocument mixedTree "// é\n".toList "\n".toList where
  content := by decide +kernel
  lexed := by decide +kernel
  placed := by decide +kernel
  gap := by decide +kernel
  isImport := ⟨by decide +kernel, by decide +kernel, by decide +kernel, by decide +kernel⟩
  kind := rfl
  start := rfl
  nodes := rfl

theorem addNames_extends_mixed : ∃ insertion text,
    mixedDocument.addNames mixedTree ["C", "b", "For"] = .ok (some insertion) ∧
      (mixedDocument.editOf insertion).apply
          ("// é\n".toList ++ render mixed.tokens ++ "\n".toList) =
        "// é\n".toList ++ text ++ "\n".toList ∧
      (mixed.map Lexeme.text).Extends (["C", "For"].map String.toList) (lex text) := by
  have hunbound : (mixed.map Lexeme.text).unbound ["C", "b", "For"] = ["C", "For"] := by
    decide +kernel
  obtain ⟨-, fix, hadd, hnone, hfix⟩ :=
    addNames_extends written_mixed ["C", "b", "For"] (by decide +kernel) (by decide)
  rw [hunbound] at hnone hfix
  rcases fix with _ | insertion
  · exact absurd (hnone.mp rfl) (List.cons_ne_nil _ _)
  · obtain ⟨text, happly, hextends⟩ := hfix insertion rfl
    exact ⟨insertion, text, hadd, happly, hextends⟩

end TagScope.Import
