import TagScope.Imports.Fix
import TagScope.Proofs.Imports.Grammar
import TagScope.Proofs.Syntax.Sites

/-!
# Trees of import statements

The tree of an import statement has a node for each token and for each part (`Statement.nodes`). A
parser puts comments among them, shows the pieces of a string literal and may note a semicolon that
is not written; `Node.bare` is a node without all that. Reading and extending an import statement
do not see the difference (`Document.valueNames_bare`, `Document.extended_bare`).
-/

set_option autoImplicit false

namespace TagScope

/-! ### Bare nodes -/

/-- Nodes that are no part of an import statement: comments, and semicolons of no width. -/
def Node.isSkipped (n : Node) : Bool :=
  decide (n.field = none ∧ (n.kind = "comment" ∨ n.kind = ";" ∧ n.start = n.stop))

mutual

/-- A node without comments and unwritten semicolons behind its first child, and without the pieces
of string literals. -/
def Node.bare : Node → Node
  | ⟨label, children⟩ =>
    ⟨label, if label.kind = "string" then [] else Node.bareFirst children⟩

def Node.bareFirst : List Node → List Node
  | [] => []
  | c :: rest => c.bare :: Node.bareRest rest

def Node.bareRest : List Node → List Node
  | [] => []
  | c :: rest => if c.isSkipped then Node.bareRest rest else c.bare :: Node.bareRest rest

end

namespace Node

@[simp] theorem toLabel_bare (n : Node) : n.bare.toLabel = n.toLabel := by
  obtain ⟨label, children⟩ := n
  rw [bare]

theorem children_bare {n : Node} (h : n.kind ≠ "string") :
    n.bare.children = bareFirst n.children := by
  obtain ⟨label, children⟩ := n
  rw [bare]
  exact if_neg h

theorem head?_bareFirst (children : List Node) :
    (bareFirst children).head? = children.head?.map bare := by
  cases children with
  | nil => rw [bareFirst]; rfl
  | cons c rest => rw [bareFirst]; rfl

section Lookup

variable {p : Node → Bool} (hbare : ∀ c : Node, p c.bare = p c)
  (hskipped : ∀ c : Node, c.isSkipped → p c = false)

include hbare hskipped

theorem filter_bareRest (children : List Node) :
    (bareRest children).filter p = (children.filter p).map bare := by
  induction children with
  | nil => rw [bareRest]; rfl
  | cons c rest ih =>
    rw [bareRest]
    by_cases hc : c.isSkipped
    · rw [if_pos hc, ih, List.filter_cons_of_neg (by simp [hskipped c hc])]
    · rw [if_neg hc, List.filter_cons, List.filter_cons, hbare, ih]
      by_cases hp : p c <;> simp [hp]

theorem filter_bareFirst (children : List Node) :
    (bareFirst children).filter p = (children.filter p).map bare := by
  cases children with
  | nil => rw [bareFirst]; rfl
  | cons c rest =>
    rw [bareFirst, List.filter_cons, List.filter_cons, hbare, filter_bareRest hbare hskipped]
    by_cases hp : p c <;> simp [hp]

theorem find?_bareFirst (children : List Node) :
    (bareFirst children).find? p = (children.find? p).map bare := by
  rw [← List.head?_filter, filter_bareFirst hbare hskipped, List.head?_map, List.head?_filter]

theorem any_bareFirst (children : List Node) : (bareFirst children).any p = children.any p := by
  rw [← List.isSome_find?, find?_bareFirst hbare hskipped, Option.isSome_map, List.isSome_find?]

end Lookup

variable {n : Node} {kind field : String}

theorem ne_of_mem_childrenOfKind {c : Node} {other : String} (h : c ∈ n.childrenOfKind kind)
    (hother : kind ≠ other) : c.kind ≠ other := by
  rw [of_decide_eq_true (List.mem_filter.mp h).2]
  exact hother

theorem ne_of_childOfKind? {c : Node} {other : String} (h : n.childOfKind? kind = some c)
    (hother : kind ≠ other) : c.kind ≠ other := by
  have hkind : c.kind = kind := by simpa using List.find?_some h
  rw [hkind]
  exact hother

theorem ne_of_isSkipped {c : Node} (h : c.isSkipped) (hcomment : kind ≠ "comment")
    (hsemicolon : kind ≠ ";") : c.kind ≠ kind := by
  rintro rfl
  obtain ⟨-, hc | ⟨hc, -⟩⟩ := of_decide_eq_true h
  · exact hcomment hc
  · exact hsemicolon hc

theorem childrenOfKind_bare (hn : n.kind ≠ "string") (hcomment : kind ≠ "comment")
    (hsemicolon : kind ≠ ";") :
    n.bare.childrenOfKind kind = (n.childrenOfKind kind).map bare := by
  rw [childrenOfKind, childrenOfKind, children_bare hn]
  refine filter_bareFirst (fun c ↦ ?_) (fun c hc ↦ ?_) _
  · rw [toLabel_bare]
  · exact decide_eq_false (ne_of_isSkipped hc hcomment hsemicolon)

theorem childOfKind?_bare (hn : n.kind ≠ "string") (hcomment : kind ≠ "comment")
    (hsemicolon : kind ≠ ";") : n.bare.childOfKind? kind = (n.childOfKind? kind).map bare := by
  rw [childOfKind?, childOfKind?, children_bare hn]
  refine find?_bareFirst (fun c ↦ ?_) (fun c hc ↦ ?_) _
  · rw [toLabel_bare]
  · exact decide_eq_false (ne_of_isSkipped hc hcomment hsemicolon)

theorem child?_bare (hn : n.kind ≠ "string") : n.bare.child? field = (n.child? field).map bare := by
  rw [child?, child?, children_bare hn]
  refine find?_bareFirst (fun c ↦ ?_) (fun c hc ↦ ?_) _
  · rw [toLabel_bare]
  · obtain ⟨hfield, -⟩ := of_decide_eq_true hc
    simp [hfield]

end Node

namespace Document

variable {doc : Document} {n : Node}

@[simp] theorem bytesOf_bare (n : Node) : doc.bytesOf n.bare = doc.bytesOf n := by
  rw [bytesOf, bytesOf, Node.toLabel_bare]

@[simp] theorem nameOf_bare (n : Node) : doc.nameOf n.bare = doc.nameOf n := by
  rw [nameOf, nameOf, bytesOf_bare]

theorem isForTypes_bare (hn : n.kind ≠ "string") : doc.isForTypes n.bare = doc.isForTypes n := by
  rw [isForTypes, isForTypes, Node.children_bare hn]
  refine Node.any_bareFirst (fun c ↦ ?_) (fun c hc ↦ ?_) _
  · rw [Node.toLabel_bare, bytesOf_bare]
  · rw [decide_eq_false (Node.ne_of_isSkipped hc (by decide) (by decide)), Bool.false_and]

theorem moduleOf?_bare (hn : n.kind ≠ "string") : doc.moduleOf? n.bare = doc.moduleOf? n := by
  rw [moduleOf?, moduleOf?, Node.child?_bare hn]
  cases n.child? "source" with
  | none => rfl
  | some source => simp

theorem binding_bare (hn : n.kind ≠ "string") :
    ((n.bare.child? "alias").or (n.bare.child? "name")).map doc.nameOf =
      ((n.child? "alias").or (n.child? "name")).map doc.nameOf := by
  rw [Node.child?_bare hn, Node.child?_bare hn]
  cases n.child? "alias" <;> cases n.child? "name" <;> simp

/-- The names that the value specifiers of a group bind. -/
def namesIn (doc : Document) (group : Node) : List String :=
  ((group.childrenOfKind "import_specifier").filter fun specifier ↦
    !doc.isForTypes specifier).filterMap fun specifier ↦
      ((specifier.child? "alias").or (specifier.child? "name")).map doc.nameOf

theorem namesIn_bare (hn : n.kind ≠ "string") : doc.namesIn n.bare = doc.namesIn n := by
  have hkind : ∀ s ∈ n.childrenOfKind "import_specifier", s.kind ≠ "string" :=
    fun s hs ↦ Node.ne_of_mem_childrenOfKind hs (by decide)
  rw [namesIn, namesIn, Node.childrenOfKind_bare hn (by decide) (by decide), List.filter_map,
    List.filterMap_map]
  have hfilter : (n.childrenOfKind "import_specifier").filter
      ((fun s ↦ !doc.isForTypes s) ∘ Node.bare) =
        (n.childrenOfKind "import_specifier").filter fun s ↦ !doc.isForTypes s :=
    List.filter_congr fun s hs ↦ congrArg not (isForTypes_bare (hkind s hs))
  rw [hfilter]
  exact List.filterMap_congr fun s hs ↦ binding_bare (hkind s (List.mem_of_mem_filter hs))

theorem valueNames_bare (hn : n.kind ≠ "string") : doc.valueNames n.bare = doc.valueNames n := by
  rw [valueNames, valueNames, Node.childOfKind?_bare hn (by decide) (by decide)]
  cases hclause : n.childOfKind? "import_clause" with
  | none => rfl
  | some clause =>
    have hclausekind := Node.ne_of_childOfKind? hclause (show _ ≠ "string" by decide)
    change (clause.bare.childrenOfKind "named_imports").flatMap doc.namesIn =
      (clause.childrenOfKind "named_imports").flatMap doc.namesIn
    rw [Node.childrenOfKind_bare hclausekind (by decide) (by decide), List.flatMap_map]
    exact List.flatMap_congr fun group hgroup ↦
      namesIn_bare (Node.ne_of_mem_childrenOfKind hgroup (by decide))

theorem afterFirstChild_bare (hn : n.kind ≠ "string") (text : String) :
    Insertion.afterFirstChild n.bare text = Insertion.afterFirstChild n text := by
  rw [Insertion.afterFirstChild, Insertion.afterFirstChild, Node.children_bare hn,
    Node.head?_bareFirst]
  cases n.children.head? with
  | none => rfl
  | some first => simp

/-- Extending an import statement does not depend on comments in it. -/
theorem extended_bare (hn : n.kind ≠ "string") (names : List String) :
    doc.extended n.bare names = doc.extended n names := by
  rw [extended, extended, Node.childOfKind?_bare hn (by decide) (by decide)]
  cases hclause : n.childOfKind? "import_clause" with
  | none => exact afterFirstChild_bare hn _
  | some clause =>
    have hclausekind := Node.ne_of_childOfKind? hclause (show _ ≠ "string" by decide)
    dsimp only [Option.map_some]
    rw [Node.childOfKind?_bare hclausekind (by decide) (by decide)]
    cases hgroup : clause.childOfKind? "named_imports" with
    | some group =>
      have hgroupkind := Node.ne_of_childOfKind? hgroup (show _ ≠ "string" by decide)
      dsimp only [Option.map_some]
      rw [Node.childrenOfKind_bare hgroupkind (by decide) (by decide), List.getLast?_map]
      cases (group.childrenOfKind "import_specifier").getLast? with
      | none => exact afterFirstChild_bare hgroupkind _
      | some last => simp
    | none =>
      dsimp only [Option.map_none]
      rw [Node.childOfKind?_bare hclausekind (by decide) (by decide),
        Node.childOfKind?_bare hclausekind (by decide) (by decide), moduleOf?_bare hn]
      cases clause.childOfKind? "identifier" <;> cases clause.childOfKind? "namespace_import" <;>
        simp

end Document

/-! ### The nodes of a statement -/

def Lexeme.mark (kind : String) (l : Lexeme) : Node :=
  Node.mark kind l.start l.stop

def Lexeme.leaf (kind : String) (field : Option String) (l : Lexeme) : Node :=
  Node.leaf kind l.start l.stop field

/-- A node that spans its children. -/
def Node.branch (kind : String) (children : List Node) : Node :=
  ⟨⟨kind, true, (children.head?.map fun c ↦ c.start).getD 0,
    (children.getLast?.map fun c ↦ c.stop).getD 0, none⟩, children⟩

section Fields

variable (kind : String) (field : Option String) (l : Lexeme) (children : List Node)

@[simp] theorem Lexeme.kind_mark : (l.mark kind).kind = kind := rfl

@[simp] theorem Lexeme.field_mark : (l.mark kind).field = none := rfl

@[simp] theorem Lexeme.stop_mark : (l.mark kind).stop = l.stop := rfl

@[simp] theorem Lexeme.kind_leaf : (l.leaf kind field).kind = kind := rfl

@[simp] theorem Lexeme.field_leaf : (l.leaf kind field).field = field := rfl

@[simp] theorem Lexeme.stop_leaf : (l.leaf kind field).stop = l.stop := rfl

@[simp] theorem Node.kind_branch : (branch kind children).kind = kind := rfl

@[simp] theorem Node.field_branch : (branch kind children).field = none := rfl

@[simp] theorem Node.children_branch : (branch kind children).children = children := rfl

end Fields

namespace Import

open Lexer Lexeme

/-- The kind of a name in a module, which may be a string literal. -/
def nameKind (name : Token) : String :=
  if name.head?.any quotes.contains then "string" else "identifier"

def Specifier.nodes (s : Specifier Lexeme) : List Node :=
  (s.typeWord.map (mark "type")).toList ++
    match s.imported with
    | none => [leaf "identifier" (some "name") s.binding]
    | some (name, word) =>
      [leaf (nameKind name.text) (some "name") name, mark "as" word,
        leaf "identifier" (some "alias") s.binding]

def Specifier.node (s : Specifier Lexeme) : Node :=
  Node.branch "import_specifier" s.nodes

def Members.nodes (m : Members Lexeme) : List Node :=
  m.first.node :: (m.more.flatMap fun p ↦ [mark "," p.1, p.2.node]) ++
    (m.trailing.map (mark ",")).toList

def Group.node (g : Group Lexeme) : Node :=
  Node.branch "named_imports"
    (mark "\x7b" g.opening :: g.members.elim [] Members.nodes ++ [mark "\x7d" g.closing])

def Tail.node : Tail Lexeme → Node
  | .group g => g.node
  | .all star word name =>
    Node.branch "namespace_import" [mark "*" star, mark "as" word, leaf "identifier" none name]

def Clause.node : Clause Lexeme → Node
  | .default name => Node.branch "import_clause" [leaf "identifier" none name]
  | .rest front tail =>
    Node.branch "import_clause"
      ((front.elim [] fun p ↦ [leaf "identifier" none p.1, mark "," p.2]) ++ [tail.node])

def Statement.nodes (st : Statement Lexeme) : List Node :=
  mark "import" st.keyword :: (st.clause.elim [] fun p ↦ [p.1.node, mark "from" p.2]) ++
    leaf "string" (some "source") st.source :: (st.semicolon.map (mark ";")).toList

/-! ### What is found in them -/

@[simp] theorem Clause.kind_node (c : Clause Lexeme) : c.node.kind = "import_clause" := by
  cases c <;> rfl

@[simp] theorem Clause.field_node (c : Clause Lexeme) : c.node.field = none := by
  cases c <;> rfl

@[simp] theorem Specifier.kind_node (s : Specifier Lexeme) : s.node.kind = "import_specifier" :=
  rfl

@[simp] theorem Specifier.stop_node (s : Specifier Lexeme) : s.node.stop = s.binding.stop := by
  obtain ⟨typeWord, imported, binding⟩ := s
  cases imported <;> simp [node, nodes, Node.branch]

theorem Statement.childOfKind?_clause {st : Statement Lexeme} {n : Node}
    (h : n.children = st.nodes) :
    n.childOfKind? "import_clause" = st.clause.map fun p ↦ p.1.node := by
  rw [Node.childOfKind?, h]
  obtain ⟨keyword, clause, source, semicolon⟩ := st
  cases clause with
  | none => cases semicolon <;> simp [nodes]
  | some clause => simp [nodes]

theorem Statement.child?_source {st : Statement Lexeme} {n : Node} (h : n.children = st.nodes) :
    n.child? "source" = some (leaf "string" (some "source") st.source) := by
  rw [Node.child?, h]
  obtain ⟨keyword, clause, source, semicolon⟩ := st
  cases clause <;> simp [nodes]

theorem Statement.afterFirstChild_eq {st : Statement Lexeme} {n : Node}
    (h : n.children = st.nodes) (text : String) :
    Insertion.afterFirstChild n text = .ok ⟨st.keyword.stop, text⟩ := by
  rw [Insertion.afterFirstChild, h]
  rfl

theorem Group.afterFirstChild_node (g : Group Lexeme) (text : String) :
    Insertion.afterFirstChild g.node text = .ok ⟨g.opening.stop, text⟩ :=
  rfl

theorem Members.filter_nodes (m : Members Lexeme) :
    (m.nodes.filter fun c ↦ c.kind = "import_specifier") = m.specifiers.map Specifier.node := by
  obtain ⟨first, more, trailing⟩ := m
  have hmore : ((more.flatMap fun p ↦ [mark "," p.1, p.2.node]).filter fun c ↦
      c.kind = "import_specifier") = (more.map Prod.snd).map Specifier.node := by
    induction more with
    | nil => rfl
    | cons p more ih => simp [ih]
  cases trailing <;> simp [nodes, specifiers, hmore]

theorem Group.childrenOfKind_specifier (g : Group Lexeme) :
    g.node.childrenOfKind "import_specifier" = g.specifiers.map Specifier.node := by
  obtain ⟨opening, members, closing⟩ := g
  cases members with
  | none => simp [Node.childrenOfKind, node, specifiers]
  | some m => simp [Node.childrenOfKind, node, specifiers, m.filter_nodes]

theorem Clause.childrenOfKind_group (c : Clause Lexeme) :
    c.node.childrenOfKind "named_imports" = (c.group?.map Group.node).toList := by
  rcases c with name | ⟨_ | front, g | ⟨star, word, name⟩⟩ <;>
    simp [Node.childrenOfKind, node, group?, Tail.node, Group.node]

theorem Clause.childOfKind?_group (c : Clause Lexeme) :
    c.node.childOfKind? "named_imports" = c.group?.map Group.node := by
  have hgroups := congrArg List.head? c.childrenOfKind_group
  rwa [Node.childrenOfKind, List.head?_filter, Option.head?_toList] at hgroups

theorem Clause.childOfKind?_identifier (c : Clause Lexeme) :
    c.node.childOfKind? "identifier" = c.default?.map (leaf "identifier" none) := by
  rcases c with name | ⟨_ | front, g | ⟨star, word, name⟩⟩ <;>
    simp [Node.childOfKind?, node, default?, Tail.node, Group.node]

theorem Clause.isSome_childOfKind?_namespace (c : Clause Lexeme) :
    (c.node.childOfKind? "namespace_import").isSome = c.namespace?.isSome := by
  rcases c with name | ⟨_ | front, g | ⟨star, word, name⟩⟩ <;>
    simp [Node.childOfKind?, node, namespace?, Tail.node, Group.node]

end Import

end TagScope
