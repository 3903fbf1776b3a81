import TagScope.Proofs.Jsx.Candidates
import TagScope.Proofs.Scope.Declarations

/-!
# Look-ups that can fail

A tree may be damaged in any way: fields are missing, nodes have other kinds or fewer children than
a grammar gives them. This module restates what is read off single sites with look-ups that fail
where nothing stands at a position (`pick`, `both`), each in the place where it is made and behind
the test that guards it. None of them fails: what is found is what the unguarded definitions say
(`declarations_eq`, `candidatesAt_eq`).
-/

set_option autoImplicit false

namespace TagScope

/-- What can be missing where something is taken by its position or by its name. -/
inductive Lack where
  | position
  | template
deriving DecidableEq, Repr

namespace Checked

theorem bind_of_eq_ok {α β : Type} {result : Except Lack α} {a : α} (h : result = .ok a)
    (next : α → Except Lack β) : result >>= next = next a := by
  rw [h]
  rfl

/-! ### Positions -/

section Positions

variable {α : Type}

/-- The element at a position. -/
def pick (l : List α) (index : Nat) : Except Lack α :=
  l[index]?.elim (.error .position) .ok

def pickLast (l : List α) : Except Lack α :=
  l.getLast?.elim (.error .position) .ok

/-- The two elements of a list that has no others. -/
def both : List α → Except Lack (α × α)
  | [a, b] => .ok (a, b)
  | _ => .error .position

/-- The first element, taken only if there is one. -/
def firstIfAny (l : List α) : Except Lack (Option α) :=
  if l.isEmpty then .ok none else (pick l 0).map some

theorem firstIfAny_eq (l : List α) : firstIfAny l = .ok l.head? := by
  cases l <;> rfl

/-- The last element, taken only if there is one. -/
def lastIfAny (l : List α) : Except Lack (Option α) :=
  if l.isEmpty then .ok none else (pickLast l).map some

theorem pickLast_eq {l : List α} {a : α} (h : l.getLast? = some a) : pickLast l = .ok a := by
  rw [pickLast, h]
  rfl

end Positions

/-- The child with a field or else the first named child, if there is one. -/
def fieldOrFirst (s : Site) (field : String) : Except Lack (Option Site) :=
  match s.child? field with
  | some child => .ok (some child)
  | none => firstIfAny s.namedChildren

theorem fieldOrFirst_eq (s : Site) (field : String) :
    fieldOrFirst s field = .ok ((s.child? field).or s.namedChildren.head?) := by
  rw [fieldOrFirst]
  cases s.child? field with
  | some child => rfl
  | none => exact firstIfAny_eq s.namedChildren

/-! ### Declarations -/

def declaratorWord (s : Site) : Except Lack String :=
  match s.parent? with
  | some declaration =>
    if declaration.kind = "lexical_declaration" then
      match declaration.child? "kind" with
      | some word => .ok word.kind
      | none =>
        (firstIfAny declaration.children).map fun first ↦
          (first.map fun word ↦ word.kind).getD "let"
    else .ok "var"
  | none => .ok "var"

theorem declaratorWord_eq (s : Site) : declaratorWord s = .ok s.declaratorWord := by
  unfold declaratorWord Site.declaratorWord
  cases s.parent? with
  | none => rfl
  | some declaration =>
    dsimp only
    split_ifs
    · cases declaration.child? "kind" with
      | some word => rfl
      | none => rw [firstIfAny_eq]; rfl
    · rfl

/-- The names that a site declares. Only the word of a declarator and the pattern of a parameter are
looked up by position. -/
def declarations (s : Site) : Except Lack (List Declaration) :=
  if s.node.named && s.node.kind = "variable_declarator" then
    (declaratorWord s).map fun word ↦
      Site.declareAll (Site.destinationOf word) word (s.patternSites "name")
  else if s.node.named && s.node.isAmong ["required_parameter", "optional_parameter"] then
    if s.grandparent?.any Node.isFunction then
      (fieldOrFirst s "pattern").map fun pattern ↦
        Site.declareAll .current "param" (pattern.toList.flatMap Site.boundIdentifiers)
    else .ok []
  else .ok s.declarations

theorem declarations_eq (s : Site) : declarations s = .ok s.declarations := by
  unfold declarations
  split_ifs with hdeclarator hparameter hfunction
  · obtain ⟨hnamed, hkind⟩ := (Bool.and_eq_true _ _).mp hdeclarator
    have hdeclares := Site.Declares.declarator (of_decide_eq_true hkind)
    rw [declaratorWord_eq, hdeclares.declarations_eq hnamed]
    rfl
  · obtain ⟨hnamed, hkind⟩ := (Bool.and_eq_true _ _).mp hparameter
    have hdeclares := Site.Declares.parameters (List.contains_iff_mem.mp hkind)
    rw [fieldOrFirst_eq, hdeclares.declarations_eq hnamed, if_pos hfunction]
    rfl
  · obtain ⟨hnamed, hkind⟩ := (Bool.and_eq_true _ _).mp hparameter
    have hdeclares := Site.Declares.parameters (List.contains_iff_mem.mp hkind)
    rw [hdeclares.declarations_eq hnamed, if_neg hfunction]
  · rfl

/-! ### Candidates -/

theorem mem_children_of_fieldOrFirst {s c : Site} {field : String}
    (h : fieldOrFirst s field = .ok (some c)) : c ∈ s.children := by
  rw [fieldOrFirst_eq] at h
  exact Site.mem_children_of_child?_or (Except.ok.inj h)

theorem sizeOf_node_lt {s c : Site} (h : c ∈ s.children) : sizeOf c.node < sizeOf s.node := by
  obtain ⟨index, hchild, -⟩ := Site.mem_children.mp h
  have hmem := List.sizeOf_lt_of_mem (List.mem_of_getElem? hchild)
  obtain ⟨⟨label, children⟩, above⟩ := s
  rw [Node.mk.sizeOf_spec]
  exact Nat.lt_trans hmem (by simp only; omega)

/-- The leftmost part of a member expression, found step by step. -/
def memberRoot (s : Site) : Except Lack (Option Site) :=
  if s.isMember then
    match _h : fieldOrFirst s "object" with
    | .ok (some object) => memberRoot object
    | .ok none => .ok none
    | .error lack => .error lack
  else .ok (if s.isMemberRoot then some s else none)
termination_by sizeOf s.node
decreasing_by exact sizeOf_node_lt (mem_children_of_fieldOrFirst ‹_›)

theorem memberRoot_eq (s : Site) : memberRoot s = .ok s.memberRoot := by
  induction s using Site.inductionOn with
  | step s ih =>
    by_cases hmember : s.isMember = true
    · have hobject : fieldOrFirst s "object" = .ok s.object? := fieldOrFirst_eq s "object"
      rw [memberRoot, if_pos hmember, Site.memberRoot_of_isMember hmember]
      split
      next object h =>
        rw [Except.ok.inj (hobject.symm.trans h), ih object (mem_children_of_fieldOrFirst h)]
        rfl
      next h =>
        rw [Except.ok.inj (hobject.symm.trans h)]
        rfl
      next h => cases hobject.symm.trans h
    · rw [memberRoot, if_neg hmember, Site.memberRoot_of_not_isMember hmember]

def tag (doc : Document) : Option Site → Except Lack Jsx.Tag
  | none => .ok .other
  | some name =>
    if name.node.kind = "identifier" then .ok (.identifier name (doc.nameOf name.node))
    else if name.isMember then (memberRoot name).map Jsx.Tag.member
    else .ok .other

theorem tag_eq (doc : Document) (name : Option Site) :
    tag doc name = .ok (Jsx.Tag.ofName doc name) := by
  cases name with
  | none => rfl
  | some name =>
    unfold tag Jsx.Tag.ofName
    dsimp only
    split_ifs with _ hmember hkind hkind
    · rfl
    · rw [memberRoot_eq]
      rfl
    · exact absurd hmember hkind
    · exact absurd hkind hmember
    · rfl

def directive? (doc : Document) (s : Site) : Except Lack (Option Site) := do
  match ← firstIfAny s.namedChildren with
  | none => .ok none
  | some full =>
    if full.node.kind ≠ "jsx_namespace_name" then .ok none
    else if full.namedChildren.length ≠ 2 then .ok none
    else
      let (space, name) ← both full.namedChildren
      .ok (if space.node.kind = "identifier" && name.node.kind = "identifier" &&
          doc.nameOf space.node = Jsx.directiveNamespace then some name else none)

theorem directive?_eq (doc : Document) (s : Site) :
    directive? doc s = .ok (Jsx.directive? doc s) := by
  unfold directive? Jsx.directive?
  rw [firstIfAny_eq]
  cases s.namedChildren with
  | nil => rfl
  | cons full rest =>
    change (if full.node.kind ≠ "jsx_namespace_name" then .ok none else _ : Except Lack _) = _
    dsimp only
    by_cases hkind : full.node.kind = "jsx_namespace_name"
    · rw [if_neg (not_not.mpr hkind), if_pos hkind]
      rcases full.namedChildren with _ | ⟨space, _ | ⟨name, _ | ⟨third, more⟩⟩⟩
      · rfl
      · rfl
      · rfl
      · exact if_pos (by simp)
    · rw [if_pos hkind, if_neg hkind]

/-- The candidates that one site brings in. -/
def candidatesAt (doc : Document) (s : Site) : Except Lack (List Jsx.Candidate) :=
  if Jsx.isElement s then (tag doc (s.child? "name")).map (Jsx.Tag.candidates doc)
  else if s.node.kind = "jsx_attribute" then
    (directive? doc s).map fun directive ↦
      directive.toList.map fun name ↦ ⟨doc.nameOf name.node, .customDirective, name⟩
  else .ok []

theorem candidatesAt_eq (doc : Document) (s : Site) :
    candidatesAt doc s = .ok (Jsx.candidatesAt doc s) := by
  unfold candidatesAt Jsx.candidatesAt
  split_ifs
  · rw [tag_eq]
    rfl
  · rw [directive?_eq]
    rfl
  · rfl

end Checked

end TagScope
