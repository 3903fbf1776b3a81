import TagScope.Proofs.Jsx.Candidates
import TagScope.Proofs.Syntax.Agreement

/-!
# The trace of a tree

What a tree says about scopes, in the order in which the analysis meets it: scopes open and close,
names are declared, and names are used in JSX (`Event`). Sites that agree have the same trace
(`Site.trace_eq_of_agrees`): whether a node opens a scope, what it declares and what it uses depends
on kinds, fields and texts only.
-/

set_option autoImplicit false

namespace TagScope

inductive Event where
  | opens (kind : ScopeKind)
  | closes
  | declares (destination : Destination) (name : String)
  | uses (name : String) (role : Jsx.Role)
deriving DecidableEq, Repr

namespace Site

def declared (doc : Document) (s : Site) : List Event :=
  s.declarations.map fun d ↦ .declares d.destination (doc.nameOf d.identifier.node)

def used (doc : Document) (s : Site) : List Event :=
  (Jsx.candidatesAt doc s).map fun c ↦ .uses c.name c.role

/-- Events between the opening and the closing of the scope of a site, if it has one. -/
def bracketed (s : Site) (events : List Event) : List Event :=
  if s.opensScope then .opens s.scopeKind :: (events ++ [.closes]) else events

end Site

mutual

/-- The events of a subtree. -/
def Node.trace (doc : Document) (above : Ascent) : Node → List Event
  | n@⟨_, cs⟩ =>
    let s : Site := ⟨n, above⟩
    s.bracketed (s.declared doc ++ s.used doc ++ Node.traceAll doc n above 0 cs)

def Node.traceAll (doc : Document) (parent : Node) (above : Ascent) (index : Nat) :
    List Node → List Event
  | [] => []
  | c :: rest =>
    c.trace doc ((index, parent) :: above) ++ Node.traceAll doc parent above (index + 1) rest

end

namespace Site

def trace (doc : Document) (s : Site) : List Event :=
  s.node.trace doc s.above

/-- The events below a site. -/
def innerTrace (doc : Document) (s : Site) : List Event :=
  s.children.flatMap (trace doc)

theorem traceAll_eq_flatMap (doc : Document) (parent : Node) (above : Ascent) (cs : List Node) :
    ∀ index, Node.traceAll doc parent above index cs =
      (childSites parent above index cs).flatMap (trace doc) := by
  induction cs with
  | nil => intro index; rw [Node.traceAll]; rfl
  | cons c rest ih =>
    intro index
    rw [Node.traceAll, childSites_cons, List.flatMap_cons, ih]
    rfl

theorem trace_eq (doc : Document) (s : Site) :
    s.trace doc = s.bracketed (s.declared doc ++ s.used doc ++ s.innerTrace doc) := by
  obtain ⟨⟨label, cs⟩, above⟩ := s
  rw [innerTrace, children_eq, ← traceAll_eq_flatMap, trace, Node.trace]

/-! ### Bound identifiers -/

theorem boundSitesOfField_eq (name : String) (parent : Node) (above : Ascent) (cs : List Node) :
    ∀ index, Node.boundSitesOfField name parent above index cs =
      ((childSites parent above index cs).find? fun c ↦
        c.node.field = some name).toList.flatMap boundIdentifiers := by
  induction cs with
  | nil => intro index; rw [Node.boundSitesOfField]; rfl
  | cons c rest ih =>
    intro index
    rw [Node.boundSitesOfField, childSites_cons, List.find?_cons, ih]
    by_cases hfield : c.field = some name
    · simp only [hfield, decide_true, if_true]
      rw [Option.toList_some, List.flatMap_singleton]
      rfl
    · simp only [hfield, decide_false, if_false]

theorem boundSitesOfNamed_eq (parent : Node) (above : Ascent) (cs : List Node) :
    ∀ index, Node.boundSitesOfNamed parent above index cs =
      ((childSites parent above index cs).filter fun c ↦ c.node.named).flatMap
        boundIdentifiers := by
  induction cs with
  | nil => intro index; rw [Node.boundSitesOfNamed]; rfl
  | cons c rest ih =>
    intro index
    rw [Node.boundSitesOfNamed, childSites_cons, List.filter_cons, ih]
    by_cases hnamed : c.named = true
    · rw [if_pos hnamed, if_pos hnamed, List.flatMap_cons]
      rfl
    · rw [if_neg hnamed, if_neg hnamed, List.nil_append]

theorem boundIdentifiers_eq (s : Site) :
    s.boundIdentifiers =
      match Pattern.passage s.node.kind with
      | .bound => [s]
      | .field name => (s.child? name).toList.flatMap boundIdentifiers
      | .blocked => []
      | .named => s.namedChildren.flatMap boundIdentifiers := by
  obtain ⟨⟨label, cs⟩, above⟩ := s
  rw [boundIdentifiers, Node.boundSites]
  cases hpassage : Pattern.passage label.kind with
  | bound => rfl
  | field name => exact boundSitesOfField_eq name _ above cs 0
  | blocked => rfl
  | named => exact boundSitesOfNamed_eq _ above cs 0

/-! ### Agreeing sites -/

section Agreement

variable {doc doc' : Document} {s s' : Site}

theorem any_eq_of_agreesAbove {p : Node → Bool} (hp : ∀ n n', n.kind = n'.kind → p n = p n')
    {a b : Option Node} (h : Option.Rel (Node.AgreesAbove doc doc') a b) : a.any p = b.any p := by
  cases h with
  | none => rfl
  | some habove => exact hp _ _ habove.kind_eq

theorem Agrees.opensScope_eq (h : Agrees doc doc' s s') : s.opensScope = s'.opensScope := by
  have hparent : (s.parent?.any fun parent ↦ parent.isFunction || parent.kind = "catch_clause") =
      s'.parent?.any fun parent ↦ parent.isFunction || parent.kind = "catch_clause" :=
    any_eq_of_agreesAbove (fun n n' hkind ↦ by
      rw [Node.isFunction, Node.isFunction, Node.isAmong, Node.isAmong, hkind]) h.parent
  unfold opensScope
  rw [hparent]
  unfold Node.isFunction Node.isClass Node.isAmong
  rw [h.kind_eq, h.named_eq]

theorem Agrees.scopeKind_eq (h : Agrees doc doc' s s') : s.scopeKind = s'.scopeKind := by
  unfold scopeKind Node.isFunction Node.isClass Node.isAmong
  rw [h.kind_eq]

theorem Agrees.boundIdentifiers (s : Site) : ∀ s', Agrees doc doc' s s' →
    List.Forall₂ (Agrees doc doc') s.boundIdentifiers s'.boundIdentifiers := by
  induction s using inductionOn with
  | step s ih =>
    intro s' h
    have hall : ∀ {cs cs' : List Site}, List.Forall₂ (Agrees doc doc') cs cs' →
        (∀ c ∈ cs, c ∈ s.children) → List.Forall₂ (Agrees doc doc')
          (cs.flatMap Site.boundIdentifiers) (cs'.flatMap Site.boundIdentifiers) := by
      intro cs cs' hcs
      induction hcs with
      | nil => intro _; exact .nil
      | @cons c c' cs cs' hc _ ihcs =>
        intro hmem
        rw [List.flatMap_cons, List.flatMap_cons]
        exact List.rel_append (ih c (hmem c List.mem_cons_self) c' hc)
          (ihcs fun d hd ↦ hmem d (List.mem_cons_of_mem _ hd))
    rw [boundIdentifiers_eq s, boundIdentifiers_eq s', ← h.kind_eq]
    cases Pattern.passage s.node.kind with
    | bound => exact .cons h .nil
    | field name =>
      refine hall (rel_toList (h.child? name)) fun c hc ↦ ?_
      exact List.mem_of_find?_eq_some (Option.mem_toList.mp hc)
    | blocked => exact .nil
    | named => exact hall h.namedChildren fun c hc ↦ (List.mem_filter.mp hc).1

theorem Agrees.fieldSites (h : Agrees doc doc' s s') (field : String) :
    List.Forall₂ (Agrees doc doc') (s.fieldSites field) (s'.fieldSites field) :=
  rel_toList (h.child? field)

theorem forall₂_boundIdentifiers {cs cs' : List Site} (h : List.Forall₂ (Agrees doc doc') cs cs') :
    List.Forall₂ (Agrees doc doc') (cs.flatMap Site.boundIdentifiers)
      (cs'.flatMap Site.boundIdentifiers) :=
  List.rel_flatMap h fun {c c'} hc ↦ Agrees.boundIdentifiers c c' hc

theorem Agrees.patternSites (h : Agrees doc doc' s s') (field : String) :
    List.Forall₂ (Agrees doc doc') (s.patternSites field) (s'.patternSites field) :=
  forall₂_boundIdentifiers (h.fieldSites field)

theorem Agrees.importClausePart (h : Agrees doc doc' s s') :
    List.Forall₂ (Agrees doc doc') s.importClausePart s'.importClausePart := by
  unfold Site.importClausePart
  rw [← h.kind_eq]
  split_ifs
  · exact .cons h .nil
  · exact rel_toList (h.childOfKind? "identifier")
  · refine List.rel_filterMap (R := Agrees doc doc') (fun {c c'} hc ↦ ?_) ?_
    · exact rel_or (hc.child? "alias") (hc.child? "name")
    · exact forall₂_filter (fun _ _ hc ↦ by rw [hc.kind_eq]) h.children
  · exact .nil

theorem Agrees.importedSites (h : Agrees doc doc' s s') :
    List.Forall₂ (Agrees doc doc') s.importedSites s'.importedSites := by
  unfold Site.importedSites
  rcases rel_cases (h.childOfKind? "import_require_clause") with
    ⟨hnone, hnone'⟩ | ⟨c, c', hc, hc', hclause⟩
  · rw [hnone, hnone']
    rcases rel_cases (h.childOfKind? "import_clause") with
      ⟨hnone, hnone'⟩ | ⟨c, c', hc, hc', hclause⟩
    · rw [hnone, hnone']
      exact .nil
    · rw [hc, hc']
      exact List.rel_flatMap hclause.children fun {d d'} hd ↦ Agrees.importClausePart hd
  · rw [hc, hc']
    exact rel_toList (hclause.childOfKind? "identifier")

theorem Agrees.declaratorWord_eq (h : Agrees doc doc' s s') :
    s.declaratorWord = s'.declaratorWord := by
  unfold declaratorWord
  rcases rel_cases h.parent with ⟨hnone, hnone'⟩ | ⟨n, n', hn, hn', habove⟩
  · rw [hnone, hnone']
  · rw [hn, hn']
    dsimp only
    rw [habove.kind_eq]
    split_ifs with hlexical
    · rcases habove with hnode | ⟨-, hprogram⟩
      · have hagreement := Node.agreement hnode
        have hword : Option.Rel (fun c c' : Node ↦ c.agrees doc doc' c' = true)
            ((n.child? "kind").or n.children.head?) ((n'.child? "kind").or n'.children.head?) :=
          rel_or (rel_find? (fun c c' hc ↦ by rw [(Node.agreement hc).field_eq])
            hagreement.children) (rel_head? hagreement.children)
        rcases rel_cases hword with ⟨hnone, hnone'⟩ | ⟨w, w', hw, hw', hagrees⟩
        · rw [hnone, hnone']
        · rw [hw, hw', Option.map_some, Option.map_some, (Node.agreement hagrees).kind_eq]
      · rw [hprogram] at hlexical
        exact absurd hlexical (by decide)
    · rfl

theorem Agrees.loopWord?_eq (h : Agrees doc doc' s s') : s.loopWord? = s'.loopWord? := by
  have hkinds : (s.node.children.map fun c ↦ c.kind) = s'.node.children.map fun c ↦ c.kind :=
    map_eq_of_forall₂ (R := fun c c' : Node ↦ c.agrees doc doc' c' = true)
      (fun _ _ hc ↦ (Node.agreement hc).kind_eq) (Node.agreement h.node).children
  rw [loopWord?, hkinds, loopWord?]

theorem Agrees.parameterSites (h : Agrees doc doc' s s') :
    List.Forall₂ (Agrees doc doc') (s.parameterPattern?.toList.flatMap Site.boundIdentifiers)
      (s'.parameterPattern?.toList.flatMap Site.boundIdentifiers) :=
  forall₂_boundIdentifiers (rel_toList (rel_or (h.child? "pattern") (rel_head? h.namedChildren)))

/-- Declaring agreeing sites says the same. -/
theorem map_declareAll_eq (destination : Destination) (kind : String) {l l' : List Site}
    (h : List.Forall₂ (Agrees doc doc') l l') :
    ((declareAll destination kind l).map fun d ↦
        Event.declares d.destination (doc.nameOf d.identifier.node)) =
      (declareAll destination kind l').map fun d ↦
        Event.declares d.destination (doc'.nameOf d.identifier.node) := by
  unfold declareAll
  rw [List.map_map, List.map_map]
  exact map_eq_of_forall₂ (fun c c' hc ↦ congrArg (Event.declares destination) hc.nameOf_eq) h

theorem map_ite_declareAll_eq (condition : Bool) (destination : Destination) (kind : String)
    {l l' : List Site} (h : List.Forall₂ (Agrees doc doc') l l') :
    ((if condition = true then declareAll destination kind l else []).map fun d ↦
        Event.declares d.destination (doc.nameOf d.identifier.node)) =
      (if condition = true then declareAll destination kind l' else []).map fun d ↦
        Event.declares d.destination (doc'.nameOf d.identifier.node) := by
  split_ifs
  · exact map_declareAll_eq destination kind h
  · rfl

/-- What a site declares by one of the cases, an agreeing site declares by the same case. -/
theorem Agrees.exists_declares (h : Agrees doc doc' s s') {ds : List Declaration}
    (hds : s.Declares ds) :
    ∃ ds', s'.Declares ds' ∧
      (ds.map fun d ↦ Event.declares d.destination (doc.nameOf d.identifier.node)) =
        ds'.map fun d ↦ Event.declares d.destination (doc'.nameOf d.identifier.node) := by
  have hfunction : s.grandparent?.any Node.isFunction = s'.grandparent?.any Node.isFunction :=
    any_eq_of_agreesAbove (fun n n' hkind ↦ by
      rw [Node.isFunction, Node.isFunction, Node.isAmong, Node.isAmong, hkind]) h.grandparent
  have howner : (s.grandparent?.any fun owner ↦ owner.isFunction || owner.isClass) =
      s'.grandparent?.any fun owner ↦ owner.isFunction || owner.isClass :=
    any_eq_of_agreesAbove (fun n n' hkind ↦ by
      simp only [Node.isFunction, Node.isClass, Node.isAmong, hkind]) h.grandparent
  cases hds with
  | imports hkind =>
    exact ⟨_, .imports (h.kind_eq ▸ hkind), map_declareAll_eq _ _ h.importedSites⟩
  | declarator hkind =>
    rw [h.declaratorWord_eq]
    exact ⟨_, .declarator (h.kind_eq ▸ hkind), map_declareAll_eq _ _ (h.patternSites "name")⟩
  | parameters hkind =>
    rw [hfunction]
    exact ⟨_, .parameters (h.kind_eq ▸ hkind), map_ite_declareAll_eq _ _ _ h.parameterSites⟩
  | soleParameter hkind =>
    exact ⟨_, .soleParameter (h.kind_eq ▸ hkind), map_declareAll_eq _ _ (h.fieldSites "parameter")⟩
  | caught hkind =>
    exact ⟨_, .caught (h.kind_eq ▸ hkind), map_declareAll_eq _ _ (h.patternSites "parameter")⟩
  | functionName hkind =>
    exact ⟨_, .functionName (h.kind_eq ▸ hkind), map_declareAll_eq _ _ (h.fieldSites "name")⟩
  | className hkind =>
    refine ⟨_, .className (h.kind_eq ▸ hkind), ?_⟩
    rw [List.map_append, List.map_append, map_declareAll_eq _ _ (h.fieldSites "name"),
      map_declareAll_eq _ _ (h.fieldSites "name")]
  | ownName hname =>
    exact ⟨_, .ownName (h.kind_eq ▸ hname), map_declareAll_eq _ _ (h.fieldSites "name")⟩
  | loopVariables hkind hword =>
    exact ⟨_, .loopVariables (h.kind_eq ▸ hkind) (h.loopWord?_eq ▸ hword),
      map_declareAll_eq _ _ (h.patternSites "left")⟩
  | loopTarget hkind hword =>
    exact ⟨[], .loopTarget (h.kind_eq ▸ hkind) (h.loopWord?_eq ▸ hword), rfl⟩
  | typeParameter hkind =>
    rw [howner]
    exact ⟨_, .typeParameter (h.kind_eq ▸ hkind),
      map_ite_declareAll_eq _ _ _ (h.fieldSites "name")⟩
  | namespaceName hkind =>
    exact ⟨_, .namespaceName (h.kind_eq ▸ hkind), map_declareAll_eq _ _
      (forall₂_filter (fun _ _ hc ↦ by rw [hc.kind_eq]) (h.fieldSites "name"))⟩
  | nothing hkind => exact ⟨[], .nothing (h.kind_eq ▸ hkind), rfl⟩

/-- Agreeing sites declare the same names for the same destinations. -/
theorem Agrees.declared_eq (h : Agrees doc doc' s s') : s.declared doc = s'.declared doc' := by
  unfold declared
  by_cases hnamed : s.node.named = true
  · obtain ⟨ds', hds', heq⟩ := h.exists_declares (declares_declarations hnamed)
    rw [heq, hds'.declarations_eq (h.named_eq ▸ hnamed)]
  · rw [declarations_of_not_named hnamed, declarations_of_not_named (h.named_eq ▸ hnamed)]
    rfl

/-! ### Agreeing candidates -/

theorem Agrees.object? (h : Agrees doc doc' s s') :
    Option.Rel (Agrees doc doc') s.object? s'.object? :=
  rel_or (h.child? "object") (rel_head? h.namedChildren)

theorem Agrees.memberRoot (s : Site) : ∀ s', Agrees doc doc' s s' →
    Option.Rel (Agrees doc doc') s.memberRoot s'.memberRoot := by
  induction s using inductionOn with
  | step s ih =>
    intro s' h
    rw [memberRoot_eq s, memberRoot_eq s', ← h.kind_eq]
    split_ifs
    · rcases rel_cases h.object? with ⟨hnone, hnone'⟩ | ⟨c, c', hc, hc', hagrees⟩
      · rw [hnone, hnone']
        exact .none
      · rw [hc, hc']
        exact ih c (object?_mem_children hc) c' hagrees
    · exact .some h
    · exact .none

/-- The tag of an agreeing element brings in the same uses. -/
theorem Agrees.map_candidates_tag_eq (h : Agrees doc doc' s s') :
    (((Jsx.tagOf doc s).candidates doc).map fun c ↦ Event.uses c.name c.role) =
      ((Jsx.tagOf doc' s').candidates doc').map fun c ↦ Event.uses c.name c.role := by
  unfold Jsx.tagOf
  rcases rel_cases (h.child? "name") with ⟨hnone, hnone'⟩ | ⟨c, c', hc, hc', hname⟩
  · rw [hnone, hnone']
    rfl
  · rw [hc, hc', Jsx.Tag.ofName, Jsx.Tag.ofName, ← hname.kind_eq, ← hname.nameOf_eq]
    split_ifs
    · rw [Jsx.Tag.candidates, Jsx.Tag.candidates]
      split_ifs <;> rfl
    · rcases rel_cases (Agrees.memberRoot c c' hname) with ⟨hnone, hnone'⟩ | ⟨r, r', hr, hr', hroot⟩
      · rw [← Site.memberRoot, ← Site.memberRoot, hnone, hnone']
        rfl
      · rw [← Site.memberRoot, ← Site.memberRoot, hr, hr', Jsx.Tag.candidates, Jsx.Tag.candidates,
          hroot.nameOf_eq]
        rfl
    · rfl

theorem Agrees.directive? (h : Agrees doc doc' s s') :
    Option.Rel (Agrees doc doc') (Jsx.directive? doc s) (Jsx.directive? doc' s') := by
  unfold Jsx.directive?
  have hfirst := h.namedChildren
  generalize s.namedChildren = l at hfirst
  generalize s'.namedChildren = l' at hfirst
  cases hfirst with
  | nil => exact .none
  | @cons full full' _ _ hfull _ =>
    dsimp only
    rw [← hfull.kind_eq]
    split_ifs
    · have hparts := hfull.namedChildren
      generalize full.namedChildren = parts at hparts
      generalize full'.namedChildren = parts' at hparts
      rcases hparts with _ | ⟨hspace, _ | ⟨hname, _ | _⟩⟩
      · exact .none
      · exact .none
      · dsimp only
        rw [← hspace.kind_eq, ← hspace.nameOf_eq, ← hname.kind_eq]
        split_ifs
        · exact .some hname
        · exact .none
      · exact .none
    · exact .none

theorem Agrees.used_eq (h : Agrees doc doc' s s') : s.used doc = s'.used doc' := by
  unfold used Jsx.candidatesAt Jsx.isElement
  rw [← h.kind_eq]
  split_ifs
  · exact h.map_candidates_tag_eq
  · rw [List.map_map, List.map_map]
    exact map_eq_of_forall₂
      (fun _ _ hname ↦ congrArg (Event.uses · .customDirective) hname.nameOf_eq)
      (rel_toList h.directive?)
  · rfl

/-- Agreeing sites have the same trace. -/
theorem trace_eq_of_agrees (s : Site) : ∀ s', Agrees doc doc' s s' →
    s.trace doc = s'.trace doc' := by
  induction s using inductionOn with
  | step s ih =>
    intro s' h
    have hinner : ∀ {cs cs' : List Site}, List.Forall₂ (Agrees doc doc') cs cs' →
        (∀ c ∈ cs, c ∈ s.children) → cs.flatMap (trace doc) = cs'.flatMap (trace doc') := by
      intro cs cs' hcs
      induction hcs with
      | nil => intro _; rfl
      | @cons c c' cs cs' hc _ ihcs =>
        intro hmem
        rw [List.flatMap_cons, List.flatMap_cons, ih c (hmem c List.mem_cons_self) c' hc,
          ihcs fun d hd ↦ hmem d (List.mem_cons_of_mem _ hd)]
    rw [trace_eq, trace_eq, h.declared_eq, h.used_eq, innerTrace, innerTrace,
      hinner h.children fun _ hc ↦ hc, bracketed, bracketed, h.opensScope_eq, h.scopeKind_eq]

end Agreement

end Site

end TagScope
