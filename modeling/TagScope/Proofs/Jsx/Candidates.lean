import TagScope.Jsx.Candidate
import TagScope.Proofs.Scope.Places

/-!
# Where candidates stand

`Brings` says, without the extraction, which sites an element or an attribute brings in and in what
role: the name of a component, the leftmost part of a member tag, the name of a directive. The
extraction finds just these (`mem_candidatesAt_iff`), at most one for each node of markup
(`candidatesAt_eq_singleton`).

A candidate stands inside the node that brings it in, with no boundary in between: the nodes on the
way are names and parts of names, which open no scope (`sameScope_of_mem_candidatesAt`). So all
candidates of a document stand in its tree (`within_of_mem_candidates`), and the scopes around a
candidate are those around its element or attribute.
-/

set_option autoImplicit false

namespace TagScope

namespace Site

/-! ### Member expressions -/

/-- The leftmost part of the member expression at a site. -/
def memberRoot (s : Site) : Option Site :=
  s.node.memberRoot s.above

/-- The part of a member expression that stands left of the last dot. -/
def object? (s : Site) : Option Site :=
  (s.child? "object").or s.namedChildren.head?

theorem memberRootOfObject_eq (parent : Node) (above : Ascent) (cs : List Node) :
    ∀ index, Node.memberRootOfObject parent above index cs =
      ((childSites parent above index cs).find? fun c ↦
        c.node.field = some "object").map memberRoot := by
  induction cs with
  | nil => intro index; rw [Node.memberRootOfObject]; rfl
  | cons c rest ih =>
    intro index
    rw [Node.memberRootOfObject, childSites_cons, List.find?_cons, ih]
    by_cases hfield : c.field = some "object"
    · simp only [hfield, decide_true, if_true]
      rfl
    · simp only [hfield, decide_false, if_false]

theorem memberRootOfNamed_eq (parent : Node) (above : Ascent) (cs : List Node) :
    ∀ index, Node.memberRootOfNamed parent above index cs =
      ((childSites parent above index cs).filter fun c ↦ c.node.named).head?.bind memberRoot := by
  induction cs with
  | nil => intro index; rw [Node.memberRootOfNamed]; rfl
  | cons c rest ih =>
    intro index
    rw [Node.memberRootOfNamed, childSites_cons, List.filter_cons, ih]
    by_cases hnamed : c.named = true
    · rw [if_pos hnamed, if_pos hnamed]
      rfl
    · rw [if_neg hnamed, if_neg hnamed]

/-- The leftmost part of a member expression is that of its object. -/
theorem memberRoot_eq (s : Site) :
    s.memberRoot =
      if ["member_expression", "nested_identifier"].contains s.node.kind then
        s.object?.bind memberRoot
      else if ["identifier", "this"].contains s.node.kind then some s
      else none := by
  obtain ⟨⟨label, cs⟩, above⟩ := s
  rw [memberRoot, Node.memberRoot, memberRootOfObject_eq, memberRootOfNamed_eq]
  have hobject : ∀ field first : Option Site,
      (field.map memberRoot).getD (first.bind memberRoot) = (field.or first).bind memberRoot := by
    intro field first
    cases field <;> rfl
  rw [hobject]
  rfl

theorem mem_children_of_child?_or {s c : Site} {field : String}
    (h : (s.child? field).or s.namedChildren.head? = some c) : c ∈ s.children := by
  rcases Option.or_eq_some_iff.mp h with h | ⟨-, h⟩
  · exact List.mem_of_find?_eq_some h
  · exact (List.mem_filter.mp (List.mem_of_head? h)).1

theorem object?_mem_children {s c : Site} (h : s.object? = some c) : c ∈ s.children :=
  mem_children_of_child?_or h

def isMember (s : Site) : Bool :=
  ["member_expression", "nested_identifier"].contains s.node.kind

/-- Whether a site is a name that a member expression can begin with. -/
def isMemberRoot (s : Site) : Bool :=
  ["identifier", "this"].contains s.node.kind

/-- A site is reached from a member expression through one or more member expressions, each of which
is left for its object. -/
inductive LeadsTo : Site → Site → Prop
  | object {s x : Site} : s.isMember = true → s.object? = some x → LeadsTo s x
  | through {s object x : Site} :
      s.isMember = true → s.object? = some object → LeadsTo object x → LeadsTo s x

theorem LeadsTo.isMember {s x : Site} (h : LeadsTo s x) : s.isMember = true := by
  cases h <;> assumption

theorem memberRoot_of_isMember {s : Site} (h : s.isMember = true) :
    s.memberRoot = s.object?.bind memberRoot := by
  rw [memberRoot_eq]
  exact if_pos h

theorem memberRoot_of_not_isMember {s : Site} (h : ¬ s.isMember = true) :
    s.memberRoot = if s.isMemberRoot then some s else none := by
  rw [memberRoot_eq]
  exact if_neg h

theorem not_isMember_of_isMemberRoot {s : Site} (h : s.isMemberRoot = true) :
    ¬ s.isMember = true := by
  simp only [isMemberRoot, List.contains_iff_mem, List.mem_cons, List.not_mem_nil, or_false] at h
  rcases h with h | h <;> simp [isMember, h]

theorem leadsTo_of_memberRoot {s : Site} (hs : s.isMember = true) :
    ∀ {x : Site}, s.memberRoot = some x → LeadsTo s x ∧ x.isMemberRoot = true := by
  induction s using inductionOn with
  | step s ih =>
    intro x h
    rw [memberRoot_of_isMember hs] at h
    obtain ⟨object, hobject, hroot⟩ := Option.bind_eq_some_iff.mp h
    by_cases hmember : object.isMember = true
    · obtain ⟨hleads, hx⟩ := ih object (object?_mem_children hobject) hmember hroot
      exact ⟨.through hs hobject hleads, hx⟩
    · rw [memberRoot_of_not_isMember hmember] at hroot
      split_ifs at hroot with hname
      obtain rfl := Option.some.inj hroot
      exact ⟨.object hs hobject, hname⟩

theorem LeadsTo.memberRoot_eq {s x : Site} (h : LeadsTo s x) (hx : x.isMemberRoot = true) :
    s.memberRoot = some x := by
  induction h with
  | object hs hobject =>
    rw [memberRoot_of_isMember hs, hobject, Option.bind_some,
      memberRoot_of_not_isMember (not_isMember_of_isMemberRoot hx), if_pos hx]
  | through hs hobject _ ih => rw [memberRoot_of_isMember hs, hobject, Option.bind_some, ih hx]

/-- The leftmost part of a member expression is the name to which its objects lead. -/
theorem memberRoot_eq_some_iff {s x : Site} (hs : s.isMember = true) :
    s.memberRoot = some x ↔ LeadsTo s x ∧ x.isMemberRoot = true :=
  ⟨leadsTo_of_memberRoot hs, fun h ↦ h.1.memberRoot_eq h.2⟩

/-! ### Names that open no scope -/

/-- A site inside another one with the same scopes around it. -/
structure SameScope (top s : Site) : Prop where
  within : Within top s
  chain_eq : ∀ sourceType, s.chain sourceType = top.chain sourceType

theorem SameScope.trans {top middle s : Site} (htop : SameScope top middle)
    (h : SameScope middle s) : SameScope top s where
  within := htop.within.trans h.within
  chain_eq sourceType := (h.chain_eq sourceType).trans (htop.chain_eq sourceType)

/-- The kinds of nodes that names in JSX are made of. -/
def nameKinds : List String :=
  ["identifier", "this", "member_expression", "nested_identifier", "jsx_namespace_name"]

theorem opensScope_eq_false {s : Site} (h : s.node.kind ∈ nameKinds) : s.opensScope = false := by
  simp only [nameKinds, List.mem_cons, List.not_mem_nil, or_false] at h
  rcases h with h | h | h | h | h <;>
    simp [opensScope, Node.isFunction, Node.isClass, Node.isAmong, h, Kind.functions, Kind.classes,
      Kind.loops]

theorem sameScope_of_mem_children {s c : Site} (hc : c ∈ s.children)
    (hkind : c.node.kind ∈ nameKinds) : SameScope s c where
  within := Within.refl.child hc
  chain_eq sourceType := by
    rw [chain_of_mem_children hc, if_neg (by rw [opensScope_eq_false hkind]; decide)]

theorem kind_mem_nameKinds_of_isMember {s : Site} (h : s.isMember = true) :
    s.node.kind ∈ nameKinds := by
  simp only [isMember, List.contains_iff_mem] at h
  exact List.mem_of_mem_drop (i := 2) (List.mem_append_left ["jsx_namespace_name"] h)

theorem kind_mem_nameKinds_of_isMemberRoot {s : Site} (h : s.isMemberRoot = true) :
    s.node.kind ∈ nameKinds := by
  simp only [isMemberRoot, List.contains_iff_mem] at h
  exact List.mem_append_left ["member_expression", "nested_identifier", "jsx_namespace_name"] h

/-- A name to which a member expression leads has the scopes of the expression around it. -/
theorem LeadsTo.sameScope {s x : Site} (h : LeadsTo s x) (hx : x.node.kind ∈ nameKinds) :
    SameScope s x := by
  induction h with
  | object _ hobject => exact sameScope_of_mem_children (object?_mem_children hobject) hx
  | through _ hobject hleads ih =>
    exact (sameScope_of_mem_children (object?_mem_children hobject)
      (kind_mem_nameKinds_of_isMember hleads.isMember)).trans (ih hx)

end Site

namespace Jsx

variable {doc : Document}

/-! ### What a node brings in -/

/-- A node of markup brings in a site as a candidate: an element its name, if it is an identifier
that does not start with a small letter, or the name to which its member tag leads, and an attribute
the second part of its name, if it has two and the first is `use`. -/
inductive Brings (doc : Document) : Site → Site → Role → Prop
  | component {e x : Site} : isElement e = true → e.child? "name" = some x →
      x.node.kind = "identifier" →
      (∀ letter ∈ (doc.nameOf x.node).toList.head?, ¬ ('a' ≤ letter ∧ letter ≤ 'z')) →
        Brings doc e x .component
  | member {e name x : Site} : isElement e = true → e.child? "name" = some name →
      name.LeadsTo x → x.isMemberRoot = true → Brings doc e x .identifier
  | directive {a full space x : Site} : a.node.kind = "jsx_attribute" →
      a.namedChildren.head? = some full → full.node.kind = "jsx_namespace_name" →
      full.namedChildren = [space, x] → space.node.kind = "identifier" →
      x.node.kind = "identifier" → doc.nameOf space.node = "use" →
        Brings doc a x .customDirective

theorem isHostName_eq_false_iff (name : String) :
    isHostName name = false ↔ ∀ letter ∈ name.toList.head?, ¬ ('a' ≤ letter ∧ letter ≤ 'z') := by
  unfold isHostName
  cases name.toList with
  | nil => simp
  | cons letter rest =>
    rw [List.head?_cons, Bool.and_eq_false_iff]
    simp only [Option.mem_some_iff, forall_eq', decide_eq_false_iff_not, not_and_or]

theorem directive?_eq_some_iff {s x : Site} :
    directive? doc s = some x ↔
      ∃ full space : Site, s.namedChildren.head? = some full ∧
        full.node.kind = "jsx_namespace_name" ∧ full.namedChildren = [space, x] ∧
        space.node.kind = "identifier" ∧ x.node.kind = "identifier" ∧
        doc.nameOf space.node = "use" := by
  constructor
  · intro h
    unfold directive? at h
    split at h
    next full others hfirst =>
      split_ifs at h with hfull
      split at h
      next space name hparts =>
        split_ifs at h with hkinds
        obtain rfl := Option.some.inj h
        simp only [Bool.and_eq_true, decide_eq_true_eq] at hkinds
        exact ⟨full, space, by rw [hfirst, List.head?_cons], hfull, hparts, hkinds.1.1, hkinds.1.2,
          hkinds.2⟩
      next => cases h
    next => cases h
  · rintro ⟨full, space, hfull, hkind, hparts, hspace, hx, huse⟩
    obtain ⟨others, hfirst⟩ := List.head?_eq_some_iff.mp hfull
    simp [directive?, hfirst, hkind, hparts, hspace, hx, huse, directiveNamespace]

/-- What is brought in is all that the extraction finds at a node. -/
theorem Brings.candidatesAt_eq {s x : Site} {role : Role} (h : Brings doc s x role) :
    candidatesAt doc s = [⟨doc.nameOf x.node, role, x⟩] := by
  cases h with
  | component helement hname hkind hletter =>
    have hhost := (isHostName_eq_false_iff _).mpr hletter
    rw [candidatesAt, if_pos helement, tagOf, hname, Tag.ofName, if_pos hkind, Tag.candidates,
      hhost, if_neg Bool.false_ne_true]
  | @member name _ helement hname hleads hx =>
    have hmember : ["member_expression", "nested_identifier"].contains name.node.kind = true :=
      hleads.isMember
    have hkind : name.node.kind ≠ "identifier" := by
      intro hkind
      simp [hkind] at hmember
    have hroot : name.node.memberRoot name.above = some x :=
      (Site.memberRoot_eq_some_iff hleads.isMember).mpr ⟨hleads, hx⟩
    rw [candidatesAt, if_pos helement, tagOf, hname, Tag.ofName, if_neg hkind, if_pos hmember,
      hroot, Tag.candidates]
  | @directive full space _ hattribute hfull hkind hparts hspace hx huse =>
    have hdirective : directive? doc s = some x :=
      directive?_eq_some_iff.mpr ⟨full, space, hfull, hkind, hparts, hspace, hx, huse⟩
    rw [candidatesAt, if_neg (by simp [isElement, hattribute]), if_pos hattribute, hdirective]
    rfl

theorem brings_of_mem_tag {e : Site} {c : Candidate} (he : isElement e = true)
    (h : c ∈ (tagOf doc e).candidates doc) :
    c.name = doc.nameOf c.site.node ∧ Brings doc e c.site c.role := by
  unfold tagOf at h
  cases hname : e.child? "name" with
  | none => rw [hname] at h; simp [Tag.ofName, Tag.candidates] at h
  | some name =>
    rw [hname, Tag.ofName] at h
    split_ifs at h with hidentifier hmember
    · rw [Tag.candidates] at h
      split_ifs at h with hhost
      · simp at h
      · obtain rfl := List.mem_singleton.mp h
        exact ⟨rfl, .component he hname hidentifier
          ((isHostName_eq_false_iff _).mp (Bool.eq_false_iff.mpr hhost))⟩
    · cases hroot : name.memberRoot with
      | none => rw [← Site.memberRoot, hroot] at h; simp [Tag.candidates] at h
      | some root =>
        rw [← Site.memberRoot, hroot] at h
        obtain rfl := List.mem_singleton.mp h
        obtain ⟨hleads, hx⟩ := (Site.memberRoot_eq_some_iff hmember).mp hroot
        exact ⟨rfl, .member he hname hleads hx⟩
    · simp [Tag.candidates] at h

/-- The extraction finds at a node just what the node brings in. -/
theorem mem_candidatesAt_iff {s : Site} {c : Candidate} :
    c ∈ candidatesAt doc s ↔ c.name = doc.nameOf c.site.node ∧ Brings doc s c.site c.role := by
  constructor
  · intro h
    unfold candidatesAt at h
    split_ifs at h with helement hattribute
    · exact brings_of_mem_tag helement h
    · obtain ⟨name, hname, rfl⟩ := List.mem_map.mp h
      obtain ⟨full, space, hfull, hkind, hparts, hspace, hx, huse⟩ :=
        directive?_eq_some_iff.mp (Option.mem_toList.mp hname)
      exact ⟨rfl, .directive hattribute hfull hkind hparts hspace hx huse⟩
    · simp at h
  · rintro ⟨hname, hbrings⟩
    rw [hbrings.candidatesAt_eq, List.mem_singleton, ← hname]

theorem candidatesAt_eq_singleton {s : Site} {c : Candidate} (h : c ∈ candidatesAt doc s) :
    candidatesAt doc s = [c] := by
  obtain ⟨hname, hbrings⟩ := mem_candidatesAt_iff.mp h
  rw [hbrings.candidatesAt_eq, ← hname]

/-! ### Scopes around a candidate -/

theorem Brings.sameScope {s x : Site} {role : Role} (h : Brings doc s x role) :
    Site.SameScope s x := by
  cases h with
  | component _ hname hkind _ =>
    exact Site.sameScope_of_mem_children (List.mem_of_find?_eq_some hname)
      (by rw [hkind]; decide)
  | member _ hname hleads hx =>
    exact (Site.sameScope_of_mem_children (List.mem_of_find?_eq_some hname)
      (Site.kind_mem_nameKinds_of_isMember hleads.isMember)).trans
        (hleads.sameScope (Site.kind_mem_nameKinds_of_isMemberRoot hx))
  | @directive full space _ _ hfull hfullKind hparts _ hkind _ =>
    have hmem : full ∈ s.children := (List.mem_filter.mp (List.mem_of_head? hfull)).1
    have hx : x ∈ full.namedChildren := by rw [hparts]; simp
    exact (Site.sameScope_of_mem_children hmem (by rw [hfullKind]; decide)).trans
      (Site.sameScope_of_mem_children (List.mem_filter.mp hx).1 (by rw [hkind]; decide))

/-- A candidate has the scopes around it that are around the node that brings it in. -/
theorem sameScope_of_mem_candidatesAt {s : Site} {c : Candidate} (h : c ∈ candidatesAt doc s) :
    Site.SameScope s c.site :=
  (mem_candidatesAt_iff.mp h).2.sameScope

/-- The candidates of a document stand in its tree. -/
theorem within_of_mem_candidates {c : Candidate} (h : c ∈ candidates doc) :
    Site.Within (Site.root doc.root) c.site := by
  obtain ⟨s, hs, hc⟩ := List.mem_flatMap.mp h
  exact (Site.mem_sites_iff.mp hs).trans (sameScope_of_mem_candidatesAt hc).within

end Jsx

end TagScope
