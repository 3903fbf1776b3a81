import TagScope.Proofs.Scope.Declarations
import TagScope.Proofs.Syntax.Sites
import TagScope.Scope.Analysis

/-!
# Scopes as places in a tree

Where a scope stands in a tree, without a graph and without a stack. A place is a kind of scope at
an address. The scopes around a site are read off the site and its ancestors alone: they are the
boundaries among them, innermost first, and then the scopes of the root (`chain`). The destination
of a declaration is an element of the chain of the declaring site (`Destination.place?`), and what
a site binds in the scope at a place follows from its own declarations (`contributions`). Every
declaration of a site below the root has a destination (`exists_place?_eq`).
-/

set_option autoImplicit false

namespace TagScope

/-- A kind of scope at an address. The root of a module has two scopes, which the kind tells
apart. -/
structure Place where
  kind : ScopeKind
  address : Address
deriving DecidableEq, Repr

def Scope.place (scope : Scope) : Place :=
  ⟨scope.kind, scope.block.elim [] Site.address⟩

namespace SourceType

/-- The scope that holds what is declared at the top level. -/
def rootPlace : SourceType → Place
  | .module => ⟨.module, []⟩
  | .script => ⟨.global, []⟩

/-- The scopes of the root, innermost first. -/
def rootPlaces : SourceType → List Place
  | .module => [⟨.module, []⟩, ⟨.global, []⟩]
  | .script => [⟨.global, []⟩]

theorem head?_rootPlaces (sourceType : SourceType) :
    sourceType.rootPlaces.head? = some sourceType.rootPlace := by
  cases sourceType <;> rfl

theorem address_of_mem_rootPlaces {sourceType : SourceType} {place : Place}
    (h : place ∈ sourceType.rootPlaces) : place.address = [] := by
  cases sourceType with
  | module =>
    rcases List.mem_cons.mp h with rfl | h
    · rfl
    · rw [List.mem_singleton.mp h]
  | script => rw [List.mem_singleton.mp h]

end SourceType

namespace Site

/-- Whether a site other than the root opens a scope. -/
def isBoundary (s : Site) : Bool :=
  !s.above.isEmpty && s.opensScope

def place (s : Site) : Place := ⟨s.scopeKind, s.address⟩

/-- The boundaries among a site and its ancestors, innermost first. -/
def enclosures (s : Site) : List Site :=
  (s :: s.ancestors).filter isBoundary

/-- The places of the scopes around a site, innermost first. -/
def chain (s : Site) (sourceType : SourceType) : List Place :=
  s.enclosures.map place ++ sourceType.rootPlaces

end Site

/-- The place of a destination, on the chain of the declaring site: the innermost scope, its parent,
or the first one that owns variables. -/
def Destination.place? (chain : List Place) : Destination → Option Place
  | .current => chain.head?
  | .enclosing => chain.tail.head?
  | .varOwner => chain.find? fun place ↦ place.kind.ownsVars

namespace Document

variable (doc : Document)

def bindingOf (declaration : Declaration) : Binding :=
  ⟨doc.nameOf declaration.identifier.node, declaration.kind, some declaration.identifier⟩

/-- Whether a declaration of a site binds a name in the scope at a place. -/
def bindsAt (chain : List Place) (place : Place) (declaration : Declaration) : Bool :=
  decide ((doc.bindingOf declaration).name ≠ "") &&
    decide (declaration.destination.place? chain = some place)

/-- What a site binds in the scope at a place, in order. -/
def contributions (sourceType : SourceType) (place : Place) (s : Site) : List Binding :=
  (s.declarations.filter (doc.bindsAt (s.chain sourceType) place)).map doc.bindingOf

end Document

/-! ### Chains -/

namespace Site

@[simp] theorem isBoundary_root (n : Node) : (Site.root n).isBoundary = false := rfl

theorem isBoundary_of_mem_children {p s : Site} (h : s ∈ p.children) :
    s.isBoundary = s.opensScope := by
  obtain ⟨index, -, habove⟩ := mem_children.mp h
  simp only [isBoundary, habove, List.isEmpty_cons, Bool.not_false, Bool.true_and]

/-- A boundary is its own innermost enclosure; any other site has those of its parent. -/
theorem enclosures_of_mem_children {p s : Site} (h : s ∈ p.children) :
    s.enclosures = if s.opensScope then s :: p.enclosures else p.enclosures := by
  rw [enclosures, ancestors_of_mem_children h, List.filter_cons, isBoundary_of_mem_children h]
  rfl

theorem chain_root (n : Node) (sourceType : SourceType) :
    (Site.root n).chain sourceType = sourceType.rootPlaces := rfl

theorem chain_of_mem_children {p s : Site} (h : s ∈ p.children) (sourceType : SourceType) :
    s.chain sourceType =
      if s.opensScope then s.place :: p.chain sourceType else p.chain sourceType := by
  rw [chain, enclosures_of_mem_children h]
  split_ifs
  · rfl
  · rfl

theorem within_of_mem_enclosures {n : Node} {s e : Site} (hs : Within (Site.root n) s)
    (h : e ∈ s.enclosures) : Within (Site.root n) e := by
  rcases List.mem_cons.mp (List.mem_filter.mp h).1 with rfl | hmem
  · exact hs
  · exact hs.of_mem_ancestors hmem

/-- A boundary opens neither a module scope nor a global scope. -/
theorem scopeKind_ne (s : Site) : s.scopeKind ≠ .module ∧ s.scopeKind ≠ .global := by
  unfold scopeKind
  split_ifs <;> exact ⟨by decide, by decide⟩

/-! ### Destinations -/

theorem exists_head?_chain (s : Site) (sourceType : SourceType) :
    ∃ place, (s.chain sourceType).head? = some place := by
  rw [chain, List.head?_append, sourceType.head?_rootPlaces]
  cases (s.enclosures.map place).head? with
  | none => exact ⟨_, rfl⟩
  | some place => exact ⟨place, rfl⟩

/-- Every chain ends in the global scope, which owns variables. -/
theorem exists_owner_chain (s : Site) (sourceType : SourceType) :
    ∃ place, (s.chain sourceType).find? (fun place ↦ place.kind.ownsVars) = some place := by
  refine Option.isSome_iff_exists.mp (List.find?_isSome.mpr ⟨⟨.global, []⟩, ?_, rfl⟩)
  refine List.mem_append_right _ ?_
  cases sourceType <;> simp [SourceType.rootPlaces]

/-- Every declaration of a site of a tree has a destination. -/
theorem exists_place?_eq {p s : Site} (hs : s ∈ p.children) (sourceType : SourceType)
    {d : Declaration} (h : d ∈ s.declarations) :
    ∃ place, d.destination.place? (s.chain sourceType) = some place := by
  cases hdestination : d.destination with
  | current => exact exists_head?_chain s sourceType
  | enclosing =>
    rw [chain_of_mem_children hs, if_pos (opensScope_of_enclosing h hdestination)]
    exact exists_head?_chain p sourceType
  | varOwner => exact exists_owner_chain s sourceType

end Site

end TagScope
