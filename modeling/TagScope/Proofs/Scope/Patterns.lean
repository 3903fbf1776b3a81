import Mathlib.Data.List.Flatten
import Mathlib.Logic.Relation
import TagScope.Proofs.Scope.Trace

/-!
# What a pattern binds

A binding pattern is read by a recursion that stops at some kinds of nodes and turns into one field
of others. Here it is described from the side of the identifiers: `Passes` says which single steps
down a tree stay within a pattern, and an identifier is bound exactly if such steps lead to it
(`mem_boundIdentifiers_iff`). The identifiers come in the pre-order of the tree
(`boundIdentifiers_sublist`), so none is bound twice (`boundIdentifiers_exact`).
-/

set_option autoImplicit false

namespace TagScope

namespace Site

open Relation (ReflTransGen)

/-- An identifier that is bound where it stands in a pattern. -/
def IsBinder (s : Site) : Prop :=
  s.node.kind = "identifier" ∨ s.node.kind = "shorthand_property_identifier_pattern"

/-- A pattern with a default value. -/
def IsDefaulted (s : Site) : Prop :=
  s.node.kind = "assignment_pattern" ∨ s.node.kind = "object_assignment_pattern"

/-- A part of a pattern that binds nothing. -/
def IsSealed (s : Site) : Prop :=
  s.node.kind ∈ ["type_annotation", "member_expression", "subscript_expression", "call_expression",
    "property_identifier", "this"]

/-- One step down within a pattern: from a pair to its value, from a defaulted pattern to its left
side, and from any other node to one of its named children, unless the pattern ends there. -/
inductive Passes (s : Site) : Site → Prop
  | value {c : Site} : s.node.kind = "pair_pattern" → s.child? "value" = some c → Passes s c
  | left {c : Site} : s.IsDefaulted → s.child? "left" = some c → Passes s c
  | named {c : Site} : s.node.kind ≠ "pair_pattern" → ¬ s.IsDefaulted → ¬ s.IsBinder →
      ¬ s.IsSealed → c ∈ s.namedChildren → Passes s c

/-! ### One step -/

/-- What a node does for a pattern, by its kind. -/
theorem passage_cases (s : Site) :
    (s.IsBinder ∧ Pattern.passage s.node.kind = .bound) ∨
      (s.node.kind = "pair_pattern" ∧ Pattern.passage s.node.kind = .field "value") ∨
      (s.IsDefaulted ∧ Pattern.passage s.node.kind = .field "left") ∨
      (s.IsSealed ∧ Pattern.passage s.node.kind = .blocked) ∨
      (s.node.kind ≠ "pair_pattern" ∧ ¬ s.IsDefaulted ∧ ¬ s.IsBinder ∧ ¬ s.IsSealed ∧
        Pattern.passage s.node.kind = .named) := by
  have hbinder : Pattern.binderKinds.contains s.node.kind = true ↔ s.IsBinder := by
    simp [Pattern.binderKinds, IsBinder]
  have hdefaulted : Pattern.defaultedKinds.contains s.node.kind = true ↔ s.IsDefaulted := by
    simp [Pattern.defaultedKinds, IsDefaulted]
  have hsealed : Pattern.blockedKinds.contains s.node.kind = true ↔ s.IsSealed :=
    List.contains_iff_mem
  unfold Pattern.passage
  split_ifs with h₁ h₂ h₃ h₄
  · exact Or.inl ⟨hbinder.mp h₁, rfl⟩
  · exact Or.inr (Or.inl ⟨h₂, rfl⟩)
  · exact Or.inr (Or.inr (Or.inl ⟨hdefaulted.mp h₃, rfl⟩))
  · exact Or.inr (Or.inr (Or.inr (Or.inl ⟨hsealed.mp h₄, rfl⟩)))
  · exact Or.inr (Or.inr (Or.inr (Or.inr
      ⟨h₂, mt hdefaulted.mpr h₃, mt hbinder.mpr h₁, mt hsealed.mpr h₄, rfl⟩)))

/-- The children through which a pattern goes on. -/
def outlets (s : Site) : List Site :=
  match Pattern.passage s.node.kind with
  | .field name => (s.child? name).toList
  | .named => s.namedChildren
  | _ => []

theorem outlets_sublist_children (s : Site) : s.outlets.Sublist s.children := by
  rw [outlets]
  cases Pattern.passage s.node.kind with
  | bound => exact List.nil_sublist _
  | field name =>
    dsimp only
    cases hchild : s.child? name with
    | none => exact List.nil_sublist _
    | some c => exact List.singleton_sublist.mpr (List.mem_of_find?_eq_some hchild)
  | blocked => exact List.nil_sublist _
  | named => exact List.filter_sublist

theorem outlets_of_kind {s : Site} {kind name : String} (hkind : s.node.kind = kind)
    (hpassage : Pattern.passage kind = .field name) : s.outlets = (s.child? name).toList := by
  rw [outlets, hkind, hpassage]

theorem mem_outlets_iff {s c : Site} : c ∈ s.outlets ↔ s.Passes c := by
  constructor
  · intro h
    rcases passage_cases s with ⟨-, hpassage⟩ | ⟨hpair, hpassage⟩ | ⟨hdefaulted, hpassage⟩ |
      ⟨-, hpassage⟩ | ⟨hpair, hdefaulted, hbinder, hsealed, hpassage⟩
    all_goals rw [outlets, hpassage] at h
    · simp at h
    · exact .value hpair (Option.mem_toList.mp h)
    · exact .left hdefaulted (Option.mem_toList.mp h)
    · simp at h
    · exact .named hpair hdefaulted hbinder hsealed h
  · intro h
    cases h with
    | value hpair hchild =>
      rw [outlets_of_kind hpair rfl]
      exact Option.mem_toList.mpr hchild
    | left hdefaulted hchild =>
      rcases hdefaulted with hkind | hkind <;> rw [outlets_of_kind hkind rfl] <;>
        exact Option.mem_toList.mpr hchild
    | named hpair hdefaulted hbinder hsealed hchild =>
      rcases passage_cases s with ⟨h, -⟩ | ⟨h, -⟩ | ⟨h, -⟩ | ⟨h, -⟩ | ⟨-, -, -, -, hpassage⟩
      · exact absurd h hbinder
      · exact absurd h hpair
      · exact absurd h hdefaulted
      · exact absurd h hsealed
      · rwa [outlets, hpassage]

theorem passage_of_isBinder {s : Site} (h : s.IsBinder) :
    Pattern.passage s.node.kind = .bound := by
  rcases h with hkind | hkind <;> rw [hkind] <;> rfl

theorem outlets_of_isBinder {s : Site} (h : s.IsBinder) : s.outlets = [] := by
  rw [outlets, passage_of_isBinder h]

theorem boundIdentifiers_of_isBinder {s : Site} (h : s.IsBinder) : s.boundIdentifiers = [s] := by
  rw [boundIdentifiers_eq, passage_of_isBinder h]

theorem boundIdentifiers_of_not_isBinder {s : Site} (h : ¬ s.IsBinder) :
    s.boundIdentifiers = s.outlets.flatMap boundIdentifiers := by
  rw [boundIdentifiers_eq, outlets]
  rcases passage_cases s with ⟨hbinder, -⟩ | ⟨-, hpassage⟩ | ⟨-, hpassage⟩ | ⟨-, hpassage⟩ |
    ⟨-, -, -, -, hpassage⟩
  · exact absurd hbinder h
  all_goals rw [hpassage]
  rfl

/-! ### The whole way -/

/-- A binder is bound by exactly the patterns from which single steps lead to it. -/
theorem mem_boundIdentifiers_iff {p x : Site} :
    x ∈ p.boundIdentifiers ↔ x.IsBinder ∧ ReflTransGen Passes p x := by
  induction p using inductionOn with
  | step p ih =>
    rw [ReflTransGen.cases_head_iff]
    by_cases hbinder : p.IsBinder
    · have hends : ∀ c, ¬ p.Passes c := by
        intro c hpasses
        rw [← mem_outlets_iff, outlets_of_isBinder hbinder] at hpasses
        exact List.not_mem_nil hpasses
      rw [boundIdentifiers_of_isBinder hbinder, List.mem_singleton]
      constructor
      · rintro rfl
        exact ⟨hbinder, Or.inl rfl⟩
      · rintro ⟨-, heq | ⟨c, hpasses, -⟩⟩
        · exact heq.symm
        · exact absurd hpasses (hends c)
    · rw [boundIdentifiers_of_not_isBinder hbinder, List.mem_flatMap]
      constructor
      · rintro ⟨c, hc, hx⟩
        obtain ⟨hxbinder, hway⟩ := (ih c ((outlets_sublist_children p).mem hc)).mp hx
        exact ⟨hxbinder, Or.inr ⟨c, mem_outlets_iff.mp hc, hway⟩⟩
      · rintro ⟨hxbinder, rfl | ⟨c, hpasses, hway⟩⟩
        · exact absurd hxbinder hbinder
        · have hc := mem_outlets_iff.mpr hpasses
          exact ⟨c, hc, (ih c ((outlets_sublist_children p).mem hc)).mpr ⟨hxbinder, hway⟩⟩

theorem boundIdentifiers_sublist (p : Site) : p.boundIdentifiers.Sublist p.subtree := by
  induction p using inductionOn with
  | step p ih =>
    rw [subtree_eq]
    by_cases hbinder : p.IsBinder
    · rw [boundIdentifiers_of_isBinder hbinder]
      exact (List.nil_sublist _).cons_cons p
    · rw [boundIdentifiers_of_not_isBinder hbinder]
      have hbelow : (p.outlets.flatMap boundIdentifiers).Sublist (p.outlets.flatMap subtree) :=
        List.Sublist.flatMap_right _ fun c hc ↦ ih c ((outlets_sublist_children p).mem hc)
      exact (hbelow.trans ((outlets_sublist_children p).flatMap subtree)).cons p

/-- The identifiers of a pattern are the binders to which steps within the pattern lead, each once
and in the pre-order of the tree. -/
theorem boundIdentifiers_exact (p : Site) :
    p.boundIdentifiers.Sublist p.subtree ∧ (p.boundIdentifiers.map address).Nodup ∧
      ∀ x, x ∈ p.boundIdentifiers ↔ x.IsBinder ∧ ReflTransGen Passes p x := by
  refine ⟨boundIdentifiers_sublist p, ?_, fun x ↦ mem_boundIdentifiers_iff⟩
  exact (nodup_map_address_subtree p).sublist ((boundIdentifiers_sublist p).map address)

end Site

end TagScope
