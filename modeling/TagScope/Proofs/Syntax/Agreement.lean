import Mathlib.Data.List.Forall2
import TagScope.Document
import TagScope.Proofs.Syntax.Sites

/-!
# Agreement of two trees

Two nodes of two documents agree when they have the same kinds, fields, namings and texts all the
way down; only their spans may differ. Two sites agree when in addition their parents and
grandparents agree, or are both roots of programs (`Site.Agrees`): more of what lies above a site is
never looked at. Whatever is found by going down from agreeing sites agrees again.
-/

set_option autoImplicit false

namespace TagScope

/-! ### Related lists and options -/

section Related

variable {α β : Type} {R : α → β → Prop}

theorem rel_find? {p : α → Bool} {q : β → Bool} (hpq : ∀ a b, R a b → p a = q b) {l : List α}
    {l' : List β} (h : List.Forall₂ R l l') : Option.Rel R (l.find? p) (l'.find? q) := by
  induction h with
  | nil => exact .none
  | @cons a b l l' hab _ ih =>
    rw [List.find?_cons, List.find?_cons, ← hpq a b hab]
    cases p a with
    | true => exact .some hab
    | false => exact ih

theorem forall₂_filter {p : α → Bool} {q : β → Bool} (hpq : ∀ a b, R a b → p a = q b)
    {l : List α} {l' : List β} (h : List.Forall₂ R l l') :
    List.Forall₂ R (l.filter p) (l'.filter q) :=
  List.rel_filter (fun {a b} hab ↦ iff_of_eq (congrArg (· = true) (hpq a b hab))) h

theorem rel_head? {l : List α} {l' : List β} (h : List.Forall₂ R l l') :
    Option.Rel R l.head? l'.head? := by
  cases h with
  | nil => exact .none
  | cons hab _ => exact .some hab

theorem rel_cases {a : Option α} {b : Option β} (h : Option.Rel R a b) :
    a = none ∧ b = none ∨ ∃ x y, a = some x ∧ b = some y ∧ R x y := by
  cases h with
  | none => exact Or.inl ⟨rfl, rfl⟩
  | some hab => exact Or.inr ⟨_, _, rfl, rfl, hab⟩

theorem rel_toList {a : Option α} {b : Option β} (h : Option.Rel R a b) :
    List.Forall₂ R a.toList b.toList := by
  cases h with
  | none => exact .nil
  | some hab => exact .cons hab .nil

theorem rel_or {a c : Option α} {b d : Option β} (hab : Option.Rel R a b)
    (hcd : Option.Rel R c d) : Option.Rel R (a.or c) (b.or d) := by
  cases hab with
  | none => exact hcd
  | some hab => exact .some hab

theorem map_eq_of_forall₂ {γ : Type} {f : α → γ} {f' : β → γ} (hf : ∀ a b, R a b → f a = f' b)
    {l : List α} {l' : List β} (h : List.Forall₂ R l l') : l.map f = l'.map f' := by
  induction h with
  | nil => rfl
  | cons hab _ ih => rw [List.map_cons, List.map_cons, hf _ _ hab, ih]

theorem eq_map_of_forall₂ {f : α → β} {l : List α} {l' : List β} (h : List.Forall₂ R l l')
    (hf : ∀ a ∈ l, ∀ b, R a b → b = f a) : l' = l.map f := by
  induction h with
  | nil => rfl
  | cons hab _ ih =>
    rw [List.map_cons, hf _ List.mem_cons_self _ hab,
      ih fun a ha ↦ hf a (List.mem_cons_of_mem _ ha)]

end Related

/-! ### Nodes -/

mutual

/-- Whether two nodes of two documents agree in all but their spans. -/
def Node.agrees (doc doc' : Document) : Node → Node → Bool
  | n@⟨label, cs⟩, n' =>
    decide (label.kind = n'.kind ∧ label.named = n'.named ∧ label.field = n'.field ∧
      doc.bytesOf n = doc'.bytesOf n') && Node.agreesAll doc doc' cs n'.children

def Node.agreesAll (doc doc' : Document) : List Node → List Node → Bool
  | [], [] => true
  | c :: cs, c' :: cs' => c.agrees doc doc' c' && Node.agreesAll doc doc' cs cs'
  | _, _ => false

end

variable {doc doc' : Document}

theorem Node.forall₂_of_agreesAll {cs : List Node} :
    ∀ {cs' : List Node}, Node.agreesAll doc doc' cs cs' = true →
      List.Forall₂ (fun c c' ↦ c.agrees doc doc' c' = true) cs cs' := by
  induction cs with
  | nil =>
    intro cs' h
    cases cs' with
    | nil => exact .nil
    | cons c' cs' => simp [Node.agreesAll] at h
  | cons c cs ih =>
    intro cs' h
    cases cs' with
    | nil => simp [Node.agreesAll] at h
    | cons c' cs' =>
      rw [Node.agreesAll, Bool.and_eq_true] at h
      exact .cons h.1 (ih h.2)

/-- What agreeing nodes have in common. -/
structure Node.Agreement (doc doc' : Document) (n n' : Node) : Prop where
  kind_eq : n.kind = n'.kind
  named_eq : n.named = n'.named
  field_eq : n.field = n'.field
  bytesOf_eq : doc.bytesOf n = doc'.bytesOf n'
  children : List.Forall₂ (fun c c' ↦ c.agrees doc doc' c' = true) n.children n'.children

theorem Node.agreement {n n' : Node} (h : n.agrees doc doc' n' = true) :
    Node.Agreement doc doc' n n' := by
  obtain ⟨label, cs⟩ := n
  rw [Node.agrees, Bool.and_eq_true, decide_eq_true_eq] at h
  obtain ⟨⟨hkind, hnamed, hfield, hbytes⟩, hchildren⟩ := h
  exact ⟨hkind, hnamed, hfield, hbytes, Node.forall₂_of_agreesAll hchildren⟩

/-- What is asked of the nodes above two agreeing sites: they agree, or are roots of programs. -/
def Node.AgreesAbove (doc doc' : Document) (n n' : Node) : Prop :=
  n.agrees doc doc' n' = true ∨ n.kind = "program" ∧ n'.kind = "program"

theorem Node.AgreesAbove.kind_eq {n n' : Node} (h : Node.AgreesAbove doc doc' n n') :
    n.kind = n'.kind := by
  rcases h with h | ⟨h, h'⟩
  · exact (Node.agreement h).kind_eq
  · exact h.trans h'.symm

/-! ### Sites -/

namespace Site

structure Agrees (doc doc' : Document) (s s' : Site) : Prop where
  node : s.node.agrees doc doc' s'.node = true
  parent : Option.Rel (Node.AgreesAbove doc doc') s.parent? s'.parent?
  grandparent : Option.Rel (Node.AgreesAbove doc doc') s.grandparent? s'.grandparent?

variable {s s' : Site}

theorem Agrees.kind_eq (h : Agrees doc doc' s s') : s.node.kind = s'.node.kind :=
  (Node.agreement h.node).kind_eq

theorem Agrees.named_eq (h : Agrees doc doc' s s') : s.node.named = s'.node.named :=
  (Node.agreement h.node).named_eq

theorem Agrees.field_eq (h : Agrees doc doc' s s') : s.node.field = s'.node.field :=
  (Node.agreement h.node).field_eq

theorem Agrees.nameOf_eq (h : Agrees doc doc' s s') : doc.nameOf s.node = doc'.nameOf s'.node := by
  rw [Document.nameOf, Document.nameOf, (Node.agreement h.node).bytesOf_eq]

/-- Agreeing children of parents that agree, or are roots, stand at agreeing sites. -/
theorem forall₂_childSites {parent parent' : Node} {above above' : Ascent}
    (hparent : Node.AgreesAbove doc doc' parent parent')
    (habove : Option.Rel (Node.AgreesAbove doc doc') (above.head?.map Prod.snd)
      (above'.head?.map Prod.snd)) {cs cs' : List Node}
    (h : List.Forall₂ (fun c c' ↦ c.agrees doc doc' c' = true) cs cs') :
    ∀ index index', List.Forall₂ (Agrees doc doc') (childSites parent above index cs)
      (childSites parent' above' index' cs') := by
  induction h with
  | nil => intro index index'; exact .nil
  | cons hc _ ih => intro index index'; exact .cons ⟨hc, .some hparent, habove⟩ (ih _ _)

theorem Agrees.children (h : Agrees doc doc' s s') :
    List.Forall₂ (Agrees doc doc') s.children s'.children :=
  forall₂_childSites (Or.inl h.node) h.parent (Node.agreement h.node).children 0 0

theorem Agrees.namedChildren (h : Agrees doc doc' s s') :
    List.Forall₂ (Agrees doc doc') s.namedChildren s'.namedChildren :=
  forall₂_filter (fun _ _ hc ↦ hc.named_eq) h.children

theorem Agrees.child? (h : Agrees doc doc' s s') (field : String) :
    Option.Rel (Agrees doc doc') (s.child? field) (s'.child? field) :=
  rel_find? (fun _ _ hc ↦ by rw [hc.field_eq]) h.children

theorem Agrees.childOfKind? (h : Agrees doc doc' s s') (kind : String) :
    Option.Rel (Agrees doc doc') (s.childOfKind? kind) (s'.childOfKind? kind) :=
  rel_find? (fun _ _ hc ↦ by rw [hc.kind_eq]) h.children

end Site

end TagScope
