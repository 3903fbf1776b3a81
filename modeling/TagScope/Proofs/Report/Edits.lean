import Mathlib.Data.Prod.Lex
import TagScope.Proofs.Report.Order

/-!
# Edits made at once

Fixing a text applies its edits one after the other, from the end of the text backwards, with the
offsets that they have in the text as it was. `spliced` is the same text made in one go: the pieces
of the text between the ranges, with the replacements between them. An edit that ends before the
first range of a spliced text begins is just one more edit of it (`apply_spliced`), so whatever the
loop keeps, its output is spliced from the kept edits (`applySorted_eq_spliced`).

What the loop keeps is free of overlaps (`pairwise_kept`), begins with the edit that comes first in
the order of application, and conflicts with every edit that is left out
(`exists_conflict_of_not_mem_kept`). Edits are told apart by their numbers in the family, since two
may be equal. `fixedText_spliced` puts this together, and adds that the order of the diagnostics
does not matter where all ranges differ.
-/

set_option autoImplicit false

namespace TagScope

namespace Slice

variable {α : Type}

theorem clamp_of_le {length : Nat} {position : Int} (hnonneg : 0 ≤ position)
    (hle : position ≤ length) : clamp length position = position.toNat := by
  rw [clamp, if_neg (by omega)]
  omega

/-- A slice is cut in two at any position within it. -/
theorem between_append_between (xs : List α) {first middle last : Int} (hfirst : 0 ≤ first)
    (hmiddle : first ≤ middle) (hlast : middle ≤ last) (hlength : last ≤ xs.length) :
    between xs first middle ++ between xs middle last = between xs first last := by
  have hcut : xs.take middle.toNat = (xs.take last.toNat).take middle.toNat := by
    rw [List.take_take, Nat.min_eq_left (by omega)]
  rw [between, between, between, clamp_of_le hfirst (by omega), clamp_of_le (by omega) (by omega),
    clamp_of_le (by omega) hlength, hcut, ← List.drop_append_of_le_length, List.take_append_drop]
  rw [List.length_take, List.length_take]
  omega

theorem after_eq_between (xs : List α) (start : Int) :
    after xs start = between xs start xs.length := by
  rw [after, between, clamp_natCast, Nat.min_self, List.take_length]

theorem length_between_zero (xs : List α) {stop : Int} (hnonneg : 0 ≤ stop)
    (hle : stop ≤ xs.length) : (between xs 0 stop).length = stop.toNat := by
  rw [between, clamp_of_le hnonneg hle, clamp_of_le (Int.le_refl 0) (by omega)]
  simp only [Int.toNat_zero, List.drop_zero, List.length_take]
  omega

end Slice

namespace Edit

/-- The range of an edit lies within a text of a given length. -/
structure FitsIn (length : Nat) (e : Edit) : Prop where
  nonneg : 0 ≤ e.start
  ordered : e.start ≤ e.stop
  le_length : e.stop ≤ length

instance (length : Nat) (e : Edit) : Decidable (e.FitsIn length) :=
  decidable_of_iff (0 ≤ e.start ∧ e.start ≤ e.stop ∧ e.stop ≤ length)
    ⟨fun h ↦ ⟨h.1, h.2.1, h.2.2⟩, fun h ↦ ⟨h.nonneg, h.ordered, h.le_length⟩⟩

/-- Ranges are compared by their starts, and then by their ends. -/
def range (e : Edit) : Lex (Int × Int) := toLex (e.start, e.stop)

theorem appliesBefore_iff (a b : Edit) : appliesBefore a b = true ↔ b.range ≤ a.range := by
  rw [range, range, Prod.Lex.le_iff]
  simp only [appliesBefore, Bool.or_eq_true, Bool.and_eq_true, decide_eq_true_eq, ofLex_toLex]
  rw [eq_comm]

/-! ### Splicing -/

/-- The text from a position on, with edits in ascending order made at once. -/
def spliced (text : List Char) (reached : Int) : List Edit → List Char
  | [] => Slice.after text reached
  | e :: rest => Slice.between text reached e.start ++ e.text.toList ++ spliced text e.stop rest

variable {text : List Char}

/-- Up to the first range a spliced text is the text itself. -/
theorem spliced_eq_append {first middle : Int} (hfirst : 0 ≤ first) (hmiddle : first ≤ middle)
    (hlength : middle ≤ text.length) {edits : List Edit}
    (hedits : ∀ e ∈ edits.head?, middle ≤ e.start ∧ e.FitsIn text.length) :
    spliced text first edits = Slice.between text first middle ++ spliced text middle edits := by
  cases edits with
  | nil =>
    rw [spliced, spliced, Slice.after_eq_between, Slice.after_eq_between,
      Slice.between_append_between text hfirst hmiddle hlength (Int.le_refl _)]
  | cons e rest =>
    obtain ⟨hle, hfits⟩ := hedits e rfl
    have hstart := hfits.ordered.trans hfits.le_length
    rw [spliced, spliced, ← Slice.between_append_between text hfirst hmiddle hle hstart]
    simp only [List.append_assoc]

/-- An edit that ends before the first range of a spliced text begins is one more edit of it. -/
theorem apply_spliced {e : Edit} (hfits : e.FitsIn text.length) {applied : List Edit}
    (happlied : ∀ a ∈ applied.head?, e.stop ≤ a.start ∧ a.FitsIn text.length) :
    e.apply (spliced text 0 applied) = spliced text 0 (e :: applied) := by
  have hstop : 0 ≤ e.stop := hfits.nonneg.trans hfits.ordered
  have hcut := spliced_eq_append (Int.le_refl 0) hstop hfits.le_length happlied
  have hlength := Slice.length_between_zero text hstop hfits.le_length
  have hle : e.stop ≤ (spliced text 0 applied).length := by
    rw [hcut, List.length_append, hlength]
    omega
  have hbefore : Slice.upTo (spliced text 0 applied) e.start = Slice.between text 0 e.start := by
    have hsplit := Slice.between_append_between text (Int.le_refl 0) hfits.nonneg hfits.ordered
      hfits.le_length
    have hstart := Slice.length_between_zero text hfits.nonneg
      (hfits.ordered.trans hfits.le_length)
    rw [Slice.upTo, Slice.clamp_of_le hfits.nonneg (hfits.ordered.trans hle), hcut, ← hsplit,
      List.append_assoc, ← hstart, List.take_left]
  have hafter : Slice.after (spliced text 0 applied) e.stop = spliced text e.stop applied := by
    rw [Slice.after, Slice.clamp_of_le hstop hle, hcut, ← hlength, List.drop_left]
  rw [apply, Slice.splice, hbefore, hafter, spliced]

/-! ### The edits that are kept -/

/-- What the loop applies of a sorted family of numbered edits. `reached` is the start of the last
edit applied. -/
def kept (reached : Option Int) : List (Edit × Nat) → List (Edit × Nat)
  | [] => []
  | e :: rest =>
    if reached.any fun start ↦ decide (start < e.1.stop) then kept reached rest
    else e :: kept (some e.1.start) rest

theorem any_eq_true_iff {reached : Option Int} {stop : Int} :
    (reached.any fun start ↦ decide (start < stop)) = true ↔ ∃ start ∈ reached, start < stop := by
  cases reached <;> simp

/-- Applied to a spliced text, the loop splices in what it keeps. -/
theorem applySorted_eq_spliced (edits : List (Edit × Nat)) :
    ∀ applied : List Edit, (∀ e ∈ edits, e.1.FitsIn text.length) →
      (∀ a ∈ applied, a.FitsIn text.length) →
      applySorted (spliced text 0 applied) (applied.head?.map Edit.start) (edits.map Prod.fst) =
        spliced text 0
          (((kept (applied.head?.map Edit.start) edits).map Prod.fst).reverse ++ applied) := by
  induction edits with
  | nil => intro applied _ _; rfl
  | cons e rest ih =>
    intro applied hedits happlied
    have hrest : ∀ other ∈ rest, other.1.FitsIn text.length := fun other hother ↦
      hedits other (List.mem_cons_of_mem _ hother)
    have hfits := hedits e List.mem_cons_self
    rw [List.map_cons, applySorted, kept]
    split_ifs with hoverlaps
    · exact ih applied hrest happlied
    · have hhead : ∀ a ∈ applied.head?, e.1.stop ≤ a.start ∧ a.FitsIn text.length := by
        intro a ha
        refine ⟨Int.not_lt.mp fun hlt ↦ hoverlaps ?_, happlied a (List.mem_of_head? ha)⟩
        exact any_eq_true_iff.mpr ⟨a.start, Option.mem_map_of_mem _ ha, hlt⟩
      have hnext := ih (e.1 :: applied) hrest
        (List.forall_mem_cons.mpr ⟨hfits, happlied⟩)
      rw [apply_spliced hfits hhead]
      rw [List.head?_cons, Option.map_some] at hnext
      rw [hnext, List.map_cons, List.reverse_cons, List.append_assoc]
      rfl

theorem kept_sublist (edits : List (Edit × Nat)) :
    ∀ reached : Option Int, (kept reached edits).Sublist edits := by
  induction edits with
  | nil => intro reached; exact List.Sublist.refl _
  | cons e rest ih =>
    intro reached
    rw [kept]
    split_ifs
    · exact (ih reached).cons e
    · exact (ih _).cons_cons e

theorem stop_le_of_mem_kept {edits : List (Edit × Nat)} :
    ∀ {start : Int}, (∀ e ∈ edits, e.1.start ≤ e.1.stop) →
      ∀ c ∈ kept (some start) edits, c.1.stop ≤ start := by
  induction edits with
  | nil => intro start _ c hc; cases hc
  | cons e rest ih =>
    intro start hordered c hc
    have hrest : ∀ other ∈ rest, other.1.start ≤ other.1.stop := fun other hother ↦
      hordered other (List.mem_cons_of_mem _ hother)
    rw [kept] at hc
    split_ifs at hc with hoverlaps
    · exact ih hrest c hc
    · have hstop : e.1.stop ≤ start := by simpa using hoverlaps
      rcases List.mem_cons.mp hc with rfl | hc
      · exact hstop
      · exact (ih hrest c hc).trans ((hordered e List.mem_cons_self).trans hstop)

/-- Each edit that is kept ends before those kept earlier begin. -/
theorem pairwise_kept {edits : List (Edit × Nat)} :
    ∀ reached : Option Int, (∀ e ∈ edits, e.1.start ≤ e.1.stop) →
      (kept reached edits).Pairwise fun a b ↦ b.1.stop ≤ a.1.start := by
  induction edits with
  | nil => intro reached _; exact List.Pairwise.nil
  | cons e rest ih =>
    intro reached hordered
    have hrest : ∀ other ∈ rest, other.1.start ≤ other.1.stop := fun other hother ↦
      hordered other (List.mem_cons_of_mem _ hother)
    rw [kept]
    split_ifs
    · exact ih reached hrest
    · exact List.pairwise_cons.mpr ⟨stop_le_of_mem_kept hrest, ih _ hrest⟩

/-- An edit that is left out overlaps one that is kept and comes before it. -/
theorem exists_conflict_of_not_mem_kept {edits : List (Edit × Nat)} :
    ∀ {reached : Option Int}, edits.Pairwise (fun a b ↦ b.1.range ≤ a.1.range) →
      ∀ f ∈ edits, f ∉ kept reached edits → (∃ start ∈ reached, start < f.1.stop) ∨
        ∃ c ∈ kept reached edits, f.1.range ≤ c.1.range ∧ c.1.start < f.1.stop := by
  induction edits with
  | nil => intro reached _ f hf; cases hf
  | cons e rest ih =>
    intro reached hsorted f hf hout
    obtain ⟨hfirst, hrest⟩ := List.pairwise_cons.mp hsorted
    rw [kept] at hout ⊢
    split_ifs at hout ⊢ with hoverlaps
    · rcases List.mem_cons.mp hf with rfl | hf
      · exact Or.inl (any_eq_true_iff.mp hoverlaps)
      · exact ih hrest f hf hout
    · rw [List.mem_cons, not_or] at hout
      have hf := List.mem_of_ne_of_mem hout.1 hf
      refine Or.inr ?_
      rcases ih hrest f hf hout.2 with ⟨start, hstart, hlt⟩ | ⟨c, hc, hrange, hlt⟩
      · obtain rfl := Option.some.inj hstart
        exact ⟨e, List.mem_cons_self, hfirst f hf, hlt⟩
      · exact ⟨c, List.mem_cons_of_mem _ hc, hrange, hlt⟩

/-! ### The choice among the edits of a family -/

theorem appliesBefore_total (a b : Edit) :
    appliesBefore a b = true ∨ appliesBefore b a = true := by
  rw [appliesBefore_iff, appliesBefore_iff]
  exact le_total b.range a.range

theorem appliesBefore_trans (a b c : Edit) (hab : appliesBefore a b = true)
    (hbc : appliesBefore b c = true) : appliesBefore a c = true := by
  rw [appliesBefore_iff] at hab hbc ⊢
  exact hbc.trans hab

/-- A family with its numbers, in the order of application. -/
def ordered (edits : List Edit) : List (Edit × Nat) :=
  Stable.sort (fun a b ↦ appliesBefore a.1 b.1) edits.zipIdx

theorem map_fst_ordered (edits : List Edit) :
    (ordered edits).map Prod.fst = Stable.sort appliesBefore edits := by
  rw [ordered, Stable.map_sort, List.zipIdx_map_fst]

theorem perm_ordered (edits : List Edit) : (ordered edits).Perm edits.zipIdx :=
  (Stable.sorts_sort (fun a b : Edit × Nat ↦ appliesBefore_total a.1 b.1)
    (fun a b c ↦ appliesBefore_trans a.1 b.1 c.1) edits.zipIdx).perm

/-- Later ranges come first, and of equal ranges the one that the family has first. -/
theorem pairwise_ordered (edits : List Edit) :
    (ordered edits).Pairwise fun a b ↦
      b.1.range ≤ a.1.range ∧ (a.1.range ≤ b.1.range → a.2 < b.2) := by
  have hnumbers : edits.zipIdx.Pairwise fun a b ↦ a.2 < b.2 := by
    rw [← List.pairwise_map (f := Prod.snd), List.zipIdx_map_snd]
    exact List.pairwise_lt_range'
  have hsorted := Stable.pairwise_sort (fun a b : Edit × Nat ↦ appliesBefore_total a.1 b.1)
    (fun a b c ↦ appliesBefore_trans a.1 b.1 c.1) hnumbers
  exact hsorted.imp fun h ↦ by simpa only [appliesBefore_iff] using h

/-- The edits of a family that are applied to a text, in ascending order. -/
def chosen (edits : List Edit) : List (Edit × Nat) :=
  (kept none (ordered edits)).reverse

theorem mem_ordered {edits : List Edit} {e : Edit × Nat} : e ∈ ordered edits ↔ e ∈ edits.zipIdx :=
  (perm_ordered edits).mem_iff

theorem mem_zipIdx_of_mem_chosen {edits : List Edit} {c : Edit × Nat} (h : c ∈ chosen edits) :
    c ∈ edits.zipIdx :=
  mem_ordered.mp ((kept_sublist _ none).subset (List.mem_reverse.mp h))

theorem nodup_chosen (edits : List Edit) : (chosen edits).Nodup := by
  have hnodup : edits.zipIdx.Nodup := by
    refine List.Nodup.of_map Prod.snd ?_
    rw [List.zipIdx_map_snd]
    exact List.nodup_range' ..
  exact List.nodup_reverse.mpr (((perm_ordered edits).nodup_iff.mpr hnodup).sublist
    (kept_sublist _ none))

section Fitting

variable {edits : List Edit} {length : Nat} (hfits : ∀ e ∈ edits, e.FitsIn length)
include hfits

theorem fitsIn_of_mem_ordered {e : Edit × Nat} (h : e ∈ ordered edits) : e.1.FitsIn length :=
  hfits e.1 (List.fst_mem_of_mem_zipIdx (mem_ordered.mp h))

theorem pairwise_chosen : (chosen edits).Pairwise fun a b ↦ a.1.stop ≤ b.1.start :=
  List.pairwise_reverse.mpr
    (pairwise_kept none fun _ he ↦ (fitsIn_of_mem_ordered hfits he).ordered)

end Fitting

/-- Applying a family of edits splices in the chosen ones. -/
theorem toList_applyAll {source : String} {edits : List Edit}
    (hfits : ∀ e ∈ edits, e.FitsIn source.toList.length) :
    (applyAll source edits).toList =
      spliced source.toList 0 ((chosen edits).map Prod.fst) := by
  have hloop := applySorted_eq_spliced (ordered edits) []
    (fun e he ↦ fitsIn_of_mem_ordered hfits he) (fun a ha ↦ absurd ha List.not_mem_nil)
  have hstart : spliced source.toList 0 [] = source.toList := rfl
  rw [hstart, map_fst_ordered, List.append_nil, ← List.map_reverse] at hloop
  rw [applyAll, String.toList_ofList]
  exact hloop

/-- The first edit in the order of application is always chosen. -/
theorem mem_chosen_of_greatest {edits : List Edit} {f : Edit × Nat} (hf : f ∈ edits.zipIdx)
    (hgreatest : ∀ e ∈ edits.zipIdx,
      e.1.range < f.1.range ∨ e.1.range = f.1.range ∧ f.2 ≤ e.2) : f ∈ chosen edits := by
  rw [chosen, List.mem_reverse]
  have hmem := mem_ordered.mpr hf
  have hsorted := pairwise_ordered edits
  have hall : ∀ e ∈ ordered edits, e.1.range < f.1.range ∨ e.1.range = f.1.range ∧ f.2 ≤ e.2 :=
    fun e he ↦ hgreatest e (mem_ordered.mp he)
  cases hordered : ordered edits with
  | nil => rw [hordered] at hmem; cases hmem
  | cons first rest =>
    rw [hordered] at hmem hsorted hall
    rcases List.mem_cons.mp hmem with rfl | hrest
    · exact List.mem_cons_self
    · obtain ⟨hle, hnumber⟩ := (List.pairwise_cons.mp hsorted).1 f hrest
      rcases hall first List.mem_cons_self with hlt | ⟨heq, hfirst⟩
      · exact absurd hlt (not_lt_of_ge hle)
      · exact absurd (hnumber heq.le) (Nat.not_lt.mpr hfirst)

/-- An edit that is not chosen overlaps a chosen one that is not smaller. -/
theorem exists_conflict_of_not_mem_chosen {edits : List Edit} {f : Edit × Nat}
    (hf : f ∈ edits.zipIdx) (hout : f ∉ chosen edits) :
    ∃ c ∈ chosen edits, f.1.range ≤ c.1.range ∧ c.1.start < f.1.stop := by
  simp only [chosen, List.mem_reverse] at hout ⊢
  rcases exists_conflict_of_not_mem_kept ((pairwise_ordered edits).imp And.left) f
    (mem_ordered.mpr hf) hout with ⟨start, hstart, -⟩ | hconflict
  · cases hstart
  · exact hconflict

/-- Where all ranges differ, the order of a family does not matter. -/
theorem applyAll_congr {edits others : List Edit} (hranges : (edits.map range).Nodup)
    (hperm : others.Perm edits) (source : String) :
    applyAll source others = applyAll source edits := by
  have hsorts := Stable.sorts_sort appliesBefore_total appliesBefore_trans
  have heq : Stable.sort appliesBefore others = Stable.sort appliesBefore edits := by
    refine List.Perm.eq_of_pairwise ?_ (hsorts others).pairwise (hsorts edits).pairwise
      ((hsorts others).perm.trans (hperm.trans (hsorts edits).perm.symm))
    intro a b ha hb hab hba
    rw [appliesBefore_iff] at hab hba
    have ha := hperm.mem_iff.mp ((hsorts others).perm.mem_iff.mp ha)
    have hb := (hsorts edits).perm.mem_iff.mp hb
    exact List.inj_on_of_nodup_map hranges ha hb (le_antisymm hba hab)
  rw [applyAll, applyAll, heq]

end Edit

/-- Fixing a text makes some of the fixes of its diagnostics at once. They are free of overlaps; the
one with the greatest range, and among equal ranges the first, is among them; and every other fix
overlaps one of them that is not smaller. Where no two fixes have the same range, the order of the
diagnostics does not matter. -/
theorem fixedText_spliced (source : String) (diagnostics : List Diagnostic)
    (hfits : ∀ d ∈ diagnostics, ∀ e ∈ d.fix, e.FitsIn source.length) :
    (∃ chosen : List (Edit × Nat),
      (∀ c ∈ chosen, c ∈ (diagnostics.filterMap Diagnostic.fix).zipIdx) ∧ chosen.Nodup ∧
      chosen.Pairwise (fun a b ↦ a.1.stop ≤ b.1.start) ∧
      (fixedText source diagnostics).toList =
        Edit.spliced source.toList 0 (chosen.map Prod.fst) ∧
      (∀ f ∈ (diagnostics.filterMap Diagnostic.fix).zipIdx,
        (∀ e ∈ (diagnostics.filterMap Diagnostic.fix).zipIdx,
          e.1.range < f.1.range ∨ e.1.range = f.1.range ∧ f.2 ≤ e.2) → f ∈ chosen) ∧
      ∀ f ∈ (diagnostics.filterMap Diagnostic.fix).zipIdx, f ∉ chosen →
        ∃ c ∈ chosen, f.1.range ≤ c.1.range ∧ c.1.start < f.1.stop) ∧
    (((diagnostics.filterMap Diagnostic.fix).map Edit.range).Nodup →
      ∀ others, others.Perm diagnostics →
        fixedText source others = fixedText source diagnostics) := by
  have hedits : ∀ e ∈ diagnostics.filterMap Diagnostic.fix, e.FitsIn source.toList.length := by
    intro e he
    obtain ⟨d, hd, hfix⟩ := List.mem_filterMap.mp he
    rw [String.length_toList]
    exact hfits d hd e hfix
  refine ⟨⟨Edit.chosen (diagnostics.filterMap Diagnostic.fix), ?_, Edit.nodup_chosen _,
    Edit.pairwise_chosen hedits, Edit.toList_applyAll hedits, ?_, ?_⟩, ?_⟩
  · exact fun c hc ↦ Edit.mem_zipIdx_of_mem_chosen hc
  · exact fun f hf hgreatest ↦ Edit.mem_chosen_of_greatest hf hgreatest
  · exact fun f hf hout ↦ Edit.exists_conflict_of_not_mem_chosen hf hout
  · exact fun hranges others hperm ↦
      Edit.applyAll_congr hranges (hperm.filterMap Diagnostic.fix) source

/-- Fixes of a text of six characters: one overlaps the rightmost, two stand at one point, and one
ends there. -/
def crowdedFixes : List Diagnostic :=
  [⟨2, 5, "Y"⟩, ⟨2, 2, "i"⟩, ⟨4, 6, "X"⟩, ⟨2, 2, "j"⟩, ⟨0, 2, "Z"⟩].map fun e ↦
    ⟨.undefinedName "Box", ⟨1, 0, 1, 3⟩, some e⟩

theorem fixedText_spliced_crowded :
    (∀ d ∈ crowdedFixes, ∀ e ∈ d.fix, e.FitsIn "abcdef".length) ∧
    fixedText "abcdef" crowdedFixes = "ZjicdX" ∧
    ∃ chosen : List (Edit × Nat), (⟨4, 6, "X"⟩, 2) ∈ chosen ∧
      "ZjicdX".toList = Edit.spliced "abcdef".toList 0 (chosen.map Prod.fst) := by
  have hfits : ∀ d ∈ crowdedFixes, ∀ e ∈ d.fix, e.FitsIn "abcdef".length := by decide +kernel
  have htext : fixedText "abcdef" crowdedFixes = "ZjicdX" := by decide +kernel
  obtain ⟨⟨chosen, -, -, -, hspliced, hgreatest, -⟩, -⟩ :=
    fixedText_spliced "abcdef" crowdedFixes hfits
  rw [htext] at hspliced
  exact ⟨hfits, htext, chosen, hgreatest _ (by decide +kernel) (by decide +kernel), hspliced⟩

end TagScope
