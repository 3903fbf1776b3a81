import TagScope.Proofs.Files.Collect
import TagScope.Proofs.Files.Revision

/-!
# Directories in another order

The entries of a directory come in no particular order. Two lists of entries that differ in the
order of entries only, at any depth, are shuffled (`Entry.Shuffled`). What is kept of them is then
the same up to its order (`Entry.Shuffled.perm_keptOfAll`). Where no directory has two entries of
one name (`Entry.WellNamed`), a path that leads to a directory still leads to it after the entries
were shuffled, also through two dots (`Entry.Shuffled.exists_follow`).
-/

set_option autoImplicit false

namespace TagScope

namespace Entry

/-- All entries have names, and no two of them have the same path. -/
structure WellNamed (entries : List Entry) : Prop where
  names : ∀ name ∈ namesOfAll entries, Path.IsName name
  paths : (pathsOfAll entries).Nodup

/-- The same entries in another order, and so at any depth. -/
inductive Shuffled : List Entry → List Entry → Prop
  | nil : Shuffled [] []
  | file (name : String) (content : Bytes) {es es' : List Entry} :
      Shuffled es es' → Shuffled (.file name content :: es) (.file name content :: es')
  | directory (name : String) {inner inner' es es' : List Entry} :
      Shuffled inner inner' → Shuffled es es' →
        Shuffled (.directory name inner :: es) (.directory name inner' :: es')
  | swap (a b : Entry) (es : List Entry) : Shuffled (a :: b :: es) (b :: a :: es)
  | trans {es fs gs : List Entry} : Shuffled es fs → Shuffled fs gs → Shuffled es gs

/-- A file, or a directory and the same one shuffled. -/
inductive Alike : Entry → Entry → Prop
  | file (name : String) (content : Bytes) : Alike (.file name content) (.file name content)
  | directory (name : String) {inner inner' : List Entry} :
      Shuffled inner inner' → Alike (.directory name inner) (.directory name inner')

variable {e e' e'' : Entry} {es es' : List Entry}

theorem Alike.cons (h : Alike e e') (hes : Shuffled es es') : Shuffled (e :: es) (e' :: es') := by
  cases h with
  | file name content => exact .file name content hes
  | directory name hinner => exact .directory name hinner hes

theorem Shuffled.of_forall_alike (h : ∀ e ∈ es, Alike e e) : Shuffled es es := by
  induction es with
  | nil => exact .nil
  | cons e rest ih =>
    obtain ⟨he, hrest⟩ := List.forall_mem_cons.mp h
    exact he.cons (ih hrest)

theorem Alike.refl (e : Entry) : Alike e e := by
  induction e using Entry.induction with
  | file name content => exact .file name content
  | directory name entries ih => exact .directory name (.of_forall_alike ih)

theorem Shuffled.refl (es : List Entry) : Shuffled es es :=
  .of_forall_alike fun e _ ↦ Alike.refl e

theorem Alike.trans (h : Alike e e') (h' : Alike e' e'') : Alike e e'' := by
  cases h with
  | file name content => exact h'
  | directory name hinner =>
    cases h' with
    | directory _ hinner' => exact .directory name (hinner.trans hinner')

theorem Shuffled.exists_alike (h : Shuffled es es') (he : e ∈ es) : ∃ e' ∈ es', Alike e e' := by
  induction h generalizing e with
  | nil => simp at he
  | file name content _ ih =>
    rcases List.mem_cons.mp he with rfl | he
    · exact ⟨_, List.mem_cons_self, .file name content⟩
    · obtain ⟨e', he', halike⟩ := ih he
      exact ⟨e', List.mem_cons_of_mem _ he', halike⟩
  | directory name hinner _ _ ih =>
    rcases List.mem_cons.mp he with rfl | he
    · exact ⟨_, List.mem_cons_self, .directory name hinner⟩
    · obtain ⟨e', he', halike⟩ := ih he
      exact ⟨e', List.mem_cons_of_mem _ he', halike⟩
  | swap a b es => exact ⟨e, (List.Perm.swap b a es).mem_iff.mp he, Alike.refl e⟩
  | trans _ _ ih ih' =>
    obtain ⟨f, hf, halike⟩ := ih he
    obtain ⟨g, hg, halike'⟩ := ih' hf
    exact ⟨g, hg, halike.trans halike'⟩

theorem Shuffled.perm_names (h : Shuffled es es') : (es.map name).Perm (es'.map name) := by
  induction h with
  | nil => exact .nil
  | file name content _ ih => exact ih.cons name
  | directory name _ _ _ ih => exact ih.cons name
  | swap a b es => exact .swap _ _ _
  | trans _ _ ih ih' => exact ih.trans ih'

theorem name_mem_names (e : Entry) : e.name ∈ e.names := by
  cases e <;> exact List.mem_cons_self

theorem WellNamed.isName (h : WellNamed es) (he : e ∈ es) : Path.IsName e.name :=
  h.names e.name (names_subset he e.name_mem_names)

theorem WellNamed.nodup (h : WellNamed es) : (es.map name).Nodup :=
  nodup_names_of_nodup_paths h.paths

theorem WellNamed.inner (h : WellNamed es) {dir : String} {inner : List Entry}
    (hmem : .directory dir inner ∈ es) : WellNamed inner where
  names name hname := h.names name (names_subset hmem (List.mem_cons_of_mem dir hname))
  paths := nodup_paths_of_mem h.paths hmem

/-- What is kept of shuffled entries is the same, in another order. -/
theorem Shuffled.perm_keptOfAll (keepsDirectory keepsFile : Path → Bool) (h : Shuffled es es')
    (above : Path) :
    (keptOfAll keepsDirectory keepsFile above es).Perm
      (keptOfAll keepsDirectory keepsFile above es') := by
  induction h generalizing above with
  | nil => exact .refl _
  | file name content _ ih => exact (ih above).append_left _
  | directory name _ _ ihinner ih =>
    refine List.Perm.append ?_ (ih above)
    rw [kept, kept]
    split_ifs
    · exact ihinner (above.join name)
    · exact .refl _
  | swap a b es =>
    simp only [keptOfAll]
    rw [← List.append_assoc, ← List.append_assoc]
    exact List.perm_append_comm.append_right _
  | trans _ _ ih ih' => exact (ih above).trans (ih' above)

end Entry

open Entry (WellNamed Shuffled Alike)

theorem entryNamed?_eq_some_iff {entries : List Entry} (h : (entries.map Entry.name).Nodup)
    {name : String} {e : Entry} :
    entryNamed? name entries = some e ↔ e ∈ entries ∧ e.name = name := by
  constructor
  · intro hfound
    exact ⟨List.mem_of_find?_eq_some hfound, name_of_entryNamed? hfound⟩
  · rintro ⟨hmem, rfl⟩
    induction entries with
    | nil => simp at hmem
    | cons first rest ih =>
      obtain ⟨hfirst, hrest⟩ := List.nodup_cons.mp h
      rw [entryNamed?, List.find?_cons]
      rcases List.mem_cons.mp hmem with rfl | hmem
      · simp
      · have hne : first.name ≠ e.name := fun heq ↦ hfirst (heq ▸ List.mem_map_of_mem hmem)
        simpa [entryNamed?, hne] using ih hrest hmem

/-- A directory that is named among some entries is found among the shuffled ones. -/
theorem Entry.Shuffled.entryNamed?_directory {es es' inner : List Entry} {name other : String}
    (h : Shuffled es es') (hes : WellNamed es)
    (hfound : entryNamed? name es = some (.directory other inner)) :
    ∃ inner', entryNamed? name es' = some (.directory other inner') ∧ Shuffled inner inner' := by
  obtain ⟨hmem, hname⟩ := (entryNamed?_eq_some_iff hes.nodup).mp hfound
  obtain ⟨e', hmem', halike⟩ := h.exists_alike hmem
  have hnodup' := h.perm_names.nodup_iff.mp hes.nodup
  cases halike with
  | directory _ hinner =>
    exact ⟨_, (entryNamed?_eq_some_iff hnodup').mpr ⟨hmem', hname⟩, hinner⟩

/-- A path that leads to a directory leads to it after the entries were shuffled. -/
theorem Entry.Shuffled.exists_follow {parts : List String} :
    ∀ {here here' : List Entry} {above above' : List (List Entry)} {inner : List Entry},
      WellNamed here → (∀ es ∈ above, WellNamed es) → Shuffled here here' →
        List.Forall₂ Shuffled above above' → follow here above parts = .ok (.directory inner) →
          WellNamed inner ∧
            ∃ inner', follow here' above' parts = .ok (.directory inner') ∧
              Shuffled inner inner' := by
  induction parts with
  | nil =>
    intro here here' above above' inner hhere _ hshuffled _ hfollow
    obtain rfl := Found.directory.inj (Except.ok.inj hfollow)
    exact ⟨hhere, here', rfl, hshuffled⟩
  | cons part rest ih =>
    intro here here' above above' inner hhere habove hshuffled hshuffled' hfollow
    by_cases hdots : part = ".."
    · subst hdots
      rw [follow_dots] at hfollow ⊢
      cases hshuffled' with
      | nil => exact ih hhere habove hshuffled .nil hfollow
      | cons hup hhigher =>
        obtain ⟨hupper, hothers⟩ := List.forall_mem_cons.mp habove
        exact ih hupper hothers hup hhigher hfollow
    rw [follow_cons hdots] at hfollow ⊢
    by_cases hlong : longestName < byteCount part
    · rw [if_pos hlong] at hfollow
      cases hfollow
    rw [if_neg hlong] at hfollow ⊢
    match hfound : entryNamed? part here with
    | none => rw [hfound] at hfollow; cases hfollow
    | some (.file name content) =>
      rw [hfound] at hfollow
      cases rest <;> cases hfollow
    | some (.directory name entries) =>
      rw [hfound] at hfollow
      have hentries := hhere.inner (List.mem_of_find?_eq_some hfound)
      obtain ⟨entries', hfound', hshuffledEntries⟩ :=
        hshuffled.entryNamed?_directory hhere hfound
      rw [hfound']
      exact ih hentries (List.forall_mem_cons.mpr ⟨hhere, habove⟩) hshuffledEntries
        (.cons hshuffled hshuffled') hfollow

end TagScope
