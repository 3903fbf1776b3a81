import Mathlib.Data.List.Basic
import TagScope.Settings.Validation

/-!
# Objects with other keys or values

Two changes of an object and what they do to its reading. A field that has two keys may be given
under either of them; an object that gives it under the first one is respelled when that key is
replaced by the second (`Keys.respell`). The field is then found under its other key
(`find?_respell_self`), the other fields are found as before (`find?_respell_of_apart`), and nothing
else is left over (`extraMembers_respell`). So a model of three fields is read as before, or with
the same issues, those of the field under its other key (`assemble_respell`).

The other change is that of the value under one key (`revise`). The fields without that key are read
as before (`read_revise_of_ne`), and nothing else is left over (`extraIssues_revise`).
-/

set_option autoImplicit false

namespace TagScope

/-! ### Issues in other places -/

namespace Issue

/-- An issue that lies under the first key of a field, moved to the second one. -/
def respell (keys : Keys) (issue : Issue) : Issue :=
  match issue.location with
  | .member key :: rest =>
    if key = keys.first then { issue with location := .member keys.second :: rest } else issue
  | _ => issue

/-- A change of the issues that lie under a key. -/
def within (key : String) (change : Issue → Issue) (issue : Issue) : Issue :=
  match issue.location with
  | .member other :: rest =>
    if other = key then (change { issue with location := rest }).under (.member key) else issue
  | _ => issue

/-- A change that leaves issues alone unless they lie under a key. -/
structure IsAbout (key : String) (change : Issue → Issue) : Prop where
  whole : ∀ kind input, change ⟨kind, [], input⟩ = ⟨kind, [], input⟩
  under : ∀ other ≠ key, ∀ issue : Issue,
    change (issue.under (.member other)) = issue.under (.member other)

theorem isAbout_respell (keys : Keys) : IsAbout keys.first (respell keys) where
  whole _ _ := rfl
  under _ hother _ := if_neg hother

theorem isAbout_within (key : String) (change : Issue → Issue) :
    IsAbout key (within key change) where
  whole _ _ := rfl
  under _ hother _ := if_neg hother

theorem respell_under_first (keys : Keys) (issue : Issue) :
    respell keys (issue.under (.member keys.first)) = issue.under (.member keys.second) :=
  if_pos rfl

theorem within_under (key : String) (change : Issue → Issue) (issue : Issue) :
    within key change (issue.under (.member key)) = (change issue).under (.member key) :=
  if_pos rfl

end Issue

namespace Validated

variable {α : Type}

/-- The same result with its issues changed. -/
def relocate (change : Issue → Issue) : Validated α → Validated α
  | .ok a => .ok a
  | .error issues => .error (issues.map change)

/-- Changing the issues of what lies under a step. -/
theorem relocate_under {change change' : Issue → Issue} {step step' : Step}
    (h : ∀ issue : Issue, change (issue.under step) = (change' issue).under step')
    (result : Validated α) :
    (result.under step).relocate change = (result.relocate change').under step' := by
  cases result with
  | ok a => rfl
  | error issues =>
    simp only [under, relocate, List.map_map]
    congr 1
    exact List.map_congr_left fun issue _ ↦ h issue

theorem relocate_under_of_eq {change : Issue → Issue} {step step' : Step}
    (h : ∀ issue : Issue, change (issue.under step) = issue.under step') (result : Validated α) :
    (result.under step).relocate change = result.under step' := by
  have hid : result.relocate id = result := by
    cases result with
    | ok a => rfl
    | error issues => rw [relocate, List.map_id]
  have hmoved : (result.under step).relocate change = (result.relocate id).under step' :=
    relocate_under h result
  rwa [hid] at hmoved

end Validated

/-! ### Models of three fields -/

/-- A model of three fields, or all the issues of the fields and of what is left over. -/
def assemble {α β γ δ : Type} (make : α → β → γ → δ) (a : Validated α) (b : Validated β)
    (c : Validated γ) (extra : List Issue) : Validated δ :=
  match a, b, c, extra with
  | .ok a, .ok b, .ok c, [] => .ok (make a b c)
  | _, _, _, _ => .error (a.issues ++ b.issues ++ c.issues ++ extra)

theorem relocate_assemble {α β γ δ : Type} (make : α → β → γ → δ) (change : Issue → Issue)
    (a : Validated α) (b : Validated β) (c : Validated γ) (extra : List Issue) :
    (assemble make a b c extra).relocate change =
      assemble make (a.relocate change) (b.relocate change) (c.relocate change)
        (extra.map change) := by
  cases a <;> cases b <;> cases c <;> cases extra <;>
    simp [assemble, Validated.relocate, Validated.issues]

/-! ### Members of objects -/

section Members

variable {key : String} {fields : List Keys} {field : Keys} {members : List (Text × Value)}

theorem lookup_cons (key : String) (member : Text × Value) (rest : List (Text × Value)) :
    Value.lookup key (member :: rest) =
      if member.1 = .proper key then some member.2 else Value.lookup key rest := by
  rw [Value.lookup, List.find?_cons, Value.lookup]
  by_cases h : member.1 = .proper key <;> simp [h]

theorem lookup_eq_none_iff :
    Value.lookup key members = none ↔ ∀ member ∈ members, member.1 ≠ .proper key := by
  simp [Value.lookup]

theorem exists_lookup_eq_some {value : Value} (h : (.proper key, value) ∈ members) :
    ∃ found, Value.lookup key members = some found := by
  refine Option.ne_none_iff_exists'.mp fun hnone ↦ ?_
  exact lookup_eq_none_iff.mp hnone _ h rfl

/-- Members with other keys are looked up under the keys that came of theirs. -/
theorem lookup_map_key {change : Text → Text} {key' : String}
    (h : ∀ member ∈ members, change member.1 = .proper key' ↔ member.1 = .proper key) :
    Value.lookup key' (members.map fun member ↦ (change member.1, member.2)) =
      Value.lookup key members := by
  induction members with
  | nil => rfl
  | cons member rest ih =>
    obtain ⟨hmember, hrest⟩ := List.forall_mem_cons.mp h
    rw [List.map_cons, lookup_cons, lookup_cons, ih hrest]
    simp only [hmember]

theorem fst_of_find? {found : String × Value} (h : field.find? members = some found) :
    found.1 = field.first ∨ found.1 = field.second := by
  rw [Keys.find?] at h
  split at h
  · exact Or.inl (congrArg Prod.fst (Option.some.inj h)).symm
  · obtain ⟨value, -, rfl⟩ := Option.map_eq_some_iff.mp h
    exact Or.inr rfl

/-- Whether one of some fields is given under a key. -/
def gives (fields : List Keys) (members : List (Text × Value)) (key : String) : Bool :=
  fields.any fun keys ↦ (keys.find? members).any fun found ↦ found.1 = key

theorem gives_of_find? (hfield : field ∈ fields) {found : String × Value}
    (h : field.find? members = some found) : gives fields members found.1 = true := by
  rw [gives, List.any_eq_true]
  exact ⟨field, hfield, by simp [h]⟩

/-- A member that gives none of some fields. -/
def extra? (fields : List Keys) (members : List (Text × Value)) (member : Text × Value) :
    Option (String × Value) :=
  (member.1.proper?.map fun key ↦ (key, member.2)).filter fun member ↦
    !gives fields members member.1

theorem extra?_proper (fields : List Keys) (members : List (Text × Value)) (key : String)
    (value : Value) :
    extra? fields members (.proper key, value) =
      if gives fields members key then none else some (key, value) := by
  rw [extra?, Text.proper?, Option.map_some, Option.filter_some]
  cases gives fields members key <;> rfl

theorem extraMembers_eq_filterMap (fields : List Keys) (members : List (Text × Value)) :
    extraMembers fields members = members.filterMap (extra? fields members) :=
  List.filter_filterMap

/-- What is left over is a member under a key that gives no field. -/
theorem of_mem_extraMembers {found : String × Value} (h : found ∈ extraMembers fields members) :
    (.proper found.1, found.2) ∈ members ∧ gives fields members found.1 = false := by
  rw [extraMembers_eq_filterMap] at h
  obtain ⟨⟨key, value⟩, hmem, hextra⟩ := List.mem_filterMap.mp h
  cases key with
  | broken letters => cases hextra
  | proper key =>
    rw [extra?_proper] at hextra
    split at hextra
    next => cases hextra
    next hgives =>
      obtain rfl := Option.some.inj hextra
      exact ⟨hmem, Bool.eq_false_iff.mpr hgives⟩

/-- What is left over stays where it is if the key that a change is about gives a field. -/
theorem map_extraIssues {change : Issue → Issue} (hchange : Issue.IsAbout key change)
    (hgives : ∀ value, (.proper key, value) ∈ members → gives fields members key = true) :
    (extraIssues fields members).map change = extraIssues fields members := by
  rw [extraIssues, List.map_map]
  refine List.map_congr_left fun found hfound ↦ ?_
  obtain ⟨hmem, hnot⟩ := of_mem_extraMembers hfound
  have hne : found.1 ≠ key := by
    intro heq
    rw [heq] at hmem hnot
    rw [hgives _ hmem] at hnot
    cases hnot
  exact hchange.under _ hne ⟨.extraForbidden, [], found.2⟩

/-- A field stays where it is if it has not the key that a change is about. -/
theorem relocate_read {α : Type} {change : Issue → Issue} (hchange : Issue.IsAbout key change)
    (hfirst : field.first ≠ key) (hsecond : field.second ≠ key) (decode : Value → Validated α)
    (default : α) :
    (field.read members decode (.ok default)).relocate change =
      field.read members decode (.ok default) := by
  rw [Keys.read]
  cases hfound : field.find? members with
  | none => rfl
  | some found =>
    have hne : found.1 ≠ key := by
      rcases fst_of_find? hfound with h | h <;> rwa [h]
    exact Validated.relocate_under_of_eq (hchange.under found.1 hne) (decode found.2)

theorem relocate_withProperKeys {α : Type} {change : Issue → Issue}
    (hchange : Issue.IsAbout key change) (result : Validated α) :
    (withProperKeys members result).relocate change =
      withProperKeys members (result.relocate change) := by
  rw [withProperKeys, withProperKeys]
  cases brokenKey? members with
  | none => rfl
  | some key => simp [Validated.fail, Validated.relocate, hchange.whole]

end Members

/-! ### Respelling a key -/

namespace Keys

/-- The first key of a field turned into the second one. -/
def respellKey (keys : Keys) (key : Text) : Text :=
  if key = .proper keys.first then .proper keys.second else key

/-- Members that give a field under its first key, with the second key in its place. -/
def respell (keys : Keys) (members : List (Text × Value)) : List (Text × Value) :=
  members.map fun member ↦ (keys.respellKey member.1, member.2)

/-- Fields that share no key. -/
structure Apart (field keys : Keys) : Prop where
  first_ne_first : field.first ≠ keys.first
  first_ne_second : field.first ≠ keys.second
  second_ne_first : field.second ≠ keys.first
  second_ne_second : field.second ≠ keys.second

instance (field keys : Keys) : Decidable (field.Apart keys) :=
  decidable_of_iff (field.first ≠ keys.first ∧ field.first ≠ keys.second ∧
      field.second ≠ keys.first ∧ field.second ≠ keys.second)
    ⟨fun ⟨h₁, h₂, h₃, h₄⟩ ↦ ⟨h₁, h₂, h₃, h₄⟩, fun ⟨h₁, h₂, h₃, h₄⟩ ↦ ⟨h₁, h₂, h₃, h₄⟩⟩

/-- A field with two keys, among fields that share none of them. -/
structure IsAlias (keys : Keys) (fields : List Keys) : Prop where
  ne : keys.first ≠ keys.second
  mem : keys ∈ fields
  apart : ∀ field ∈ fields, field = keys ∨ field.Apart keys

variable {keys field : Keys} {fields : List Keys} {members : List (Text × Value)}

theorem respellKey_of_ne {key : Text} (h : key ≠ .proper keys.first) :
    keys.respellKey key = key :=
  if_neg h

theorem brokenKey?_respell (keys : Keys) (members : List (Text × Value)) :
    brokenKey? (keys.respell members) = brokenKey? members := by
  have hkeys : (keys.respell members).map Prod.fst =
      (members.map Prod.fst).map keys.respellKey := by
    rw [respell, List.map_map, List.map_map]
    rfl
  rw [brokenKey?, brokenKey?, hkeys]
  induction members.map Prod.fst with
  | nil => rfl
  | cons key rest ih =>
    rw [List.map_cons, List.find?_cons, List.find?_cons, ih]
    cases key with
    | proper text => by_cases h : text = keys.first <;> simp [respellKey, h, Text.proper?]
    | broken letters => rfl

theorem lookup_respell_of_ne {key : String} (hfirst : key ≠ keys.first)
    (hsecond : key ≠ keys.second) (members : List (Text × Value)) :
    Value.lookup key (keys.respell members) = Value.lookup key members := by
  refine lookup_map_key fun member _ ↦ ?_
  by_cases h : member.1 = .proper keys.first
  · simp [respellKey, h, Ne.symm hfirst, Ne.symm hsecond]
  · simp [respellKey, h]

theorem find?_respell_of_apart (h : field.Apart keys) (members : List (Text × Value)) :
    field.find? (keys.respell members) = field.find? members := by
  rw [find?, find?, lookup_respell_of_ne h.first_ne_first h.first_ne_second,
    lookup_respell_of_ne h.second_ne_first h.second_ne_second]

variable (hfree : ∀ member ∈ members, member.1 ≠ .proper keys.second)

include hfree

theorem lookup_second_respell :
    Value.lookup keys.second (keys.respell members) = Value.lookup keys.first members := by
  refine lookup_map_key fun member hmember ↦ ?_
  by_cases h : member.1 = .proper keys.first
  · simp [respellKey, h]
  · simp [respellKey, h, hfree member hmember]

theorem find?_eq_map_first :
    keys.find? members = (Value.lookup keys.first members).map fun value ↦ (keys.first, value) := by
  rw [find?]
  cases Value.lookup keys.first members with
  | none => simp [lookup_eq_none_iff.mpr hfree]
  | some value => rfl

theorem find?_respell_self (hne : keys.first ≠ keys.second) :
    keys.find? (keys.respell members) =
      (Value.lookup keys.first members).map fun value ↦ (keys.second, value) := by
  have hnone : Value.lookup keys.first (keys.respell members) = none := by
    rw [lookup_eq_none_iff, respell, List.forall_mem_map]
    intro member _ heq
    by_cases h : member.1 = .proper keys.first
    · rw [respellKey, if_pos h] at heq
      exact hne (Text.proper.inj heq).symm
    · rw [respellKey_of_ne h] at heq
      exact h heq
  rw [find?, hnone, lookup_second_respell hfree]

variable (halias : keys.IsAlias fields)

include halias

theorem read_respell {α : Type} (hfield : field ∈ fields) (decode : Value → Validated α)
    (default : α) :
    field.read (keys.respell members) decode (.ok default) =
      (field.read members decode (.ok default)).relocate (Issue.respell keys) := by
  rcases halias.apart field hfield with rfl | hapart
  · rw [read, read, find?_respell_self hfree halias.ne, find?_eq_map_first hfree]
    cases Value.lookup field.first members with
    | none => rfl
    | some value =>
      exact (Validated.relocate_under_of_eq (Issue.respell_under_first field) (decode value)).symm
  · rw [relocate_read (Issue.isAbout_respell keys) hapart.first_ne_first hapart.second_ne_first,
      read, read, find?_respell_of_apart hapart]

/-- The field itself is given under its first key before, and under its second key after. -/
theorem gives_of_mem {value : Value} (hmem : (.proper keys.first, value) ∈ members) :
    gives fields members keys.first = true ∧
      gives fields (keys.respell members) keys.second = true := by
  obtain ⟨found, hfound⟩ := exists_lookup_eq_some hmem
  constructor
  · exact gives_of_find? halias.mem (by rw [find?_eq_map_first hfree, hfound, Option.map_some])
  · exact gives_of_find? halias.mem
      (by rw [find?_respell_self hfree halias.ne, hfound, Option.map_some])

/-- What is given under any other key is given as before. -/
theorem gives_respell_of_ne {key : String} (hfirst : key ≠ keys.first)
    (hsecond : key ≠ keys.second) :
    gives fields (keys.respell members) key = gives fields members key := by
  rw [gives, gives, Bool.eq_iff_iff, List.any_eq_true, List.any_eq_true]
  refine exists_congr fun field ↦ and_congr_right fun hfield ↦ ?_
  rcases halias.apart field hfield with rfl | hapart
  · rw [find?_respell_self hfree halias.ne, find?_eq_map_first hfree]
    simp [Option.any_map, Ne.symm hfirst, Ne.symm hsecond]
  · rw [find?_respell_of_apart hapart]

theorem extra?_respell {member : Text × Value} (hmem : member ∈ members) :
    extra? fields (keys.respell members) (keys.respellKey member.1, member.2) =
      extra? fields members member := by
  obtain ⟨key, value⟩ := member
  cases key with
  | broken letters => rfl
  | proper key =>
    by_cases hkey : key = keys.first
    · subst hkey
      obtain ⟨hbefore, hafter⟩ := gives_of_mem hfree halias hmem
      rw [respellKey, if_pos rfl, extra?_proper, extra?_proper, if_pos hbefore, if_pos hafter]
    · have hsecond : key ≠ keys.second := fun h ↦ hfree _ hmem (congrArg Text.proper h)
      rw [respellKey_of_ne fun h ↦ hkey (Text.proper.inj h), extra?_proper, extra?_proper,
        gives_respell_of_ne hfree halias hkey hsecond]

theorem extraMembers_respell :
    extraMembers fields (keys.respell members) = extraMembers fields members :=
  calc extraMembers fields (keys.respell members)
    _ = (keys.respell members).filterMap (extra? fields (keys.respell members)) :=
        extraMembers_eq_filterMap _ _
    _ = members.filterMap fun member ↦
          extra? fields (keys.respell members) (keys.respellKey member.1, member.2) :=
        List.filterMap_map
    _ = members.filterMap (extra? fields members) :=
        List.filterMap_congr fun _ hmem ↦ extra?_respell hfree halias hmem
    _ = extraMembers fields members := (extraMembers_eq_filterMap _ _).symm

theorem extraIssues_respell :
    extraIssues fields (keys.respell members) =
      (extraIssues fields members).map (Issue.respell keys) := by
  rw [map_extraIssues (Issue.isAbout_respell keys) fun _ hmem ↦ (gives_of_mem hfree halias hmem).1,
    extraIssues, extraIssues, extraMembers_respell hfree halias]

/-- Respelling an object moves the issues of the model that is read from it. -/
theorem assemble_respell {α β γ δ : Type} (make : α → β → γ → δ) {f g h : Keys} (hf : f ∈ fields)
    (hg : g ∈ fields) (hh : h ∈ fields) (decodeF : Value → Validated α) (a : α)
    (decodeG : Value → Validated β) (b : β) (decodeH : Value → Validated γ) (c : γ) :
    assemble make (f.read (keys.respell members) decodeF (.ok a))
        (g.read (keys.respell members) decodeG (.ok b))
        (h.read (keys.respell members) decodeH (.ok c))
        (extraIssues fields (keys.respell members)) =
      (assemble make (f.read members decodeF (.ok a)) (g.read members decodeG (.ok b))
        (h.read members decodeH (.ok c)) (extraIssues fields members)).relocate
          (Issue.respell keys) := by
  rw [relocate_assemble, read_respell hfree halias hf, read_respell hfree halias hg,
    read_respell hfree halias hh, extraIssues_respell hfree halias]

omit hfree halias in
theorem withProperKeys_respell {δ : Type} {result result' : Validated δ}
    (hresult : result' = result.relocate (Issue.respell keys)) :
    withProperKeys (keys.respell members) result' =
      (withProperKeys members result).relocate (Issue.respell keys) := by
  rw [relocate_withProperKeys (Issue.isAbout_respell keys), ← hresult, withProperKeys,
    withProperKeys, brokenKey?_respell]

end Keys

/-! ### Revising the value under a key -/

/-- Members with the value under one key changed. -/
def revise (key : String) (change : Value → Value) (members : List (Text × Value)) :
    List (Text × Value) :=
  members.map fun member ↦ (member.1, if member.1 = .proper key then change member.2 else member.2)

section Revising

variable {key : String} {change : Value → Value} {fields : List Keys} {field : Keys}
  {members : List (Text × Value)}

theorem revise_cons (key : String) (change : Value → Value) (member : Text × Value)
    (rest : List (Text × Value)) :
    revise key change (member :: rest) =
      (member.1, if member.1 = .proper key then change member.2 else member.2) ::
        revise key change rest := rfl

theorem lookup_revise (other : String) :
    Value.lookup other (revise key change members) =
      (Value.lookup other members).map fun value ↦ if other = key then change value else value := by
  induction members with
  | nil => rfl
  | cons member rest ih =>
    rw [revise_cons, lookup_cons, lookup_cons, ih]
    by_cases h : member.1 = .proper other <;> simp [h]

theorem find?_revise (field : Keys) :
    field.find? (revise key change members) =
      (field.find? members).map fun found ↦
        (found.1, if found.1 = key then change found.2 else found.2) := by
  rw [Keys.find?, Keys.find?, lookup_revise, lookup_revise]
  cases Value.lookup field.first members with
  | none => cases Value.lookup field.second members <;> rfl
  | some value => rfl

theorem read_revise_of_ne {α : Type} (hfirst : field.first ≠ key) (hsecond : field.second ≠ key)
    (decode : Value → Validated α) (default : Validated α) :
    field.read (revise key change members) decode default = field.read members decode default := by
  rw [Keys.read, Keys.read, find?_revise]
  cases hfound : field.find? members with
  | none => rfl
  | some found =>
    have hne : found.1 ≠ key := by
      rcases fst_of_find? hfound with h | h <;> rwa [h]
    simp [hne]

theorem gives_revise (fields : List Keys) (other : String) :
    gives fields (revise key change members) other = gives fields members other := by
  rw [gives, gives]
  congr 1
  funext field
  rw [find?_revise, Option.any_map]

theorem brokenKey?_revise (key : String) (change : Value → Value)
    (members : List (Text × Value)) :
    brokenKey? (revise key change members) = brokenKey? members := by
  rw [brokenKey?, brokenKey?, revise, List.map_map]
  rfl

variable (hkey : Keys.just key ∈ fields)

include hkey

theorem gives_just_of_mem {value : Value} (hmem : (.proper key, value) ∈ members) :
    gives fields members key = true := by
  obtain ⟨found, hfound⟩ := exists_lookup_eq_some hmem
  have hfind : (Keys.just key).find? members = some (key, found) := by
    simp [Keys.find?, Keys.just, hfound]
  exact gives_of_find? hkey hfind

theorem extra?_revise {member : Text × Value} (hmem : member ∈ members) :
    extra? fields (revise key change members)
        (member.1, if member.1 = .proper key then change member.2 else member.2) =
      extra? fields members member := by
  obtain ⟨name, value⟩ := member
  cases name with
  | broken letters => rfl
  | proper name =>
    rw [extra?_proper, extra?_proper, gives_revise]
    by_cases hname : name = key
    · subst hname
      rw [if_pos (gives_just_of_mem hkey hmem), if_pos (gives_just_of_mem hkey hmem)]
    · rw [if_neg fun h ↦ hname (Text.proper.inj h)]

theorem extraIssues_revise {issueChange : Issue → Issue} (hchange : Issue.IsAbout key issueChange) :
    extraIssues fields (revise key change members) =
      (extraIssues fields members).map issueChange := by
  have hextra : extraMembers fields (revise key change members) = extraMembers fields members :=
    calc extraMembers fields (revise key change members)
      _ = (revise key change members).filterMap (extra? fields (revise key change members)) :=
          extraMembers_eq_filterMap _ _
      _ = members.filterMap fun member ↦ extra? fields (revise key change members)
            (member.1, if member.1 = .proper key then change member.2 else member.2) :=
          List.filterMap_map
      _ = members.filterMap (extra? fields members) :=
          List.filterMap_congr fun _ hmem ↦ extra?_revise hkey hmem
      _ = extraMembers fields members := (extraMembers_eq_filterMap _ _).symm
  rw [map_extraIssues hchange fun _ hmem ↦ gives_just_of_mem hkey hmem, extraIssues, extraIssues,
    hextra]

end Revising

end TagScope
