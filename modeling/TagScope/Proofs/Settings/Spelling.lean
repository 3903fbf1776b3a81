import TagScope.Proofs.Settings.Members

/-!
# Settings are read back, whichever keys they are given under

What is written of options, settings and requests is read back as they were (`ofValue_toValue`).
Options and settings given under their second keys are the same as under their first ones, and so
are their issues but for the key (`Options.ofValue_respell`, `Settings.ofValue_respell`). This holds
of options within settings as well (`Settings.ofValue_revise`).
-/

set_option autoImplicit false

namespace TagScope

namespace Options

/-- The fields of options. All of them have two keys. -/
def fields : List Keys := [allowGlobalsKeys, autoImportKeys, typescriptEnabledKeys]

theorem ofMembers_eq_assemble (members : List (Text × Value)) :
    ofMembers members =
      assemble Options.mk (allowGlobalsKeys.read members Flag.ofValue (.ok false))
        (autoImportKeys.read members Flag.ofValue (.ok true))
        (typescriptEnabledKeys.read members Flag.ofValue (.ok false))
        (extraIssues fields members) := by
  unfold ofMembers fields
  cases allowGlobalsKeys.read members Flag.ofValue (.ok false) <;>
    cases autoImportKeys.read members Flag.ofValue (.ok true) <;>
    cases typescriptEnabledKeys.read members Flag.ofValue (.ok false) <;>
    cases extraIssues [allowGlobalsKeys, autoImportKeys, typescriptEnabledKeys] members <;> rfl

end Options

namespace Settings

/-- The fields of settings. Only the first of them has two keys. -/
def fields : List Keys := [sourceTypeKeys, globalsKeys, optionsKeys]

theorem ofMembers_eq_assemble (channel : Channel) (members : List (Text × Value)) :
    ofMembers channel members =
      assemble Settings.mk (sourceTypeKeys.read members sourceTypeOfValue (.ok .module))
        (globalsKeys.read members namesOfValue (.ok browserGlobals))
        (optionsKeys.read members (Options.ofValue channel) (.ok {}))
        (extraIssues fields members) := by
  unfold ofMembers fields
  cases sourceTypeKeys.read members sourceTypeOfValue (.ok .module) <;>
    cases globalsKeys.read members namesOfValue (.ok browserGlobals) <;>
    cases optionsKeys.read members (Options.ofValue channel) (.ok {}) <;>
    cases extraIssues [sourceTypeKeys, globalsKeys, optionsKeys] members <;> rfl

end Settings

/-! ### Respelled objects -/

namespace Value

/-- Data that, if it is an object, has no member of a name. -/
def Lacks (key : String) (value : Value) : Prop :=
  ∀ members, value = .object members → ∀ member ∈ members, member.1 ≠ .proper key

/-- An object respelled; other data stays as it is. -/
def respell (keys : Keys) : Value → Value
  | .object members => .object (keys.respell members)
  | value => value

end Value

theorem Options.isAlias_of_mem_fields {keys : Keys} (h : keys ∈ fields) : keys.IsAlias fields := by
  have hall : ∀ keys ∈ fields, keys.first ≠ keys.second ∧
      ∀ field ∈ fields, field = keys ∨ field.Apart keys := by
    decide
  exact ⟨(hall keys h).1, h, (hall keys h).2⟩

theorem Settings.isAlias_sourceTypeKeys : sourceTypeKeys.IsAlias fields where
  ne := by decide
  mem := by decide
  apart := by decide

/-- Options are the same under either key, and their issues differ by the key only. -/
theorem Options.ofValue_respell (channel : Channel) {keys : Keys} (hkeys : keys ∈ fields)
    {value : Value} (hlacks : value.Lacks keys.second) :
    ofValue channel (value.respell keys) =
      (ofValue channel value).relocate (Issue.respell keys) := by
  cases value with
  | object members =>
    refine Keys.withProperKeys_respell ?_
    rw [ofMembers_eq_assemble, ofMembers_eq_assemble]
    exact Keys.assemble_respell (hlacks members rfl) (isAlias_of_mem_fields hkeys) _
      (by simp [fields]) (by simp [fields]) (by simp [fields]) _ _ _ _ _ _
  | _ => rfl

theorem Settings.ofValue_respell (channel : Channel) {value : Value}
    (hlacks : value.Lacks sourceTypeKeys.second) :
    ofValue channel (value.respell sourceTypeKeys) =
      (ofValue channel value).relocate (Issue.respell sourceTypeKeys) := by
  cases value with
  | object members =>
    refine Keys.withProperKeys_respell ?_
    rw [ofMembers_eq_assemble, ofMembers_eq_assemble]
    exact Keys.assemble_respell (hlacks members rfl) isAlias_sourceTypeKeys _
      (by simp [fields]) (by simp [fields]) (by simp [fields]) _ _ _ _ _ _
  | _ => rfl

/-- Options within settings are the same under either key, and the issues of the settings differ by
the key within the options only. -/
theorem Settings.ofValue_revise (channel : Channel) {keys : Keys} (hkeys : keys ∈ Options.fields)
    {members : List (Text × Value)}
    (hlacks : ∀ value, Value.lookup "options" members = some value → value.Lacks keys.second) :
    ofValue channel (.object (revise "options" (Value.respell keys) members)) =
      (ofValue channel (.object members)).relocate
        (Issue.within "options" (Issue.respell keys)) := by
  have habout := Issue.isAbout_within "options" (Issue.respell keys)
  have hoptions : optionsKeys.read (revise "options" (Value.respell keys) members)
      (Options.ofValue channel) (.ok {}) =
        (optionsKeys.read members (Options.ofValue channel) (.ok {})).relocate
          (Issue.within "options" (Issue.respell keys)) := by
    rw [Keys.read, Keys.read, find?_revise]
    cases hfound : Value.lookup "options" members with
    | none => simp [Keys.find?, optionsKeys, Keys.just, hfound, Validated.relocate]
    | some value =>
      have hfind : optionsKeys.find? members = some ("options", value) := by
        simp [Keys.find?, optionsKeys, Keys.just, hfound]
      rw [hfind]
      simp only [Option.map_some, if_true]
      rw [Options.ofValue_respell channel hkeys (hlacks value hfound),
        Validated.relocate_under (Issue.within_under "options" (Issue.respell keys))]
  have hmembers : ofMembers channel (revise "options" (Value.respell keys) members) =
      (ofMembers channel members).relocate (Issue.within "options" (Issue.respell keys)) := by
    rw [ofMembers_eq_assemble, ofMembers_eq_assemble, relocate_assemble, hoptions,
      extraIssues_revise (by decide) habout]
    congr 1
    · rw [read_revise_of_ne (by decide) (by decide)]
      exact (relocate_read habout (by decide) (by decide) _ _).symm
    · rw [read_revise_of_ne (by decide) (by decide)]
      exact (relocate_read habout (by decide) (by decide) _ _).symm
  rw [ofValue, ofValue, relocate_withProperKeys habout, ← hmembers, withProperKeys, withProperKeys,
    brokenKey?_revise]

/-! ### Reading back -/

theorem namesFrom_ofTexts (index : Nat) (names : List String) :
    namesFrom index (names.map Value.ofText) = .ok names := by
  induction names generalizing index with
  | nil => rfl
  | cons name rest ih =>
    rw [List.map_cons, namesFrom, ih]
    rfl

theorem sourceTypeOfValue_name (sourceType : SourceType) :
    sourceTypeOfValue (.ofText sourceType.name) = .ok sourceType := by
  cases sourceType <;> rfl

theorem read_eq_ok {α : Type} {field : Keys} {members : List (Text × Value)} {key : String}
    {value : Value} {decode : Value → Validated α} {a : α}
    (hfound : field.find? members = some (key, value)) (hvalue : decode value = .ok a)
    (default : Validated α) : field.read members decode default = .ok a := by
  rw [Keys.read, hfound]
  simp only [hvalue]
  rfl

theorem Options.ofValue_toValue (channel : Channel) (options : Options) :
    ofValue channel options.toValue = .ok options := rfl

theorem Settings.ofValue_toValue (channel : Channel) (settings : Settings) :
    ofValue channel settings.toValue = .ok settings := by
  have hsourceType := sourceTypeOfValue_name settings.sourceType
  have hglobals : namesOfValue (.ofTexts settings.globals) = .ok settings.globals :=
    namesFrom_ofTexts 0 settings.globals
  have hoptions := Options.ofValue_toValue channel settings.options
  change ofMembers channel _ = .ok settings
  rw [ofMembers_eq_assemble, read_eq_ok rfl hsourceType, read_eq_ok rfl hglobals,
    read_eq_ok rfl hoptions]
  rfl

theorem Job.ofValue_toValue (channel : Channel) (job : Job) :
    ofValue channel job.toValue = .ok job := by
  have hsettings : (Keys.just "settings").read
      [("source", .ofText job.source), ("filename", .ofText job.filename),
        ("settings", job.settings.toValue), ("fix", .bool job.fix)]
      (Settings.ofValue channel) (.ok {}) = .ok job.settings :=
    read_eq_ok rfl (Settings.ofValue_toValue channel job.settings) _
  change ofMembers channel _ = .ok job
  unfold ofMembers
  rw [hsettings]
  rfl

/-! ### Settings as data -/

/-- What is written of options, settings and requests is read back. Options and settings that are
respelled are read as before, or have the issues that they had before, under the other key.

What has been read holds no half of a surrogate pair: a global name with one is left out on reading
(`nameOfValue`), and in the source and the filename of a request every half is replaced
(`textOfValue`). -/
theorem Settings.reading_exact (channel : Channel) :
    (∀ options : Options, Options.ofValue channel options.toValue = .ok options) ∧
    (∀ settings : Settings, Settings.ofValue channel settings.toValue = .ok settings) ∧
    (∀ job : Job, Job.ofValue channel job.toValue = .ok job) ∧
    (∀ keys ∈ Options.fields, ∀ value : Value, value.Lacks keys.second →
      Options.ofValue channel (value.respell keys) =
        (Options.ofValue channel value).relocate (Issue.respell keys)) ∧
    (∀ value : Value, value.Lacks sourceTypeKeys.second →
      Settings.ofValue channel (value.respell sourceTypeKeys) =
        (Settings.ofValue channel value).relocate (Issue.respell sourceTypeKeys)) ∧
    ∀ keys ∈ Options.fields, ∀ members,
      (∀ value, Value.lookup "options" members = some value → value.Lacks keys.second) →
        Settings.ofValue channel (.object (revise "options" (Value.respell keys) members)) =
          (Settings.ofValue channel (.object members)).relocate
            (Issue.within "options" (Issue.respell keys)) := by
  refine ⟨Options.ofValue_toValue channel, Settings.ofValue_toValue channel,
    Job.ofValue_toValue channel, ?_, ?_, ?_⟩
  · intro keys hkeys value hlacks
    exact Options.ofValue_respell channel hkeys hlacks
  · intro value hlacks
    exact Settings.ofValue_respell channel hlacks
  · intro keys hkeys members hlacks
    exact Settings.ofValue_revise channel hkeys hlacks

/-- A flag that is none and a key that is none, with the flag under its first key. -/
def muddledOptions : Value :=
  .object [("theme", .null), ("allowGlobals", .ofText "maybe"), ("autoImport", .ofText "No")]

theorem muddledOptions_lacks : muddledOptions.Lacks "allow_globals" := by
  intro members hmembers
  obtain rfl := Value.object.inj hmembers
  decide

theorem Settings.reading_exact_muddled :
    Options.allowGlobalsKeys ∈ Options.fields ∧ muddledOptions.Lacks "allow_globals" ∧
      Options.ofValue .plain (muddledOptions.respell Options.allowGlobalsKeys) =
        .error [⟨.boolParsing, [.member "allow_globals"], .ofText "maybe"⟩,
          ⟨.extraForbidden, [.member "theme"], .null⟩] :=
  ⟨by decide, muddledOptions_lacks,
    (Settings.reading_exact .plain).2.2.2.1 Options.allowGlobalsKeys (by decide) muddledOptions
      muddledOptions_lacks⟩

end TagScope
