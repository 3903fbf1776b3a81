import Mathlib.Data.List.Basic
import TagScope.Scope.Declaration

/-!
# What a site declares

`Declares` lists what a named site declares, one case for each group of kinds that are treated
alike, and `Declares.declarations_eq` says that the analysis reads just this off the site. All that
is known of declarations follows by these cases: names go to the nearest owner of variables exactly
when the declaring word is `var`, and to the scope around their own only from declarations of
functions and classes (`declaration_spec`), which always do so with their names
(`exists_enclosing_iff`).
-/

set_option autoImplicit false

namespace TagScope.Site

variable {s : Site} {ds : List Declaration} {d : Declaration}

/-! ### The cases -/

def functionDeclarations : List String :=
  ["function_declaration", "generator_function_declaration"]

def classDeclarations : List String :=
  ["class_declaration", "abstract_class_declaration"]

/-- The kinds of nodes that declare their name in the innermost scope only, with their words. -/
def namesOwn : List (String × String) :=
  [("function_expression", "function"), ("function", "function"),
    ("generator_function", "function"), ("function_signature", "function"), ("class", "class"),
    ("enum_declaration", "enum"), ("interface_declaration", "type"),
    ("type_alias_declaration", "type")]

/-- The kinds of nodes that declare anything. -/
def declaring : List String :=
  ["import_statement", "variable_declarator", "required_parameter", "optional_parameter",
    "arrow_function", "catch_clause", "for_in_statement", "type_parameter", "internal_module"] ++
    functionDeclarations ++ classDeclarations ++ namesOwn.map Prod.fst

/-- What a site declares if it is named. -/
inductive Declares (s : Site) : List Declaration → Prop
  | imports : s.node.kind = "import_statement" →
      Declares s (declareAll .current "import" s.importedSites)
  | declarator : s.node.kind = "variable_declarator" →
      Declares s
        (declareAll (destinationOf s.declaratorWord) s.declaratorWord (s.patternSites "name"))
  | parameters : s.node.kind ∈ ["required_parameter", "optional_parameter"] →
      Declares s (if s.grandparent?.any Node.isFunction then
        declareAll .current "param" (s.parameterPattern?.toList.flatMap boundIdentifiers) else [])
  | soleParameter : s.node.kind = "arrow_function" →
      Declares s (declareAll .current "param" (s.fieldSites "parameter"))
  | caught : s.node.kind = "catch_clause" →
      Declares s (declareAll .current "catch" (s.patternSites "parameter"))
  | functionName : s.node.kind ∈ functionDeclarations →
      Declares s (declareAll .enclosing "function" (s.fieldSites "name"))
  | className : s.node.kind ∈ classDeclarations →
      Declares s (declareAll .enclosing "class" (s.fieldSites "name") ++
        declareAll .current "class" (s.fieldSites "name"))
  | ownName {word : String} : (s.node.kind, word) ∈ namesOwn →
      Declares s (declareAll .current word (s.fieldSites "name"))
  | loopVariables {word : String} : s.node.kind = "for_in_statement" → s.loopWord? = some word →
      Declares s (declareAll (destinationOf word) word (s.patternSites "left"))
  | loopTarget : s.node.kind = "for_in_statement" → s.loopWord? = none → Declares s []
  | typeParameter : s.node.kind = "type_parameter" →
      Declares s (if s.grandparent?.any fun owner ↦ owner.isFunction || owner.isClass then
        declareAll .current "type" (s.fieldSites "name") else [])
  | namespaceName : s.node.kind = "internal_module" →
      Declares s (declareAll .current "namespace"
        ((s.fieldSites "name").filter fun name ↦ name.node.kind = "identifier"))
  | nothing : s.node.kind ∉ declaring → Declares s []

/-- What a case gives is what the analysis reads off a named site. -/
theorem Declares.declarations_eq (h : s.Declares ds) (hnamed : s.node.named = true) :
    s.declarations = ds := by
  unfold declarations
  rw [hnamed, if_neg (by decide)]
  cases h with
  | imports hkind => simp only [hkind]
  | declarator hkind => simp only [hkind]
  | parameters hkind =>
    rcases List.mem_pair.mp hkind with hkind | hkind <;> simp only [hkind]
  | soleParameter hkind => simp only [hkind]
  | caught hkind => simp only [hkind]
  | functionName hkind =>
    rcases List.mem_pair.mp hkind with hkind | hkind <;> simp only [hkind]
  | className hkind =>
    rcases List.mem_pair.mp hkind with hkind | hkind <;> simp only [hkind]
  | ownName hkind =>
    simp only [namesOwn, List.mem_cons, Prod.mk.injEq, List.not_mem_nil, or_false] at hkind
    rcases hkind with hname | hname | hname | hname | hname | hname | hname | hname <;>
      simp only [hname.1, hname.2]
  | loopVariables hkind hword => simp only [hkind, hword]
  | loopTarget hkind hword => simp only [hkind, hword]
  | typeParameter hkind => simp only [hkind]
  | namespaceName hkind => simp only [hkind]
  | nothing hkind =>
    -- every branch but the last one is for a kind of the list
    split <;> simp_all [declaring, functionDeclarations, classDeclarations, namesOwn]

/-- One of the cases applies to every site. -/
theorem exists_declares (s : Site) : ∃ ds, s.Declares ds := by
  by_cases hkind : s.node.kind ∈ declaring
  · simp only [declaring, List.mem_append, List.mem_cons, List.not_mem_nil, or_false] at hkind
    rcases hkind with ((hkind | hkind) | hkind) | hkind
    · rcases hkind with hkind | hkind | hkind | hkind | hkind | hkind | hkind | hkind | hkind
      · exact ⟨_, .imports hkind⟩
      · exact ⟨_, .declarator hkind⟩
      · exact ⟨_, .parameters (List.mem_pair.mpr (.inl hkind))⟩
      · exact ⟨_, .parameters (List.mem_pair.mpr (.inr hkind))⟩
      · exact ⟨_, .soleParameter hkind⟩
      · exact ⟨_, .caught hkind⟩
      · cases hword : s.loopWord? with
        | none => exact ⟨[], .loopTarget hkind hword⟩
        | some word => exact ⟨_, .loopVariables hkind hword⟩
      · exact ⟨_, .typeParameter hkind⟩
      · exact ⟨_, .namespaceName hkind⟩
    · exact ⟨_, .functionName hkind⟩
    · exact ⟨_, .className hkind⟩
    · obtain ⟨⟨kind, word⟩, hmem, rfl⟩ := List.mem_map.mp hkind
      exact ⟨_, .ownName hmem⟩
  · exact ⟨[], .nothing hkind⟩

theorem declares_declarations (hnamed : s.node.named = true) : s.Declares s.declarations := by
  obtain ⟨ds, h⟩ := s.exists_declares
  rwa [h.declarations_eq hnamed]

theorem declarations_of_not_named (h : s.node.named ≠ true) : s.declarations = [] := by
  rw [declarations, if_pos (by simpa using h)]

/-! ### Destinations -/

theorem mem_declareAll {destination : Destination} {kind : String} {identifiers : List Site}
    (h : d ∈ declareAll destination kind identifiers) :
    d.destination = destination ∧ d.kind = kind := by
  obtain ⟨identifier, -, rfl⟩ := List.mem_map.mp h
  exact ⟨rfl, rfl⟩

theorem destinationOf_eq_varOwner_iff (word : String) :
    destinationOf word = .varOwner ↔ word = "var" := by
  unfold destinationOf
  split_ifs with h
  · simp [h]
  · simp [h]

theorem destinationOf_ne_enclosing (word : String) : destinationOf word ≠ .enclosing := by
  unfold destinationOf
  split_ifs <;> decide

/-- The kinds of nodes that declare variables with a word of their own. -/
def declaresByWord : List String :=
  ["variable_declarator", "for_in_statement"]

/-- The kinds of nodes whose name is declared in the scope around the one they open. -/
def namesEnclosing : List String :=
  functionDeclarations ++ classDeclarations

/-- What a declaration of a node of a kind can be: it goes to the owner of variables exactly when
its word is `var`, which only declarators and loop heads have, and to the enclosing scope only from
a declaration of a function or a class. -/
structure DeclarationOf (kind : String) (d : Declaration) : Prop where
  varOwner_iff : d.destination = .varOwner ↔ d.kind = "var"
  varOwner : d.destination = .varOwner → kind ∈ declaresByWord
  enclosing : d.destination = .enclosing → kind ∈ namesEnclosing

section Kinds

variable {kind word : String} {identifiers : List Site}

theorem declarationOf_destinationOf (hkind : kind ∈ declaresByWord)
    (h : d ∈ declareAll (destinationOf word) word identifiers) : DeclarationOf kind d := by
  obtain ⟨hdestination, hdkind⟩ := mem_declareAll h
  refine ⟨?_, fun _ ↦ hkind, fun henclosing ↦ ?_⟩
  · rw [hdestination, hdkind, destinationOf_eq_varOwner_iff]
  · exact absurd (hdestination.symm.trans henclosing) (destinationOf_ne_enclosing word)

theorem declarationOf_current (hword : word ≠ "var")
    (h : d ∈ declareAll .current word identifiers) : DeclarationOf kind d := by
  obtain ⟨hdestination, hkind⟩ := mem_declareAll h
  refine ⟨?_, fun howner ↦ ?_, fun henclosing ↦ ?_⟩
  · rw [hdestination, hkind]
    simp [hword]
  · cases hdestination.symm.trans howner
  · cases hdestination.symm.trans henclosing

theorem declarationOf_enclosing (hword : word ≠ "var") (hkind : kind ∈ namesEnclosing)
    (h : d ∈ declareAll .enclosing word identifiers) : DeclarationOf kind d := by
  obtain ⟨hdestination, hdkind⟩ := mem_declareAll h
  refine ⟨?_, fun howner ↦ ?_, fun _ ↦ hkind⟩
  · rw [hdestination, hdkind]
    simp [hword]
  · cases hdestination.symm.trans howner

theorem declarationOf_ite (hword : word ≠ "var") {condition : Bool}
    (h : d ∈ if condition = true then declareAll .current word identifiers else []) :
    DeclarationOf kind d := by
  split_ifs at h
  · exact declarationOf_current hword h
  · simp at h

end Kinds

theorem Declares.declarationOf (h : s.Declares ds) (hd : d ∈ ds) :
    DeclarationOf s.node.kind d := by
  cases h with
  | imports hkind => exact declarationOf_current (by decide) hd
  | declarator hkind => exact declarationOf_destinationOf (by rw [hkind]; decide) hd
  | parameters hkind => exact declarationOf_ite (by decide) hd
  | soleParameter hkind => exact declarationOf_current (by decide) hd
  | caught hkind => exact declarationOf_current (by decide) hd
  | functionName hkind =>
    exact declarationOf_enclosing (by decide) (List.mem_append_left _ hkind) hd
  | className hkind =>
    rcases List.mem_append.mp hd with hd | hd
    · exact declarationOf_enclosing (by decide) (List.mem_append_right _ hkind) hd
    · exact declarationOf_current (by decide) hd
  | ownName hname =>
    have hwords : ∀ name ∈ namesOwn, name.2 ≠ "var" := by decide
    exact declarationOf_current (hwords _ hname) hd
  | loopVariables hkind hword => exact declarationOf_destinationOf (by rw [hkind]; decide) hd
  | loopTarget hkind hword => simp at hd
  | typeParameter hkind => exact declarationOf_ite (by decide) hd
  | namespaceName hkind => exact declarationOf_current (by decide) hd
  | nothing hkind => simp at hd

/-- Only named nodes declare, and every declaration is one of its node's kind. -/
theorem declaration_spec (h : d ∈ s.declarations) :
    s.node.named = true ∧ DeclarationOf s.node.kind d := by
  by_cases hnamed : s.node.named = true
  · exact ⟨hnamed, (declares_declarations hnamed).declarationOf h⟩
  · simp [declarations_of_not_named hnamed] at h

theorem exists_mem_declareAll_iff {destination : Destination} {kind : String}
    {identifiers : List Site} {name : Site} :
    (∃ d ∈ declareAll destination kind identifiers,
        d.destination = .enclosing ∧ d.identifier = name) ↔
      destination = .enclosing ∧ name ∈ identifiers := by
  simp [declareAll, and_left_comm]

/-- What goes to the scope around a site's own are the names of functions and classes that are
declared. -/
theorem exists_enclosing_iff (hnamed : s.node.named = true) (name : Site) :
    (∃ d ∈ s.declarations, d.destination = .enclosing ∧ d.identifier = name) ↔
      s.node.kind ∈ namesEnclosing ∧ s.child? "name" = some name := by
  have hnames : s.node.kind ∈ namesEnclosing →
      ((∃ d ∈ s.declarations, d.destination = .enclosing ∧ d.identifier = name) ↔
        s.child? "name" = some name) := by
    intro hkind
    rcases List.mem_append.mp hkind with hkind | hkind
    · rw [(Declares.functionName hkind).declarations_eq hnamed]
      simp [exists_mem_declareAll_iff, fieldSites]
    · rw [(Declares.className hkind).declarations_eq hnamed]
      simp [or_and_right, exists_or, exists_mem_declareAll_iff, fieldSites]
  constructor
  · rintro ⟨d, hd, henclosing, hname⟩
    have hkind := (declaration_spec hd).2.enclosing henclosing
    exact ⟨hkind, (hnames hkind).mp ⟨d, hd, henclosing, hname⟩⟩
  · rintro ⟨hkind, hname⟩
    exact (hnames hkind).mpr hname

/-- A site that declares a name in the scope around its own opens a scope. -/
theorem opensScope_of_enclosing (h : d ∈ s.declarations) (henclosing : d.destination = .enclosing) :
    s.opensScope = true := by
  obtain ⟨hnamed, hdeclaration⟩ := declaration_spec h
  have howners : ∀ kind ∈ namesEnclosing,
      (Kind.functions.contains kind || Kind.classes.contains kind) = true := by
    decide
  have howner : (s.node.isFunction || s.node.isClass) = true :=
    howners s.node.kind (hdeclaration.enclosing henclosing)
  simp only [opensScope, hnamed, howner, Bool.true_and, Bool.true_or]

end TagScope.Site
