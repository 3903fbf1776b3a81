import TagScope.Settings.Basic
import TagScope.Settings.Issue
import TagScope.Text.Ascii

/-!
Reading settings and requests from data. Flags may be written as words or numbers.
A field can be given under either of its two keys; the first one wins, and the
second then counts as a key that is not permitted. A broken text is a text, but it
is no word that could be understood, and no key.
-/

set_option autoImplicit false

namespace TagScope

namespace Flag

def trueWords : List String := ["1", "on", "t", "true", "y", "yes"]

def falseWords : List String := ["0", "off", "f", "false", "n", "no"]

def ofText (text : String) : Validated Bool :=
  if falseWords.contains (Ascii.lower text) then .ok false
  else if trueWords.contains (Ascii.lower text) then .ok true
  else .fail .boolParsing (.ofText text)

/-- The flag of a number: zero and one are flags. Other whole numbers are told apart from
fractions, as long as they fit in a word of 64 bits. -/
def ofWhole (n : Int) (fits : Bool) (input : Value) : Validated Bool :=
  if n = 0 then .ok false
  else if n = 1 then .ok true
  else if fits then .fail .boolParsing input
  else .fail .boolType input

/-- Words of 64 bits hold the whole numbers from minus this one on and below it. -/
def wordBound : Int := Nat.pow 2 63

def ofInt (n : Int) : Validated Bool :=
  ofWhole n (decide (-wordBound ≤ n) && decide (n < wordBound)) (.int n)

/-- The least word is no double that fits. -/
def ofDouble (d : Double) : Validated Bool :=
  match d.whole? with
  | some n => ofWhole n (decide (-wordBound < n) && decide (n < wordBound)) (.double d)
  | none => .fail .boolType (.double d)

def ofValue : Value → Validated Bool
  | .bool b => .ok b
  | .int n => ofInt n
  | .double d => ofDouble d
  | .text (.proper text) => ofText text
  | .text (.broken letters) => .fail .stringUnicode (.text (.broken letters))
  | input => .fail .boolType input

end Flag

/-- A text that is shown as it is; halves of pairs have no place in it. -/
def textOfValue : Value → Validated String
  | .text text => .ok text.shown
  | input => .fail .stringType input

/-- A name; a broken text is none, but passes for one that nothing can have. -/
def nameOfValue : Value → Validated (Option String)
  | .text text => .ok text.proper?
  | input => .fail .stringType input

/-- The names of an array, numbered from `index`. -/
def namesFrom (index : Nat) : List Value → Validated (List String)
  | [] => .ok []
  | item :: rest =>
    match (nameOfValue item).under (.item index), namesFrom (index + 1) rest with
    | .ok name, .ok names => .ok (name.toList ++ names)
    | name, names => .error (name.issues ++ names.issues)

def namesOfValue : Value → Validated (List String)
  | .array items => namesFrom 0 items
  | input => .fail .listType input

def sourceTypeOfValue : Value → Validated SourceType
  | .text (.proper name) =>
    match SourceType.ofName? name with
    | some sourceType => .ok sourceType
    | none => .fail .sourceTypeLiteral (.ofText name)
  | .text (.broken letters) => .fail .stringUnicode (.text (.broken letters))
  | input => .fail .sourceTypeLiteral input

/-- The two keys of a field; they may be the same. -/
structure Keys where
  first : String
  second : String
deriving DecidableEq, Repr

namespace Keys

def just (key : String) : Keys := ⟨key, key⟩

/-- The key under which an object gives the field, with its value. -/
def find? (keys : Keys) (members : List (Text × Value)) : Option (String × Value) :=
  match Value.lookup keys.first members with
  | some value => some (keys.first, value)
  | none => (Value.lookup keys.second members).map fun value ↦ (keys.second, value)

/-- Reads a field; an issue is located at the key that was given. -/
def read {α : Type} (keys : Keys) (members : List (Text × Value)) (decode : Value → Validated α)
    (default : Validated α) : Validated α :=
  match keys.find? members with
  | some (key, value) => (decode value).under (.member key)
  | none => default

end Keys

/-- The members of an object that give none of the fields. -/
def extraMembers (fields : List Keys) (members : List (Text × Value)) : List (String × Value) :=
  (members.filterMap fun member ↦ member.1.proper?.map fun key ↦ (key, member.2)).filter
    fun member ↦
      !fields.any fun keys ↦ (keys.find? members).any fun found ↦ found.1 = member.1

def extraIssues (fields : List Keys) (members : List (Text × Value)) : List Issue :=
  (extraMembers fields members).map fun (key, value) ↦
    ⟨.extraForbidden, [.member key], value⟩

/-- The first key of an object that is no key. -/
def brokenKey? (members : List (Text × Value)) : Option Text :=
  (members.map Prod.fst).find? fun key ↦ key.proper?.isNone

/-- A result for an object that has to have proper keys. -/
def withProperKeys {α : Type} (members : List (Text × Value)) (result : Validated α) :
    Validated α :=
  match brokenKey? members with
  | some key => .fail .stringUnicode (.text key)
  | none => result

/-- How data came: as it is, or as the body of a request. -/
inductive Channel where
  | plain
  | body
deriving DecidableEq, Repr

/-- What is said of data that is no object but should have been a model. -/
def Channel.notObject (channel : Channel) (model : String) : IssueKind :=
  match channel with
  | .plain => .modelType model
  | .body => .attributesType

namespace Options

def allowGlobalsKeys : Keys := ⟨"allowGlobals", "allow_globals"⟩

def autoImportKeys : Keys := ⟨"autoImport", "auto_import"⟩

def typescriptEnabledKeys : Keys := ⟨"typescriptEnabled", "typescript_enabled"⟩

def ofMembers (members : List (Text × Value)) : Validated Options :=
  let allowGlobals := allowGlobalsKeys.read members Flag.ofValue (.ok false)
  let autoImport := autoImportKeys.read members Flag.ofValue (.ok true)
  let typescriptEnabled := typescriptEnabledKeys.read members Flag.ofValue (.ok false)
  let extra := extraIssues [allowGlobalsKeys, autoImportKeys, typescriptEnabledKeys] members
  match allowGlobals, autoImport, typescriptEnabled, extra with
  | .ok a, .ok b, .ok c, [] => .ok ⟨a, b, c⟩
  | _, _, _, _ =>
    .error (allowGlobals.issues ++ autoImport.issues ++ typescriptEnabled.issues ++ extra)

def ofValue (channel : Channel) : Value → Validated Options
  | .object members => withProperKeys members (ofMembers members)
  | input => .fail (channel.notObject "RuleOptions") input

def toValue (options : Options) : Value :=
  .object [("allowGlobals", .bool options.allowGlobals), ("autoImport", .bool options.autoImport),
    ("typescriptEnabled", .bool options.typescriptEnabled)]

end Options

namespace Settings

def sourceTypeKeys : Keys := ⟨"sourceType", "source_type"⟩

def globalsKeys : Keys := .just "globals"

def optionsKeys : Keys := .just "options"

def ofMembers (channel : Channel) (members : List (Text × Value)) : Validated Settings :=
  let sourceType := sourceTypeKeys.read members sourceTypeOfValue (.ok .module)
  let globals := globalsKeys.read members namesOfValue (.ok browserGlobals)
  let options := optionsKeys.read members (Options.ofValue channel) (.ok {})
  let extra := extraIssues [sourceTypeKeys, globalsKeys, optionsKeys] members
  match sourceType, globals, options, extra with
  | .ok a, .ok b, .ok c, [] => .ok ⟨a, b, c⟩
  | _, _, _, _ => .error (sourceType.issues ++ globals.issues ++ options.issues ++ extra)

def ofValue (channel : Channel) : Value → Validated Settings
  | .object members => withProperKeys members (ofMembers channel members)
  | input => .fail (channel.notObject "LintSettings") input

def toValue (settings : Settings) : Value :=
  .object [("sourceType", .ofText settings.sourceType.name), ("globals", .ofTexts settings.globals),
    ("options", settings.options.toValue)]

end Settings

namespace Job

/-- Keys that give no field of a request are passed over. -/
def ofMembers (channel : Channel) (members : List (Text × Value)) : Validated Job :=
  let source := (Keys.just "source").read members textOfValue
    (.error [⟨.missing, [.member "source"], .object members⟩])
  let filename := (Keys.just "filename").read members textOfValue (.ok "input.tsx")
  let settings := (Keys.just "settings").read members (Settings.ofValue channel) (.ok {})
  let fix := (Keys.just "fix").read members Flag.ofValue (.ok false)
  match source, filename, settings, fix with
  | .ok a, .ok b, .ok c, .ok d => .ok ⟨a, b, c, d⟩
  | _, _, _, _ => .error (source.issues ++ filename.issues ++ settings.issues ++ fix.issues)

def ofValue (channel : Channel) : Value → Validated Job
  | .object members => ofMembers channel members
  | input => .fail (channel.notObject "LintRequest") input

def toValue (request : Job) : Value :=
  .object [("source", .ofText request.source), ("filename", .ofText request.filename),
    ("settings", request.settings.toValue), ("fix", .bool request.fix)]

end Job

end TagScope
