import TagScope.Rule.Check
import TagScope.Value

/-!
What the rule says of itself: its name, its documentation, its messages and the
schema of its options.
-/

set_option autoImplicit false

namespace TagScope.Rule

def id : String := "jsx-no-undef"

def documentation : String :=
  "https://github.com/solidjs-community/eslint-plugin-solid/blob/main/docs/jsx-no-undef.md"

/-- The schema of one option that is a flag. -/
def flagSchema (title description : String) (default : Bool) : Value :=
  .object [("default", .bool default), ("description", .ofText description),
    ("title", .ofText title), ("type", .ofText "boolean")]

def optionsSchema : Value :=
  let defaults : Options := {}
  .object [
    ("additionalProperties", .bool false),
    ("properties", .object [
      ("allowGlobals", flagSchema "Allowglobals"
        ("When true, the rule will consider the global scope when checking for defined " ++
          "components.")
        defaults.allowGlobals),
      ("autoImport", flagSchema "Autoimport"
        "Automatically import certain components from `\"solid-js\"` if they are undefined."
        defaults.autoImport),
      ("typescriptEnabled", flagSchema "Typescriptenabled"
        "Adjusts behavior not to conflict with TypeScript's type checking."
        defaults.typescriptEnabled)]),
    ("title", .ofText "RuleOptions"),
    ("type", .ofText "object")]

def metadata : Value :=
  .object [
    ("id", .ofText id),
    ("type", .ofText "problem"),
    ("docs", .object [
      ("description", .ofText
        ("Disallow references to undefined variables in JSX. " ++ "Handles custom directives.")),
      ("url", .ofText documentation)]),
    ("fixable", .ofText "code"),
    ("schema", .array [optionsSchema]),
    ("messages", .object
      (MessageId.all.map fun id ↦ (Text.proper id.name, Value.ofText id.written)))]

end TagScope.Rule
