import TagScope.Scope.Resolution

/-!
The settings of a run: how sources are to be understood, which names are ambient,
and the options of the rule.
-/

set_option autoImplicit false

namespace TagScope

structure Options where
  allowGlobals : Bool := false
  autoImport : Bool := true
  typescriptEnabled : Bool := false
deriving DecidableEq, Repr

/-- The names bound in a browser's global scope, in code point order. -/
def browserGlobals : List String :=
  ["Array", "BigInt", "Boolean", "Date", "Error", "Infinity", "Intl", "JSON", "Map", "Math", "NaN",
    "Number", "Object", "Promise", "Proxy", "Reflect", "RegExp", "Set", "String", "Symbol", "URL",
    "WeakMap", "WeakSet", "cancelAnimationFrame", "clearInterval", "clearTimeout", "console",
    "document", "fetch", "globalThis", "history", "localStorage", "location", "navigator",
    "performance", "requestAnimationFrame", "sessionStorage", "setInterval", "setTimeout",
    "undefined", "window"]

structure Settings where
  sourceType : SourceType := .module
  globals : List String := browserGlobals
  options : Options := {}
deriving DecidableEq, Repr

namespace Settings

def searchBound (settings : Settings) : ScopeKind :=
  TagScope.searchBound settings.sourceType settings.options.allowGlobals

end Settings

/-- A request to lint one text. -/
structure Job where
  source : String
  filename : String := "input.tsx"
  settings : Settings := {}
  fix : Bool := false
deriving DecidableEq, Repr

end TagScope
