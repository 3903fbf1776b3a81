import TagScope.Files.Path
import TagScope.Text.Ascii

/-!
What file names say: the grammar a source is written in, and whether a file is
linted at all. Only the ASCII capitals of a name can matter, since the endings it
is compared with are ASCII.
-/

set_option autoImplicit false

namespace TagScope

inductive Grammar where
  | tsx
  | typescript
deriving DecidableEq, Repr

namespace FileName

def plainSuffixes : List String := [".ts", ".mts", ".cts"]

def jsxSuffixes : List String := [".tsx", ".jsx", ".js", ".mjs", ".cjs"]

def lockFiles : List String := ["package-lock.json", "yarn.lock", "pnpm-lock.yaml"]

/-- Declaration files hold no JSX, and minified files are not sources. -/
def generatedEndings : List String := [".d.ts", ".min.js"]

def skippedDirectories : List String :=
  [".git", "node_modules", "venv", ".venv", "__pycache__", "dist", "build", ".next", "coverage",
    ".idea", ".vscode", "target", "out", "android", "ios"]

def endsWith (name ending : String) : Bool :=
  ending.toList.isSuffixOf name.toList

/-- In a plain TypeScript source an angle bracket begins a type assertion; in
every other source it may begin JSX. -/
def grammar (filename : String) : Grammar :=
  if plainSuffixes.contains (Ascii.lower (Path.ofText filename).suffix) then .typescript else .tsx

def isSource (path : Path) : Bool :=
  !lockFiles.contains (Ascii.lower path.name) &&
    !(generatedEndings.any fun ending ↦ endsWith (Ascii.lower path.name) ending) &&
    (jsxSuffixes ++ plainSuffixes).contains (Ascii.lower path.suffix)

end FileName

end TagScope
