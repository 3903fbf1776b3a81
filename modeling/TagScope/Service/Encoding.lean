import TagScope.Lint.Files
import TagScope.Rule.Metadata

/-!
Results as structured data.
-/

set_option autoImplicit false

namespace TagScope

def Edit.toValue (e : Edit) : Value :=
  .object [("range", .array [.int e.start, .int e.stop]), ("text", .ofText e.text)]

def Diagnostic.toValue (d : Diagnostic) : Value :=
  .object [
    ("ruleId", .ofText Rule.id),
    ("messageId", .ofText d.finding.messageId.name),
    ("message", .ofText d.finding.message),
    ("line", .ofNat d.position.line),
    ("column", .ofNat d.position.column),
    ("endLine", .ofNat d.position.endLine),
    ("endColumn", .ofNat d.position.endColumn),
    ("data", .object (d.finding.data.map fun (key, text) ↦ (Text.proper key, Value.ofText text))),
    ("fix", .ofOption Edit.toValue d.fix)]

def FileReport.toValue (result : FileReport) : Value :=
  .object [
    ("filename", .ofText result.filename),
    ("diagnostics", .array (result.diagnostics.map Diagnostic.toValue)),
    ("error", .ofOption (fun error ↦ .ofText error.message) result.error),
    ("output", .ofOption .ofText result.output)]

def Lint.Response.toValue (response : Lint.Response) : Value :=
  .object [
    ("filename", .ofText response.filename),
    ("diagnostics", .array (response.diagnostics.map Diagnostic.toValue)),
    ("output", .ofOption .ofText response.output)]

end TagScope
