import TagScope.Main
import TagScope.Proofs.Imports.Extension
import TagScope.Proofs.Rule.Convergence
import TagScope.Proofs.Scope.Destinations
import TagScope.Service.Respond
import TagScope.Session
import TagScope.Proofs.Imports.Seams
import TagScope.Proofs.Rule.Ambient
import TagScope.Proofs.Rule.Fixes
import TagScope.Proofs.Rule.Insertion
import TagScope.Proofs.Files.Path
import TagScope.Proofs.Imports.Spelling
import TagScope.Proofs.Rule.Imported
import TagScope.Proofs.Files.Outline
import TagScope.Proofs.Files.Collect
import TagScope.Proofs.CommandLine.Words
import TagScope.Proofs.Lint.Rereading
import TagScope.Proofs.CommandLine.Settling
import TagScope.Proofs.CommandLine.Rerun
import TagScope.Proofs.CommandLine.Effect
import TagScope.Proofs.CommandLine.LineEnds
import TagScope.Proofs.Files.Revision
import TagScope.Proofs.Rule.Globals
import TagScope.Proofs.Text.Chunks
import TagScope.Proofs.Scope.Shape
import TagScope.Proofs.Report.Edits
import TagScope.Proofs.Rule.Toggles
import TagScope.Proofs.Jsx.Extraction
import TagScope.Proofs.Rule.TextOrder
import TagScope.Proofs.Imports.Prologue
import TagScope.Proofs.Scope.Growth
import TagScope.Proofs.Checked.Analysis
import TagScope.Proofs.Checked.Fix
import TagScope.Proofs.Checked.Report
import TagScope.Proofs.Ignore.Items
import TagScope.Proofs.Ignore.Segments
import TagScope.Proofs.Ignore.Rebasing
import TagScope.Proofs.Ignore.Decisions
import TagScope.Proofs.Scope.Patterns
import TagScope.Proofs.Text.Offsets
import TagScope.Proofs.Settings.Spelling
import TagScope.Proofs.Files.Listing
