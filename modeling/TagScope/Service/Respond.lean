import TagScope.Service.Body
import TagScope.Service.Encoding
import TagScope.Settings.Validation
import TagScope.Value.Writer

/-!
The HTTP service: a request is answered from the disk as it stands, which it never
changes. Requests that do not fit are rejected with all their issues.
-/

set_option autoImplicit false

namespace TagScope.Service

structure Request where
  method : String
  path : String
  query : List (String × String)
  body : Body
deriving Repr

inductive Response where
  | ok (body : Value)
  | failure (status : Nat) (detail : String)
  | rejected (issues : List Issue)
deriving Repr

def Response.status : Response → Nat
  | .ok _ => 200
  | .failure status _ => status
  | .rejected _ => 422

/-- What keeps the service from answering at all. An answer that would repeat a number
which is not finite, or a broken text, cannot be written. -/
inductive Failure where
  | uncollected (error : CollectError)
  | badImport (fault : ImportFault)
  | notFinite
  | unencodable (error : EncodeError)
  | unwritable (error : EncodeError)
deriving DecidableEq, Repr

def Failure.message : Failure → String
  | .uncollected error => error.message
  | .badImport fault => fault.message
  | .notFinite => "Out of range float values are not JSON compliant"
  | .unencodable error => error.message
  | .unwritable error => "Error serializing to JSON: UnicodeEncodeError: " ++ error.message

inductive Endpoint where
  | documentation
  | status
  | rule
  | lint
  | file
  | scan
deriving DecidableEq, Repr

def routes : List (String × String × Endpoint) :=
  [("/openapi.json", "GET", .documentation), ("/docs", "GET", .documentation),
    ("/docs/oauth2-redirect", "GET", .documentation), ("/redoc", "GET", .documentation),
    ("/api/lint/rule", "GET", .rule), ("/api/lint", "POST", .lint),
    ("/api/lint/file", "GET", .file), ("/api/lint/scan", "GET", .scan),
    ("/api-status", "GET", .status)]

/-- The route of a path. Slashes after a known path are passed over. -/
def route? (path : String) : Option (String × Endpoint) :=
  let bare := String.ofList (path.toList.reverse.dropWhile fun c ↦ c = '/').reverse
  (routes.lookup path).or (routes.lookup bare)

/-- What a query asks to be linted, and how. -/
structure Query where
  path : String
  options : Options
deriving DecidableEq, Repr

def flagOf (query : List (String × String)) (key : String) (default : Bool) : Validated Bool :=
  match query.lookup key with
  | some text => (Flag.ofText text).under (.member key)
  | none => .ok default

def Query.read (query : List (String × String)) : Validated Query :=
  let path : Validated String :=
    match query.lookup "path" with
    | some path => .ok path
    | none => .error [⟨.missing, [.member "path"], .null⟩]
  let allowGlobals := flagOf query "allowGlobals" false
  let autoImport := flagOf query "autoImport" true
  let typescriptEnabled := flagOf query "typescriptEnabled" false
  match path, allowGlobals, autoImport, typescriptEnabled with
  | .ok path, .ok a, .ok b, .ok c => .ok ⟨path, ⟨a, b, c⟩⟩
  | _, _, _, _ =>
    .error (path.issues ++ allowGlobals.issues ++ autoImport.issues ++ typescriptEnabled.issues)

def Query.settings (query : Query) : Settings :=
  { options := query.options }

def statusMessage : Value :=
  .object [("message",
    .ofText "jsxlint server is running. Visit /docs for API documentation.")]

/-- Rejects a request. The issues are told with the data that they are about, so that
data must be fit to be written. -/
def reject (issues : List Issue) : Except Failure Response :=
  match (Value.object [("detail", .array (issues.map Issue.details))]).written? with
  | none => .error .notFinite
  | some letters =>
    match EncodeError.findFrom 0 letters with
    | some error => .error (.unencodable error)
    | none => .ok (.rejected (Issue.sort issues))

/-- Why a text member of an object has no UTF-8 form. -/
def unencodable? (key : String) (members : List (Text × Value)) : Option EncodeError :=
  match Value.lookup key members with
  | some (.text text) => text.encodeError?
  | _ => none

/-- Answers a request to lint a text that has been read from the members of an object. -/
def answerJob (parser : Parser) (members : List (Text × Value)) (job : Job) :
    Except Failure Response :=
  match unencodable? "source" members, Lint.job parser job, unencodable? "filename" members with
  | some error, _, _ => .error (.unencodable error)
  | none, .error fault, _ => .error (.badImport fault)
  | none, .ok _, some error => .error (.unwritable error)
  | none, .ok response, none => .ok (.ok response.toValue)

def answerText (parser : Parser) (body : Body) : Except Failure Response :=
  match body.content with
  | .absent => reject [⟨.missing, [.member "body"], .null⟩]
  | .unreadable => .ok (.failure 400 "There was an error parsing the body")
  | .malformed position =>
    reject [⟨.jsonInvalid, [.member "body", .item position], .object []⟩]
  | .data (.object members) =>
    match (Job.ofMembers .body members).under (.member "body") with
    | .error issues => reject issues
    | .ok job => answerJob parser members job
  | .data input => reject [⟨.attributesType, [.member "body"], input⟩]

def answerFile (parser : Parser) (disk : Disk) (query : Query) : Except Failure Response :=
  let path := Path.ofText query.path
  match disk.found? path with
  | .error error => .error (.uncollected (.path error))
  | .ok none => .ok (.failure 404 "File not found")
  | .ok (some (.directory _)) => .ok (.failure 400 "Path is not a file")
  | .ok (some (.file _)) =>
    if !FileName.isSource path then .ok (.failure 400 "Unsupported file type")
    else
      match Lint.file parser disk query.settings false path.toText with
      | .ok result => .ok (.ok result.toValue)
      | .error (.imports fault) => .error (.badImport fault)
      | .error error => .ok (.failure 500 ("Failed to read file: " ++ error.message))

def answerScan (parser : Parser) (disk : Disk) (query : Query) : Except Failure Response :=
  let path := Path.ofText query.path
  match disk.isPresent path with
  | .error error => .error (.uncollected (.path error))
  | .ok false => .ok (.failure 404 "Path not found")
  | .ok true =>
    match Lint.directory parser disk query.settings false path with
    | .ok results => .ok (.ok (.array (results.map FileReport.toValue)))
    | .error error => .error (.uncollected error)

def withQuery (request : Request) (answer : Query → Except Failure Response) :
    Except Failure Response :=
  match (Query.read request.query).under (.member "query") with
  | .error issues => reject issues
  | .ok query => answer query

/-- The answer to a request. The documentation is kept elsewhere. -/
def respond (parser : Parser) (disk : Disk) (request : Request) : Except Failure Response :=
  match route? request.path with
  | none => .ok (.failure 404 "Not Found")
  | some (method, endpoint) =>
    if Ascii.upper request.method != method then .ok (.failure 405 "Method Not Allowed")
    else
      match endpoint with
      | .documentation => .ok (.ok .null)
      | .status => .ok (.ok statusMessage)
      | .rule => .ok (.ok Rule.metadata)
      | .lint => answerText parser request.body
      | .file => withQuery request (answerFile parser disk)
      | .scan => withQuery request (answerScan parser disk)

end TagScope.Service
