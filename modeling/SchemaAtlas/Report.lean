import SchemaAtlas.Json.Writer
import SchemaAtlas.Pointer

/-!
# Loading reports

A load does not stop at the first fault of a document. It records issues in the order in
which it meets them; an issue is an error, a warning or a remark. Issues about references
end the load, all others leave it running.
-/

namespace SchemaAtlas

inductive Severity where
  | info
  | warning
  | error
  deriving DecidableEq, Repr, Inhabited

def Severity.name : Severity → String
  | .info => "info"
  | .warning => "warning"
  | .error => "error"

inductive IssueKind where
  | keywordNotFound
  | typeMismatch
  | invalidValue
  | invalidPattern
  | unknownMetaSchema
  | invalidIdentifier
  | malformedReference
  | unresolvedReference
  | documentNotFound
  | referenceHopLimit
  | referenceCycle
  deriving DecidableEq, Repr, Inhabited

namespace IssueKind

def all : List IssueKind :=
  [.keywordNotFound, .typeMismatch, .invalidValue, .invalidPattern, .unknownMetaSchema,
    .invalidIdentifier, .malformedReference, .unresolvedReference, .documentNotFound,
    .referenceHopLimit, .referenceCycle]

/-- `L` for the content of a document, `R` for its references. -/
def code : IssueKind → String
  | .keywordNotFound => "L001"
  | .typeMismatch => "L002"
  | .invalidValue => "L003"
  | .invalidPattern => "L004"
  | .unknownMetaSchema => "L005"
  | .invalidIdentifier => "L006"
  | .malformedReference => "R001"
  | .unresolvedReference => "R002"
  | .documentNotFound => "R003"
  | .referenceHopLimit => "R004"
  | .referenceCycle => "R005"

def name : IssueKind → String
  | .keywordNotFound => "KeywordNotFound"
  | .typeMismatch => "TypeMismatch"
  | .invalidValue => "InvalidValue"
  | .invalidPattern => "InvalidPattern"
  | .unknownMetaSchema => "UnknownMetaSchema"
  | .invalidIdentifier => "InvalidIdentifier"
  | .malformedReference => "MalformedReference"
  | .unresolvedReference => "UnresolvedReference"
  | .documentNotFound => "DocumentNotFound"
  | .referenceHopLimit => "ReferenceHopLimit"
  | .referenceCycle => "ReferenceCycle"

/-- Whether an issue of this kind ends the load. -/
def isFatal : IssueKind → Bool
  | .malformedReference | .unresolvedReference | .documentNotFound | .referenceHopLimit
  | .referenceCycle => true
  | _ => false

end IssueKind

/-- One fault, at a place of a document. -/
structure Issue where
  path : Pointer
  document : String
  kind : IssueKind
  severity : Severity
  message : String
  deriving DecidableEq, Repr, Inhabited

def Issue.line (i : Issue) : String :=
  s!"[{i.kind.code}] {i.severity.name}: {i.message} (at {i.document}{i.path.fragment})"

def Issue.toJson (i : Issue) : Json :=
  .ofMembers [("path", .string i.path.text), ("document", .string i.document),
    ("kind", .string i.kind.name), ("severity", .string i.severity.name),
    ("message", .string i.message)]

/-- The issues of a load, in the order in which they were recorded. -/
structure Report where
  issues : List Issue
  deriving DecidableEq, Repr, Inhabited

namespace Report

def empty : Report := ⟨[]⟩

def record (r : Report) (issue : Issue) : Report := ⟨r.issues ++ [issue]⟩

def append (r s : Report) : Report := ⟨r.issues ++ s.issues⟩

def errors (r : Report) : List Issue := r.issues.filter (·.severity = .error)

def warnings (r : Report) : List Issue := r.issues.filter (·.severity = .warning)

def ofKind (r : Report) (kind : IssueKind) : List Issue := r.issues.filter (·.kind = kind)

def hasErrors (r : Report) : Bool := r.issues.any (·.severity = .error)

/-- The first error and the number of others, or the number of warnings. -/
def summary (r : Report) : String :=
  match r.errors with
  | [] => s!"{r.warnings.length} warning(s)"
  | [first] => first.line
  | first :: others => s!"{first.line} ({others.length} more error(s))"

/-- A line for each issue and a count of errors and warnings. -/
def text (r : Report) : String :=
  let lines := String.join (r.issues.map fun i => i.line ++ "\n")
  if r.hasErrors then
    lines ++ s!"\n{r.errors.length} error(s), {r.warnings.length} warning(s)\n"
  else if r.issues.isEmpty then lines
  else lines ++ s!"\n{r.warnings.length} warning(s)\n"

def toJson (r : Report) : Json := .ofMembers [("issues", .array (r.issues.map Issue.toJson))]

@[simp] theorem record_issues (r : Report) (issue : Issue) :
    (r.record issue).issues = r.issues ++ [issue] := rfl

theorem hasErrors_record (r : Report) (issue : Issue) :
    (r.record issue).hasErrors = (r.hasErrors || issue.severity = .error) := by
  simp [hasErrors, record]

end Report

/-! ## Reports of merges -/

/-- What a merge did at one place. -/
inductive MergeVerb where
  | add
  | merge
  | conflict
  | error
  deriving DecidableEq, Repr, Inhabited

def MergeVerb.name : MergeVerb → String
  | .add => "ADD"
  | .merge => "MERGE"
  | .conflict => "CONFLICT"
  | .error => "ERROR"

structure MergeAction where
  path : Pointer
  verb : MergeVerb
  message : Option String
  deriving DecidableEq, Repr, Inhabited

def MergeAction.line (a : MergeAction) : String :=
  match a.message with
  | some message => s!"{a.verb.name} {a.path.shown}: {message}"
  | none => s!"{a.verb.name} {a.path.shown}"

/-- The actions of a merge, in order. -/
structure MergeReport where
  actions : List MergeAction
  deriving DecidableEq, Repr, Inhabited

namespace MergeReport

def empty : MergeReport := ⟨[]⟩

def record (r : MergeReport) (action : MergeAction) : MergeReport := ⟨r.actions ++ [action]⟩

def has (r : MergeReport) (verb : MergeVerb) : Bool := r.actions.any (·.verb = verb)

/-- Whether a value of the override replaced one it could not be combined with. -/
def isConflict (r : MergeReport) : Bool := r.has .conflict

/-- Whether a keyword was added or combined. -/
def isMerge (r : MergeReport) : Bool := r.has .add || r.has .merge

def hasErrors (r : MergeReport) : Bool := r.has .error

/-- The actions at exactly one place. -/
def actionsAt (r : MergeReport) (path : Pointer) : List MergeAction :=
  r.actions.filter (·.path = path)

def text (r : MergeReport) : String := String.join (r.actions.map fun a => a.line ++ "\n")

@[simp] theorem record_actions (r : MergeReport) (action : MergeAction) :
    (r.record action).actions = r.actions ++ [action] := rfl

end MergeReport
end SchemaAtlas
