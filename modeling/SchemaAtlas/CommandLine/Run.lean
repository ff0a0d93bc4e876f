import SchemaAtlas.CommandLine.Arguments
import SchemaAtlas.CommandLine.Configuration
import SchemaAtlas.Loading
import SchemaAtlas.Merge
import SchemaAtlas.ReferenceGraph
import SchemaAtlas.Schema.Render

/-!
# Running commands

A command reads its settings and files from a machine and writes to two streams: schemas
and lists to the output, issues, reports and faults to the errors. Every file is loaded on
its own, as the document at the URI of its place, with the documents of the settings or
those below its directory to refer to.
-/

namespace SchemaAtlas.CommandLine

/-- What a command leaves behind. -/
structure Outcome where
  code : Nat
  output : String
  errors : String
  deriving DecidableEq, Repr, Inhabited

/-- What has been written so far. -/
structure Streams where
  output : String
  errors : String
  deriving Inhabited

/-- Why a command fails: what it could not do and, if that says not all, why. -/
structure Trouble where
  summary : String
  cause : Option String

/-- Every line of a cause stands four blanks in. -/
def Trouble.text (t : Trouble) : String :=
  match t.cause with
  | none => s!"Error: {t.summary}\n"
  | some cause =>
    let lines := "\n".intercalate ((cause.splitOn "\n").map ("    " ++ ·))
    s!"Error: {t.summary}\n\nCaused by:\n{lines}\n"

abbrev RunM (m : Type → Type) := ExceptT Trouble (StateT Streams m)

section

variable {m : Type → Type} [Monad m] (machine : Machine m)

def print (text : String) : RunM m Unit :=
  modify fun s => { s with output := s.output ++ text }

def complain (text : String) : RunM m Unit :=
  modify fun s => { s with errors := s.errors ++ text }

/-- A step on the machine. -/
def onMachine {α : Type} (action : m α) : RunM m α := ExceptT.lift (StateT.lift action)

/-- A step on the machine that may fail. -/
def attempt {ε α : Type} (trouble : ε → Trouble) (action : m (Except ε α)) : RunM m α := do
  match ← onMachine action with
  | .ok a => return a
  | .error e => throw (trouble e)

def documentsTrouble : Settings.DocumentsFault → Trouble
  | .invalidUri fault => ⟨fault.message, some fault.reason⟩
  | .unreadable fault => ⟨s!"IO error: {fault.message}", some fault.message⟩

/-- The documents that the file at a place may refer to. -/
def documentsFor (settings : Settings) (place : List String) : RunM m Documents := do
  match ← attempt documentsTrouble (settings.documents? machine).run with
  | some documents => return documents
  | none =>
    let directory := place.dropLast
    attempt documentsTrouble
      (Settings.documentsBelow machine (Machine.pathOf directory) (.ofDirectoryPath directory)).run

/-- Loads a file; its nodes are added to the store. -/
def loadFile (settings : Settings) (store : Store) (path : String) :
    RunM m (Schema × Store) := do
  let content ← attempt (fun fault => ⟨s!"failed to read {path}", some fault.message⟩)
    (machine.readFile path)
  match Json.read content with
  | none => throw ⟨s!"{path} is not JSON", some "the text is not a JSON value"⟩
  | some document =>
    let place ← attempt (fun fault => ⟨fault.message, none⟩) (machine.place path)
    let documents ← documentsFor machine settings place
    let workspace : Workspace := { Workspace.empty with documents, store }
    match (Workspace.readReporting settings.policy (.ofFilePath place) document).run workspace with
    | (.error failure, _) => throw ⟨s!"failed to load {path}", some failure.message⟩
    | (.ok (schema, report), workspace) => do
      complain (String.join (report.issues.map fun issue => s!"⚠️  {issue.line}\n"))
      return (schema, workspace.store)

/-- The text of a schema in a draft, or else in the draft of the settings or its own. -/
def schemaText (settings : Settings) (draft : Option Draft) (schema : Schema) : String :=
  let draft := (draft.or settings.output.draft).getD schema.draft
  let json := schema.render draft settings.output.withExtra
  match settings.output.layout with
  | .pretty => json.indented ++ "\n"
  | .compact => json.text ++ "\n"

/-- A merge's report and what comes of it. -/
def reportText (report : MergeReport) : String :=
  if report.actions.isEmpty then "✅ Nothing to merge\n"
  else
    report.text ++
      (if report.hasErrors then "❌ Merge finished with errors\n"
      else if report.isConflict then "⚠️  Merge finished with conflicts\n"
      else "✅ Merged cleanly\n")

/-- The size of a graph and its recursive groups. -/
def graphText (graph : ReferenceGraph) : String :=
  let counts := s!"📊 {graph.nodes.size} nodes, {graph.edges.size} edges\n"
  match graph.cycles with
  | [] => counts ++ "✅ No recursive references\n"
  | groups =>
    counts ++ s!"🔁 {groups.length} recursive group(s):\n" ++
      String.join (groups.map fun group => "  - " ++ " -> ".intercalate group ++ "\n")

def runAction (settings : Settings) : Action → RunM m Unit
  | .load file draft => do
    let (schema, _) ← loadFile machine settings .empty file
    print (schemaText settings draft schema)
  | .merge base override draft => do
    let (base, store) ← loadFile machine settings .empty base
    let (override, store) ← loadFile machine settings store override
    let (merged, report, _) := mergeSchemas base override store
    print (schemaText settings draft merged)
    complain (reportText report)
  | .references file dot => do
    let (schema, store) ← loadFile machine settings .empty file
    let (graph, _) := (ReferenceGraph.ofSchema schema).run store
    print (if dot then graph.dot else graphText graph)

def runCommand (command : Command) : RunM m Unit := do
  let settings ← attempt
    (fun fault => ⟨"failed to load configuration", some fault.message⟩)
    (Settings.load machine command.shared.config).run
  let strict := settings.loader.strict || command.shared.strict
  runAction machine { settings with loader := { settings.loader with strict } } command.action

/-- Runs a command line. It fails with code 1; a line that is no command has code 2. -/
def run (words : List String) : m Outcome := do
  match read words with
  | .error (.help topic) => return ⟨0, topic.text, ""⟩
  | .error (.usage message) =>
    return ⟨2, "", s!"error: {message}\n\nFor more information, try '--help'.\n"⟩
  | .ok command =>
    let (result, streams) ← (runCommand machine command).run.run ⟨"", ""⟩
    return match result with
      | .ok () => ⟨0, streams.output, streams.errors⟩
      | .error trouble => ⟨1, streams.output, streams.errors ++ trouble.text⟩

end

end SchemaAtlas.CommandLine
