import SchemaAtlas.Draft

/-!
# Command lines

A command line names an action with its files and options. Two options belong to all
actions and may stand before or behind the action's name; behind it they win. Words are
taken from left to right, and the first fault or wish for help ends the reading. Two
dashes make operands of all words behind them.
-/

namespace SchemaAtlas.CommandLine

inductive Action where
  /-- Print a schema. -/
  | load (file : String) (draft : Option Draft)
  /-- Merge two schemas and print the result. -/
  | merge (base override : String) (draft : Option Draft)
  /-- List the references of a schema, or draw them. -/
  | references (file : String) (dot : Bool)
  deriving DecidableEq, Repr

/-- The options of all actions. -/
structure Shared where
  config : Option String
  strict : Bool
  deriving DecidableEq, Repr, Inhabited

structure Command where
  shared : Shared
  action : Action
  deriving DecidableEq, Repr

inductive Topic where
  | program
  | load
  | merge
  | references
  deriving DecidableEq, Repr

/-- Why there is no command. -/
inductive Refusal where
  | help (topic : Topic)
  | usage (message : String)
  deriving DecidableEq, Repr

abbrev ReadM := Except Refusal

/-! ## Words -/

/-- What a word, with the value behind it, says. -/
inductive Event where
  | config (value : String)
  | strict
  | draft (value : String)
  | dot
  | help
  | operand (text : String)
  deriving DecidableEq, Repr

inductive Meaning where
  | flag (event : Event)
  | value (event : String → Event)

structure OptionForm where
  long : String
  short : Option Char
  meaning : Meaning

def helpForm : OptionForm := ⟨"help", some 'h', .flag .help⟩

def configForm : OptionForm := ⟨"config", some 'c', .value .config⟩

def strictForm : OptionForm := ⟨"strict", none, .flag .strict⟩

def draftForm : OptionForm := ⟨"draft", some 'd', .value .draft⟩

def dotForm : OptionForm := ⟨"dot", none, .flag .dot⟩

def sharedForms : List OptionForm := [configForm, strictForm, helpForm]

/-- Whether a word can only be an option; a dash alone is an operand. -/
def isOption (word : String) : Bool := "-".isPrefixOf word && word != "-"

/-- The value of an option: the text attached to it or the next word. -/
def valueOf (name : String) (attached : Option String) (rest : List String) :
    ReadM (String × List String) :=
  match attached, rest with
  | some value, rest => .ok (value, rest)
  | none, value :: rest =>
    if isOption value then .error (.usage s!"a value is required for '{name}'")
    else .ok (value, rest)
  | none, [] => .error (.usage s!"a value is required for '{name}'")

def eventOf (name : String) (attached : Option String) (rest : List String) :
    Meaning → ReadM (Event × List String)
  | .flag event =>
    match attached with
    | none => .ok (event, rest)
    | some _ => .error (.usage s!"unexpected value for '{name}'")
  | .value event => (valueOf name attached rest).map fun (value, rest) => (event value, rest)

/-- A word's text before an equals sign and the text behind it. -/
def splitAtEquals (cs : List Char) : String × Option String :=
  match cs.dropWhile (· != '=') with
  | [] => (String.ofList cs, none)
  | _ :: value => (String.ofList (cs.takeWhile (· != '=')), some (String.ofList value))

/-- What the first word says, with the words that it leaves. The only letter that is a flag
asks for help, which ends the reading, so letters behind it do not matter. -/
def nextEvent (forms : List OptionForm) (word : String) (rest : List String) :
    ReadM (Event × List String) :=
  let unknown : ReadM (Event × List String) :=
    .error (.usage s!"unexpected argument '{word}' found")
  match word.toList with
  | '-' :: '-' :: name =>
    let (name, attached) := splitAtEquals name
    match forms.find? (·.long = name) with
    | some form => eventOf word attached rest form.meaning
    | none => unknown
  | '-' :: letter :: more =>
    match forms.find? (·.short = some letter) with
    | some form =>
      match form.meaning, more with
      | .flag event, _ => .ok (event, rest)
      | .value _, [] => eventOf word none rest form.meaning
      | .value _, '=' :: value => eventOf word (some (String.ofList value)) rest form.meaning
      | .value _, value => eventOf word (some (String.ofList value)) rest form.meaning
    | none => unknown
  | _ => .ok (.operand word, rest)

/-! ## Actions -/

/-- What has been read of an action. -/
structure Given where
  shared : Shared
  draft : Option Draft
  dot : Bool
  operands : List String

def repeated (name : String) : Refusal :=
  .usage s!"the argument '{name}' cannot be used multiple times"

def Shared.accept (topic : Topic) (s : Shared) : Event → ReadM Shared
  | .config value =>
    if s.config.isSome then .error (repeated "--config") else .ok { s with config := some value }
  | .strict => if s.strict then .error (repeated "--strict") else .ok { s with strict := true }
  | .help => .error (.help topic)
  | _ => .ok s

/-- Takes up an event, where an action has `count` operands. -/
def Given.accept (topic : Topic) (count : Nat) (g : Given) : Event → ReadM Given
  | .draft value =>
    if g.draft.isSome then .error (repeated "--draft")
    else
      match Draft.read value with
      | some draft => .ok { g with draft := some draft }
      | none => .error (.usage (Draft.unknownMessage value))
  | .dot => if g.dot then .error (repeated "--dot") else .ok { g with dot := true }
  | .operand text =>
    if text.isEmpty then .error (.usage "a file name is empty")
    else if g.operands.length < count then .ok { g with operands := g.operands ++ [text] }
    else .error (.usage s!"unexpected argument '{text}' found")
  | event => (g.shared.accept topic event).map fun shared => { g with shared }

/-- Reads the words behind an action's name. -/
def readGiven (forms : List OptionForm) (topic : Topic) (count : Nat) :
    Nat → Given → List String → ReadM Given
  | _, g, [] => .ok g
  | 0, g, _ => .ok g
  | steps + 1, g, word :: rest =>
    if word = "--" then rest.foldlM (fun g text => g.accept topic count (.operand text)) g
    else do
      let (event, rest) ← nextEvent forms word rest
      readGiven forms topic count steps (← g.accept topic count event) rest

def given (forms : List OptionForm) (topic : Topic) (count : Nat) (words : List String) :
    ReadM Given :=
  readGiven (forms ++ sharedForms) topic count words.length ⟨⟨none, false⟩, none, false, []⟩ words

/-- The options behind the action's name win over those before it. -/
def Shared.override (outer inner : Shared) : Shared :=
  { config := inner.config.or outer.config, strict := inner.strict || outer.strict }

def missing : Refusal := .usage "the required arguments were not provided"

def readLoad (outer : Shared) (words : List String) : ReadM Command := do
  let g ← given [draftForm] .load 1 words
  match g.operands with
  | [file] => return ⟨outer.override g.shared, .load file g.draft⟩
  | _ => throw missing

def readMerge (outer : Shared) (words : List String) : ReadM Command := do
  let g ← given [draftForm] .merge 2 words
  match g.operands with
  | [base, override] => return ⟨outer.override g.shared, .merge base override g.draft⟩
  | _ => throw missing

def readReferences (outer : Shared) (words : List String) : ReadM Command := do
  let g ← given [dotForm] .references 1 words
  match g.operands with
  | [file] => return ⟨outer.override g.shared, .references file g.dot⟩
  | _ => throw missing

/-- The topic of a wish for help. -/
def topicOf : List String → ReadM Topic
  | [] => .ok .program
  | ["load"] => .ok .load
  | ["merge"] => .ok .merge
  | ["refs"] => .ok .references
  | ["help"] => .ok .program
  | words =>
    let names := " ".intercalate words
    .error (.usage s!"unrecognized subcommand '{names}'")

def readAction (outer : Shared) (name : String) (words : List String) : ReadM Command :=
  match name with
  | "load" => readLoad outer words
  | "merge" => readMerge outer words
  | "refs" => readReferences outer words
  | "help" => do throw (.help (← topicOf words))
  | name => .error (.usage s!"unrecognized subcommand '{name}'")

def readProgram : Nat → Shared → List String → ReadM Command
  | steps + 1, outer, word :: rest => do
    if word = "--" then throw missing
    let (event, rest) ← nextEvent sharedForms word rest
    match event with
    | .operand name => readAction outer name rest
    | event => readProgram steps (← outer.accept .program event) rest
  | _, _, _ => .error (.usage "a subcommand is required but one was not provided")

/-- Reads a command line. -/
def read (words : List String) : ReadM Command :=
  readProgram words.length ⟨none, false⟩ words

/-! ## Help -/

def sharedHelp : String :=
  "  -c, --config <CONFIG>  Configuration file (defaults to schema-graph.toml lookup)\n" ++
  "      --strict           Treat unknown keywords and malformed values as errors\n" ++
  "  -h, --help             Print help\n"

def draftHelp : String := "  -d, --draft <DRAFT>    Draft to render (draft3 .. draft7)\n"

def Topic.text : Topic → String
  | .program =>
    "Load, merge and inspect JSON Schema documents (drafts 3-7)\n\n" ++
    "Usage: schema-graph [OPTIONS] <COMMAND>\n\n" ++
    "Commands:\n" ++
    "  load   Load a schema and print it, projected onto a draft\n" ++
    "  merge  Merge OVERRIDE into BASE and print the result with its report\n" ++
    "  refs   List references and recursive groups of a schema\n" ++
    "  help   Print this message or the help of the given subcommand(s)\n\n" ++
    "Options:\n" ++ sharedHelp
  | .load =>
    "Load a schema and print it, projected onto a draft\n\n" ++
    "Usage: schema-graph load [OPTIONS] <FILE>\n\n" ++
    "Arguments:\n  <FILE>  \n\n" ++
    "Options:\n" ++ draftHelp ++ sharedHelp
  | .merge =>
    "Merge OVERRIDE into BASE and print the result with its report\n\n" ++
    "Usage: schema-graph merge [OPTIONS] <BASE> <OVERRIDE>\n\n" ++
    "Arguments:\n  <BASE>      \n  <OVERRIDE>  \n\n" ++
    "Options:\n" ++ draftHelp ++ sharedHelp
  | .references =>
    "List references and recursive groups of a schema\n\n" ++
    "Usage: schema-graph refs [OPTIONS] <FILE>\n\n" ++
    "Arguments:\n  <FILE>  \n\n" ++
    "Options:\n" ++
    "      --dot              Print the reference graph as DOT instead\n" ++ sharedHelp

end SchemaAtlas.CommandLine
