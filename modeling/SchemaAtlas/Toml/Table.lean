import SchemaAtlas.Settings.Tree

/-!
# Tables under construction

While a file is read, its tables remember how they came about. A table that a longer name
only implies may still be opened by a header, once; one that dotted names made may be
extended by further dotted names and by headers of tables inside it; no name is given two
values.
-/

namespace SchemaAtlas.Toml

/-- How a table came about. -/
inductive Origin where
  /-- By a header of a table inside it. -/
  | implied
  /-- By its own header. -/
  | header
  /-- By a dotted name. -/
  | dotted
  deriving DecidableEq, Repr, Inhabited

inductive Item where
  | value (value : Setting)
  | table (origin : Origin) (entries : List (String × Item))
  /-- Tables under one name, the last one first. -/
  | tables (list : List (List (String × Item)))
  deriving Inhabited

abbrev Items := List (String × Item)

mutual

def Item.setting : Item → Setting
  | .value value => value
  | .table _ entries => .table (settings entries)
  | .tables list => .list (settingsOfTables list).reverse

def settings : List (String × Item) → List (String × Setting)
  | [] => []
  | (name, item) :: rest => (name, item.setting) :: settings rest

def settingsOfTables : List (List (String × Item)) → List Setting
  | [] => []
  | entries :: rest => .table (settings entries) :: settingsOfTables rest

end

/-- Changes the table at the end of a path, given how it came about. Missing tables are
made on the way; dotted names do not lead through tables that have a header. -/
def within (dotted : Bool) (change : Origin → Items → Option Items) :
    List String → Origin → Items → Option Items
  | [], origin, entries => change origin entries
  | name :: path, _, entries =>
    match Entries.get? name entries with
    | none =>
      let origin := if dotted then .dotted else .implied
      (within dotted change path origin []).map fun inner =>
        Entries.insert name (.table origin inner) entries
    | some (.table origin inner) =>
      if dotted && origin = .header then none
      else (within dotted change path origin inner).map fun inner =>
        Entries.insert name (.table origin inner) entries
    | some (.tables (last :: before)) =>
      (within dotted change path .header last).map fun last =>
        Entries.insert name (.tables (last :: before)) entries
    | some _ => none

/-- Gives a value to a dotted name, counted from a table. -/
def define (path : List String) (name : String) (value : Setting) (entries : Items) :
    Option Items :=
  let add (origin : Origin) (entries : Items) : Option Items :=
    if decide (origin = .dotted) == path.isEmpty then none
    else if Entries.contains name entries then none
    else some (Entries.insert name (.value value) entries)
  within true add path .header entries

/-- Opens a table by its header. -/
def openTable (path : List String) (name : String) (entries : Items) : Option Items :=
  let add (_ : Origin) (entries : Items) : Option Items :=
    match Entries.get? name entries with
    | none => some (Entries.insert name (.table .header []) entries)
    | some (.table .implied inner) => some (Entries.insert name (.table .header inner) entries)
    | some _ => none
  within false add path .header entries

/-- Adds a table to those under one name. -/
def addTable (path : List String) (name : String) (entries : Items) : Option Items :=
  let add (_ : Origin) (entries : Items) : Option Items :=
    match Entries.get? name entries with
    | none => some (Entries.insert name (.tables [[]]) entries)
    | some (.tables list) => some (Entries.insert name (.tables ([] :: list)) entries)
    | some _ => none
  within false add path .header entries

/-- Gives a value to a dotted name in the table that the last header opened. -/
def defineUnder (header path : List String) (name : String) (value : Setting)
    (entries : Items) : Option Items :=
  within false (fun _ inner => define path name value inner) header .header entries

end SchemaAtlas.Toml
