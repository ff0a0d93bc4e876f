import SchemaAtlas.Entries

/-!
# Drafts

The published drafts of the schema language from the third to the seventh, and sets of
them. A set is the list of its drafts, oldest first.
-/

namespace SchemaAtlas

inductive Draft where
  | draft3
  | draft4
  | draft5
  | draft6
  | draft7
  deriving DecidableEq, Repr, Inhabited

namespace Draft

def all : List Draft := [.draft3, .draft4, .draft5, .draft6, .draft7]

def latest : Draft := .draft7

def number : Draft → Nat
  | .draft3 => 3
  | .draft4 => 4
  | .draft5 => 5
  | .draft6 => 6
  | .draft7 => 7

instance : LT Draft := ⟨fun a b => a.number < b.number⟩

instance : LE Draft := ⟨fun a b => a.number ≤ b.number⟩

instance : DecidableLT Draft := fun a b => inferInstanceAs (Decidable (a.number < b.number))

instance : DecidableLE Draft := fun a b => inferInstanceAs (Decidable (a.number ≤ b.number))

def ofNumber? (n : Nat) : Option Draft := all.find? (·.number = n)

/-- The name in settings. -/
def name (d : Draft) : String := s!"draft{d.number}"

def ofName? (name : String) : Option Draft := all.find? (·.name = name)

/-- The name in messages, `draft-04`. -/
def title (d : Draft) : String := s!"draft-0{d.number}"

instance : ToString Draft := ⟨title⟩

/-- The URI of the draft's meta-schema. -/
def metaSchema (d : Draft) : String := s!"http://json-schema.org/{d.title}/schema#"

def idKey (d : Draft) : String := if d ≤ .draft5 then "id" else "$id"

/-- Whether exclusive bounds are boolean flags beside the bounds. -/
def hasFlaggedLimits (d : Draft) : Bool := d ≤ .draft5

/-- Whether `true` and `false` are schemas. -/
def allowsBooleanSchemas (d : Draft) : Bool := .draft6 ≤ d

/-! ## Recognising drafts -/

/-- Blanks of every script. -/
def isBlank (c : Char) : Bool :=
  let n := c.toNat
  (9 ≤ n && n ≤ 13) || n = 0x20 || n = 0x85 || n = 0xA0 || n = 0x1680 ||
    (0x2000 ≤ n && n ≤ 0x200A) || n = 0x2028 || n = 0x2029 || n = 0x202F || n = 0x205F ||
    n = 0x3000

def dropEnd (p : Char → Bool) (cs : List Char) : List Char := (cs.reverse.dropWhile p).reverse

def trim (cs : List Char) : List Char := dropEnd isBlank (cs.dropWhile isBlank)

/-- The text after as many copies of a word as it starts with. -/
def dropAll (word : List Char) (fuel : Nat) (cs : List Char) : List Char :=
  match fuel with
  | 0 => cs
  | fuel + 1 =>
    if !word.isEmpty && word.isPrefixOf cs then dropAll word fuel (cs.drop word.length) else cs

def dropWords (word : String) (cs : List Char) : List Char := dropAll word.toList cs.length cs

/-- The draft whose meta-schema a `$schema` value names. Either scheme is accepted, number
signs at the end and the last segment may be missing, and the undated URI means the latest
draft. -/
def ofMetaSchema? (uri : String) : Option Draft :=
  let trimmed := dropEnd (· = '#') (trim uri.toList)
  let bare := dropWords "http://" (dropWords "https://" trimmed)
  let host := "json-schema.org/".toList
  let suffix := "/schema".toList
  if host.isPrefixOf bare then
    let rest := bare.drop host.length
    let rest := if suffix.isSuffixOf rest then rest.take (rest.length - suffix.length) else rest
    if rest = "schema".toList then some latest
    else all.find? fun d => rest = d.title.toList
  else none

/-- The number of at most eight bits that a text of digits writes. -/
def smallNumber? (cs : List Char) : Option Nat :=
  let digits := match cs with
    | '+' :: rest => rest
    | cs => cs
  if digits.isEmpty || !digits.all Char.isDigit then none
  else
    let n := digits.foldl (fun n c => 10 * n + (c.toNat - 48)) 0
    if n < 256 then some n else none

/-- Reads a draft as people write it: a number, with or without `draft`, a dash and zeros
in front, or the URI of a meta-schema. -/
def read (text : String) : Option Draft :=
  let lower := (trim text.toList).map Char.toLower
  let digits := ((dropWords "draft" lower).dropWhile fun c => c = '-' || c = '_').dropWhile (· = '0')
  match (smallNumber? digits).bind ofNumber? with
  | some d => some d
  | none => ofMetaSchema? text

/-- What is said of a text that names no draft. -/
def unknownMessage (text : String) : String := s!"unknown JSON-Schema draft '{text}'"

end Draft

/-! ## Sets of drafts -/

/-- A set of drafts, oldest first. -/
structure DraftSet where
  drafts : List Draft
  deriving DecidableEq, Repr, Inhabited

namespace DraftSet

/-- The drafts of which a test holds. -/
def filter (p : Draft → Bool) : DraftSet := ⟨Draft.all.filter p⟩

def empty : DraftSet := filter fun _ => false

def all : DraftSet := filter fun _ => true

def only (d : Draft) : DraftSet := filter (· = d)

/-- The drafts between two, both included. -/
def range (first last : Draft) : DraftSet := filter fun d => first ≤ d && d ≤ last

def since (first : Draft) : DraftSet := range first .latest

def contains (s : DraftSet) (d : Draft) : Bool := s.drafts.contains d

def ofList (drafts : List Draft) : DraftSet := filter fun d => drafts.contains d

def insert (s : DraftSet) (d : Draft) : DraftSet := filter fun e => e = d || s.contains e

def union (s t : DraftSet) : DraftSet := filter fun d => s.contains d || t.contains d

def inter (s t : DraftSet) : DraftSet := filter fun d => s.contains d && t.contains d

def intersects (s t : DraftSet) : Bool := s.drafts.any t.contains

def isEmpty (s : DraftSet) : Bool := s.drafts.isEmpty

def newestFirst (s : DraftSet) : List Draft := s.drafts.reverse

def latest? (s : DraftSet) : Option Draft := s.drafts.getLast?

/-- The keys that declare identifiers in some draft of the set, the newest first; those of
the latest draft for the empty set. -/
def idKeys (s : DraftSet) : List String :=
  match (s.newestFirst.map Draft.idKey).eraseDups with
  | [] => [Draft.latest.idKey]
  | keys => keys

def debugText (s : DraftSet) : String :=
  "VersionSet[" ++ ", ".intercalate (s.drafts.map fun d => toString d.number) ++ "]"

@[simp] theorem contains_filter (p : Draft → Bool) (d : Draft) :
    (filter p).contains d = p d := by
  cases d <;> simp [filter, contains, Draft.all]

end DraftSet
end SchemaAtlas
