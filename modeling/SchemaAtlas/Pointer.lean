import SchemaAtlas.Text.Percent
import SchemaAtlas.Text.Quoted

/-!
# JSON pointers

A pointer names a place in a document by the segments on the way from its root, each a
member name or an element index. It has two written forms: each segment after a slash,
with `~0` and `~1` for a tilde and a slash inside it, and the same text as a URI fragment.
-/

namespace SchemaAtlas

structure Pointer where
  segments : List String
  deriving DecidableEq, Repr, Inhabited

/-- Why a text is not a pointer; `text` is the text that was read. -/
inductive PointerFault where
  | noLeadingSlash (text : String)
  | blankSegment (text : String)
  | loneTilde (text : String)
  | notUtf8 (text : String) (fault : Utf8.Fault)
  deriving DecidableEq, Repr

def PointerFault.message (fault : PointerFault) : String :=
  let describe (text reason : String) : String := s!"Malformed JSON pointer '{text}': {reason}"
  match fault with
  | .noLeadingSlash text => describe text "must start with '/'"
  | .blankSegment text => describe text "blank segment"
  | .loneTilde text => describe text "'~' must be followed by '0' or '1'"
  | .notUtf8 text utf8 => describe text utf8.message

namespace Pointer

def root : Pointer := ⟨[]⟩

def child (p : Pointer) (segment : String) : Pointer := ⟨p.segments ++ [segment]⟩

def childIndex (p : Pointer) (index : Nat) : Pointer := p.child (toString index)

def append (p q : Pointer) : Pointer := ⟨p.segments ++ q.segments⟩

instance : Append Pointer := ⟨append⟩

def isRoot (p : Pointer) : Bool := p.segments.isEmpty

def length (p : Pointer) : Nat := p.segments.length

def last? (p : Pointer) : Option String := p.segments.getLast?

def parent? (p : Pointer) : Option Pointer :=
  if p.isRoot then none else some ⟨p.segments.dropLast⟩

@[simp] theorem root_segments : root.segments = [] := rfl

@[simp] theorem child_segments (p : Pointer) (s : String) :
    (p.child s).segments = p.segments ++ [s] := rfl

@[simp] theorem append_segments (p q : Pointer) :
    (p ++ q).segments = p.segments ++ q.segments := rfl

/-! ## Writing -/

def escape : List Char → List Char
  | [] => []
  | '~' :: rest => '~' :: '0' :: escape rest
  | '/' :: rest => '~' :: '1' :: escape rest
  | c :: rest => c :: escape rest

/-- The characters of the slash form. -/
def chars (p : Pointer) : List Char :=
  p.segments.flatMap fun segment => '/' :: escape segment.toList

/-- The slash form, empty for the root. -/
def text (p : Pointer) : String := String.ofList p.chars

/-- Characters that the fragment form writes as escapes. -/
def isFragmentEscaped (c : Char) : Bool :=
  Percent.isControl c || c.toNat = 96 ||
    [' ', '"', '#', '%', '<', '>', '[', '\\', ']', '^', '\x7b', '|', '\x7d'].contains c

/-- The fragment form without its number sign. -/
def fragmentChars (p : Pointer) : List Char := Percent.encodeChars isFragmentEscaped p.chars

/-- The fragment form. -/
def fragment (p : Pointer) : String := String.ofList ('#' :: p.fragmentChars)

/-- The form that messages show, a slash for the root. -/
def shown (p : Pointer) : String := if p.isRoot then "/" else p.text

instance : ToString Pointer := ⟨shown⟩

/-- The form that quotes the slash form. -/
def debugText (p : Pointer) : String := "JsonPath(" ++ quoted p.text ++ ")"

/-! ## Reading -/

/-- The segment an escaped text stands for; `none` if a tilde stands alone. -/
def unescape? : List Char → Option (List Char)
  | [] => some []
  | '~' :: '0' :: rest => (unescape? rest).map ('~' :: ·)
  | '~' :: '1' :: rest => (unescape? rest).map ('/' :: ·)
  | c :: rest => if c = '~' then none else (unescape? rest).map (c :: ·)

/-- The texts between slashes. -/
def splitSlashes : List Char → List (List Char)
  | [] => [[]]
  | c :: rest =>
    if c = '/' then [] :: splitSlashes rest
    else
      match splitSlashes rest with
      | [] => [[c]]
      | part :: parts => (c :: part) :: parts

/-- Reads one segment of the pointer written `text`. -/
def readSegment (text : String) (raw : List Char) : Except PointerFault String :=
  if raw.isEmpty then .error (.blankSegment text)
  else
    match unescape? raw with
    | some segment => .ok (String.ofList segment)
    | none => .error (.loneTilde text)

/-- Reads the slash form. -/
def read (text : String) : Except PointerFault Pointer :=
  match text.toList with
  | [] => .ok root
  | '/' :: rest => Pointer.mk <$> (splitSlashes rest).mapM (readSegment text)
  | _ => .error (.noLeadingSlash text)

/-- Reads the fragment form; the number sign may be missing. -/
def readFragment (text : String) : Except PointerFault Pointer :=
  let cs := match text.toList with
    | '#' :: rest => rest
    | cs => cs
  match Utf8.decode (Percent.octets cs) with
  | .ok decoded => read decoded
  | .error fault => .error (.notUtf8 text fault)

end Pointer
end SchemaAtlas
