import SchemaAtlas.Text.Percent

/-!
# Uniform resource identifiers

A URI is kept in its parsed and normalised form: every part is the text that its written
form shows. A path is either opaque, as in `urn:` names, or a list of segments with a slash
before each. Without an authority, a path whose first segment is empty is written after
`/.`, since two slashes would announce an authority.
-/

namespace SchemaAtlas

inductive UriPath where
  | opaqueText (text : String)
  | segments (list : List String)
  deriving DecidableEq, Repr, Inhabited

/-- An absolute URI; `authority` is the text between `//` and the path. -/
structure Uri where
  scheme : String
  authority : Option String
  path : UriPath
  query : Option String
  fragment : Option String
  deriving DecidableEq, Repr, Inhabited

/-- Why a text is not a URI. -/
inductive UriFault where
  | emptyHost
  | invalidDomainName
  | invalidPort
  | invalidIpv4Address
  | invalidIpv6Address
  | invalidDomainCharacter
  | relativeWithoutBase
  | relativeToOpaqueBase
  deriving DecidableEq, Repr

def UriFault.reason : UriFault → String
  | .emptyHost => "empty host"
  | .invalidDomainName => "invalid international domain name"
  | .invalidPort => "invalid port number"
  | .invalidIpv4Address => "invalid IPv4 address"
  | .invalidIpv6Address => "invalid IPv6 address"
  | .invalidDomainCharacter => "invalid domain character"
  | .relativeWithoutBase => "relative URL without a base"
  | .relativeToOpaqueBase => "relative URL with a cannot-be-a-base base"

def UriFault.message (fault : UriFault) : String := s!"Invalid URI: {fault.reason}"

namespace UriPath

def text : UriPath → String
  | .opaqueText text => text
  | .segments list => String.join (list.map ("/" ++ ·))

/-- Whether the path would read as an authority after a scheme. -/
def looksLikeAuthority : UriPath → Bool
  | .segments ("" :: _ :: _) => true
  | _ => false

/-- The segments of a hierarchical path, none for an opaque one. -/
def list : UriPath → List String
  | .opaqueText _ => []
  | .segments list => list

end UriPath

namespace Uri

/-- The text before the fragment. -/
def textBeforeFragment (uri : Uri) : String :=
  let authority := match uri.authority with
    | some authority => "//" ++ authority
    | none => if uri.path.looksLikeAuthority then "/." else ""
  let query := match uri.query with
    | some query => "?" ++ query
    | none => ""
  uri.scheme ++ ":" ++ authority ++ uri.path.text ++ query

def text (uri : Uri) : String :=
  match uri.fragment with
  | some fragment => uri.textBeforeFragment ++ "#" ++ fragment
  | none => uri.textBeforeFragment

instance : ToString Uri := ⟨text⟩

def hasOpaquePath (uri : Uri) : Bool :=
  match uri.path with
  | .opaqueText _ => true
  | .segments _ => false

/-- Characters that a fragment writes as escapes. -/
def isFragmentEscaped (c : Char) : Bool :=
  Percent.isControl c || c = ' ' || c = '"' || c = '<' || c = '>' || c.toNat = 96

/-- Blanks at the end of an opaque path with nothing behind it. -/
def dropTrailingBlanks (text : String) : String :=
  String.ofList (text.toList.reverse.dropWhile (· = ' ')).reverse

def isTabOrNewline (c : Char) : Bool := c = '\t' || c = '\n' || c = '\r'

/-- The URI without its fragment. -/
def withoutFragment (uri : Uri) : Uri :=
  let path := match uri.path, uri.query with
    | .opaqueText text, none => .opaqueText (dropTrailingBlanks text)
    | path, _ => path
  { uri with path, fragment := none }

/-- The URI with another fragment, given unencoded. -/
def withFragment (uri : Uri) (fragment : String) : Uri :=
  let kept := fragment.toList.filter (! isTabOrNewline ·)
  { uri with fragment := some (String.ofList (Percent.encodeChars isFragmentEscaped kept)) }

/-- An empty fragment names the same as none. -/
def normalized (uri : Uri) : Uri :=
  if uri.fragment = some "" then uri.withoutFragment else uri

@[simp] theorem withoutFragment_fragment (uri : Uri) : uri.withoutFragment.fragment = none := rfl

theorem dropWhile_dropWhile {α : Type} (p : α → Bool) (xs : List α) :
    (xs.dropWhile p).dropWhile p = xs.dropWhile p := by
  induction xs with
  | nil => rfl
  | cons x xs ih => by_cases h : p x <;> simp [h, ih]

theorem withoutFragment_idem (uri : Uri) :
    uri.withoutFragment.withoutFragment = uri.withoutFragment := by
  obtain ⟨scheme, authority, path, query, fragment⟩ := uri
  cases path <;> cases query <;>
    simp [withoutFragment, dropTrailingBlanks, dropWhile_dropWhile]

theorem normalized_of_fragment_ne {uri : Uri} (h : uri.fragment ≠ some "") :
    uri.normalized = uri := by
  rw [normalized, if_neg h]

theorem normalized_fragment_ne (uri : Uri) : uri.normalized.fragment ≠ some "" := by
  unfold normalized
  split
  · simp
  · assumption

theorem normalized_idem (uri : Uri) : uri.normalized.normalized = uri.normalized :=
  normalized_of_fragment_ne (normalized_fragment_ne uri)

theorem withoutFragment_normalized (uri : Uri) :
    uri.normalized.withoutFragment = uri.withoutFragment := by
  unfold normalized
  split
  · exact withoutFragment_idem uri
  · rfl

end Uri
end SchemaAtlas
