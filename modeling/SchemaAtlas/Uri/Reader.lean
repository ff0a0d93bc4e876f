import SchemaAtlas.Uri.Host

/-!
# Reading URIs

A text is cleaned of blanks at its ends and of tabs and line breaks anywhere, and split
into a scheme, a body, a query and a fragment. Schemes of the Internet and `file` are
special: their backslashes are slashes, they have an authority and a path of at least one
segment, and their hosts are interpreted. A text without a scheme is relative to a base.
-/

namespace SchemaAtlas.Uri

inductive SchemeClass where
  | file
  | internet
  | other
  deriving DecidableEq, Repr

def SchemeClass.of (scheme : String) : SchemeClass :=
  if scheme = "file" then .file
  else if ["http", "https", "ws", "wss", "ftp"].contains scheme then .internet
  else .other

def SchemeClass.isSpecial : SchemeClass → Bool
  | .other => false
  | _ => true

/-- The port that an authority leaves out. -/
def defaultPort? (scheme : String) : Option Nat :=
  if scheme = "http" || scheme = "ws" then some 80
  else if scheme = "https" || scheme = "wss" then some 443
  else if scheme = "ftp" then some 21
  else none

/-! ## The parts of a text -/

/-- A text after its scheme. -/
structure Parts where
  body : List Char
  query : Option (List Char)
  fragment : Option (List Char)

def isSchemeChar (c : Char) : Bool :=
  c.isAlphanum || c = '+' || c = '-' || c = '.'

/-- The text without blanks and controls at its ends, tabs and line breaks. -/
def clean (cs : List Char) : List Char :=
  let isEdge (c : Char) : Bool := c.toNat ≤ 32
  ((cs.dropWhile isEdge).reverse.dropWhile isEdge).reverse.filter (! isTabOrNewline ·)

/-- The scheme in lower case and the text after its colon. -/
def splitScheme? (cs : List Char) : Option (String × List Char) :=
  let scheme := cs.takeWhile isSchemeChar
  match scheme, cs.drop scheme.length with
  | first :: _, ':' :: rest =>
    if first.isAlpha then some (String.ofList (scheme.map Char.toLower), rest) else none
  | _, _ => none

def Parts.of (cs : List Char) : Parts :=
  let body := cs.takeWhile fun c => c ≠ '?' && c ≠ '#'
  let (query, rest) := match cs.drop body.length with
    | '?' :: rest => (some (rest.takeWhile (· ≠ '#')), rest.dropWhile (· ≠ '#'))
    | rest => (none, rest)
  let fragment := match rest with
    | '#' :: rest => some rest
    | _ => none
  ⟨body, query, fragment⟩

def isQueryEscaped (special : Bool) (c : Char) : Bool :=
  Percent.isControl c || [' ', '"', '#', '<', '>'].contains c || (special && c = '\'')

def isPathEscaped (c : Char) : Bool :=
  isFragmentEscaped c || ['#', '?', '\x7b', '\x7d'].contains c

def isUserEscaped (c : Char) : Bool :=
  isPathEscaped c || ['/', ':', ';', '=', '@', '[', '\\', ']', '^', '|'].contains c

def Parts.queryText (parts : Parts) (cls : SchemeClass) : Option String :=
  parts.query.map fun cs =>
    String.ofList (Percent.encodeChars (isQueryEscaped cls.isSpecial) cs)

def Parts.fragmentText (parts : Parts) : Option String :=
  parts.fragment.map fun cs => String.ofList (Percent.encodeChars isFragmentEscaped cs)

/-! ## Paths -/

def isSlash (cls : SchemeClass) (c : Char) : Bool :=
  c = '/' || (cls.isSpecial && c = '\\')

/-- A letter and a colon or bar. -/
def isDriveLetter (cs : List Char) : Bool :=
  match cs with
  | [c, d] => c.isAlpha && (d = ':' || d = '|')
  | _ => false

def isNormalDriveLetter (segment : String) : Bool :=
  match segment.toList with
  | [c, ':'] => c.isAlpha
  | _ => false

def startsWithDriveLetter (cs : List Char) : Bool :=
  isDriveLetter (cs.take 2) &&
    match cs.drop 2 with
    | [] => true
    | c :: _ => c = '/' || c = '\\'

/-- A dot, plain or escaped, at the front. -/
def dropDot? : List Char → Option (List Char)
  | '.' :: rest => some rest
  | '%' :: '2' :: 'e' :: rest => some rest
  | '%' :: '2' :: 'E' :: rest => some rest
  | _ => none

def isSingleDot (cs : List Char) : Bool := dropDot? cs = some []

def isDoubleDot (cs : List Char) : Bool := (dropDot? cs).any fun rest => dropDot? rest = some []

/-- The path without its last segment; the drive letter of a file stays. -/
def shorten (cls : SchemeClass) (path : List String) : List String :=
  if cls = .file && path.getLast?.any isNormalDriveLetter then path else path.dropLast

/-- Extends a path by a segment as written; `last` says that no slash follows it. -/
def appendSegment (cls : SchemeClass) (path : List String) (segment : List Char) (last : Bool) :
    List String :=
  if isDoubleDot segment then
    if last then shorten cls path ++ [""] else shorten cls path
  else if isSingleDot segment then
    if last then path ++ [""] else path
  else
    match segment with
    | [letter, _] =>
      if cls = .file && path.isEmpty && isDriveLetter segment then
        [String.ofList [letter, ':']]
      else path ++ [String.ofList (Percent.encodeChars isPathEscaped segment)]
    | _ => path ++ [String.ofList (Percent.encodeChars isPathEscaped segment)]

/-- The segments between the slashes of a text. -/
def splitSegments (cls : SchemeClass) (cs : List Char) : List (List Char) :=
  match cs with
  | [] => [[]]
  | c :: rest =>
    if isSlash cls c then [] :: splitSegments cls rest
    else
      match splitSegments cls rest with
      | [] => [[c]]
      | segment :: others => (c :: segment) :: others

def appendSegments (cls : SchemeClass) (path : List String) : List (List Char) → List String
  | [] => path
  | [segment] => appendSegment cls path segment true
  | segment :: rest => appendSegments cls (appendSegment cls path segment false) rest

/-- A file path has no empty segments in front. -/
def withoutLeadingEmpty (path : List String) : List String :=
  match path.dropWhile (·.isEmpty) with
  | [] => [""]
  | path => path

/-- The path that a text without a slash in front leads to from another path. -/
def pathFrom (cls : SchemeClass) (start : List String) (cs : List Char) : List String :=
  let path := appendSegments cls start (splitSegments cls cs)
  if cls = .file then withoutLeadingEmpty path else path

/-- The path after an authority. -/
def pathAfterAuthority (cls : SchemeClass) (cs : List Char) : List String :=
  match cs with
  | [] => if cls.isSpecial then [""] else []
  | c :: rest => pathFrom cls [] (if isSlash cls c then rest else cs)

/-! ## Authorities -/

/-- The user information of an authority and the text after it. An at sign with nothing
before it is dropped. -/
def splitUser (cls : SchemeClass) (cs : List Char) : String × Bool × List Char :=
  let authority := cs.takeWhile (! isSlash cls ·)
  match (authority.reverse.dropWhile (· ≠ '@')).reverse.dropLast with
  | [] => if authority.contains '@' then ("", true, cs.drop 1) else ("", false, cs)
  | user =>
    let encode (cs : List Char) : String := String.ofList (Percent.encodeChars isUserEscaped cs)
    let name := user.takeWhile (· ≠ ':')
    let password := (user.drop name.length).drop 1
    let text :=
      if password.isEmpty then
        if name.isEmpty then "" else encode name ++ "@"
      else encode name ++ ":" ++ encode password ++ "@"
    (text, false, cs.drop (user.length + 1))

/-- The host of a text and what follows it; a colon between brackets belongs to the host. -/
def splitHost (cls : SchemeClass) (bracketed : Bool) (cs : List Char) : List Char × List Char :=
  match cs with
  | [] => ([], [])
  | c :: rest =>
    if (c = ':' && !bracketed) || isSlash cls c then ([], cs)
    else
      let bracketed := if c = '[' then true else if c = ']' then false else bracketed
      let (host, after) := splitHost cls bracketed rest
      (c :: host, after)

/-- The port after a colon, unless it is the default one, and what follows it. -/
def readPort (scheme : String) (cs : List Char) : Except UriFault (Option Nat × List Char) :=
  let digits := cs.takeWhile Char.isDigit
  let rest := cs.drop digits.length
  let port := Address.valueIn 10 digits
  if port > 65535 then .error .invalidPort
  else
    match rest with
    | [] => .ok (shown digits port, rest)
    | c :: _ => if c = '/' || c = '\\' then .ok (shown digits port, rest) else .error .invalidPort
where
  shown (digits : List Char) (port : Nat) : Option Nat :=
    if digits.isEmpty || defaultPort? scheme = some port then none else some port

/-- The URI of a text whose authority comes next. -/
def afterSlashes (scheme : String) (parts : Parts) (cs : List Char) : Except UriFault Uri := do
  let cls := SchemeClass.of scheme
  let (user, bareAt, rest) := splitUser cls cs
  let ends := match rest with
    | [] => parts.query.isSome || parts.fragment.isSome
    | c :: _ => isSlash cls c
  if bareAt && ends then throw .emptyHost
  let (host, rest) := splitHost cls false rest
  if host.isEmpty && cls.isSpecial then throw .emptyHost
  let host ← if cls.isSpecial then Host.readDomain host else Host.readUninterpreted host
  let (port, rest) ← match rest with
    | ':' :: rest => if host.isEmpty then throw .emptyHost else readPort scheme rest
    | _ => pure (none, rest)
  if host.isEmpty && !user.isEmpty then throw .emptyHost
  let port := match port with
    | some port => s!":{port}"
    | none => ""
  return {
    scheme, authority := some (user ++ host ++ port)
    path := .segments (pathAfterAuthority cls rest)
    query := parts.queryText cls, fragment := parts.fragmentText }

/-! ## Files -/

/-- The host of a file, its path, and the path that counts when it starts with a drive. -/
def afterFileSlashes (cs : List Char) : Except UriFault (String × List String) := do
  let host := cs.takeWhile (! isSlash .file ·)
  if isDriveLetter host then return ("", pathFrom .file [] cs)
  let path := pathAfterAuthority .file (cs.drop host.length)
  if host.isEmpty then return ("", path)
  let host ← Host.readDomain host
  if host = "localhost" || path.head?.any isNormalDriveLetter then return ("", path)
  return (host, path)

/-- The URI of a file, relative to that of another file if there is one. -/
def readFile (parts : Parts) (base : Option Uri) : Except UriFault Uri := do
  let build (authority : String) (path : List String) : Uri :=
    { scheme := "file", authority := some authority, path := .segments path
      query := parts.queryText .file, fragment := parts.fragmentText }
  match parts.body with
  | [] =>
    match base with
    | none => return build "" [""]
    | some base =>
      let query := if parts.query.isSome then parts.queryText .file else base.query
      return { base with query, fragment := parts.fragmentText }
  | c :: rest =>
    if isSlash .file c then
      match rest with
      | d :: after =>
        if isSlash .file d then
          let (host, path) ← afterFileSlashes after
          return build host path
        else return fromRoot build rest
      | [] => return fromRoot build rest
    else
      match base with
      | none => return build "" (pathFrom .file [] parts.body)
      | some base =>
        if startsWithDriveLetter parts.body then return build "" (pathFrom .file [] parts.body)
        else
          return build (base.authority.getD "")
            (pathFrom .file (shorten .file base.path.list) parts.body)
where
  /-- A path from the root, on the drive or host of the base unless it names a drive. -/
  fromRoot (build : String → List String → Uri) (rest : List Char) : Uri :=
    match base with
    | some base =>
      if startsWithDriveLetter rest then build "" (pathFrom .file [] rest)
      else
        match base.path.list with
        | first :: _ =>
          if isNormalDriveLetter first then build "" (pathFrom .file [first] rest)
          else build (base.authority.getD "") (pathFrom .file [] rest)
        | [] => build (base.authority.getD "") (pathFrom .file [] rest)
    | none => build "" (pathFrom .file [] rest)

/-! ## Texts with and without a scheme -/

/-- The URI of a text without a scheme under a base with a hierarchical path. -/
def readRelative (base : Uri) (parts : Parts) : Except UriFault Uri :=
  let cls := SchemeClass.of base.scheme
  match parts.body with
  | [] =>
    let query := if parts.query.isSome then parts.queryText cls else base.query
    .ok { base with query, fragment := parts.fragmentText }
  | c :: rest =>
    let isSlash (c : Char) : Bool := c = '/' || c = '\\'
    let withPath (path : List String) : Uri :=
      { base with
        path := .segments path
        query := parts.queryText cls, fragment := parts.fragmentText }
    if isSlash c then
      if rest.head?.any isSlash then
        match parts.body with
        | '/' :: '/' :: after => afterSlashes base.scheme parts after
        | body => afterSlashes base.scheme parts (body.dropWhile isSlash)
      else .ok (withPath (pathFrom cls [] rest))
    else .ok (withPath (pathFrom cls base.path.list.dropLast parts.body))

/-- The URI of a text after its scheme. -/
def readAbsolute (scheme : String) (parts : Parts) (base : Option Uri) : Except UriFault Uri :=
  let cls := SchemeClass.of scheme
  match cls with
  | .file => readFile parts (base.filter (·.scheme = "file"))
  | .internet =>
    let isSlash (c : Char) : Bool := c = '/' || c = '\\'
    let slashes := parts.body.takeWhile isSlash
    let absolute := afterSlashes scheme parts (parts.body.drop slashes.length)
    match base with
    | some base =>
      if slashes.length < 2 && base.scheme = scheme then readRelative base parts else absolute
    | none => absolute
  | .other =>
    let build (path : UriPath) : Uri :=
      { scheme, authority := none, path
        query := parts.queryText cls, fragment := parts.fragmentText }
    match parts.body with
    | '/' :: '/' :: rest => afterSlashes scheme parts rest
    | '/' :: rest => .ok (build (.segments (pathFrom cls [] rest)))
    | body =>
      .ok (build (.opaqueText (String.ofList (Percent.encodeChars Percent.isControl body))))

def readWith (base : Option Uri) (text : String) : Except UriFault Uri :=
  let cs := clean text.toList
  match splitScheme? cs with
  | some (scheme, rest) => readAbsolute scheme (Parts.of rest) base
  | none =>
    let parts := Parts.of cs
    match base with
    | none => .error .relativeWithoutBase
    | some base =>
      if parts.body.isEmpty && parts.query.isNone && parts.fragment.isSome then
        .ok { base with fragment := parts.fragmentText }
      else if base.hasOpaquePath then .error .relativeToOpaqueBase
      else if base.scheme = "file" then readFile parts (some base)
      else readRelative base parts

/-- Reads an absolute URI. -/
def read (text : String) : Except UriFault Uri := readWith none text

/-- Reads a URI or a reference relative to this one. -/
def join (base : Uri) (reference : String) : Except UriFault Uri := readWith (some base) reference

/-! ## File names -/

def isFileNameEscaped (c : Char) : Bool :=
  isPathEscaped c || c = '/' || c = '%' || c = '\\'

/-- The URI of a file given by the names on its way from the root. -/
def ofFilePath (names : List String) : Uri :=
  let segments := names.map (Percent.encode isFileNameEscaped)
  { scheme := "file", authority := some ""
    path := .segments (if segments.isEmpty then [""] else segments)
    query := none, fragment := none }

/-- The URI of a directory, which ends in a slash. -/
def ofDirectoryPath (names : List String) : Uri :=
  { ofFilePath names with
    path := .segments (names.map (Percent.encode isFileNameEscaped) ++ [""]) }

end SchemaAtlas.Uri
