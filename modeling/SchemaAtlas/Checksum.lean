import SchemaAtlas.Checksum.Sha256
import SchemaAtlas.Json.Writer
import SchemaAtlas.Uri.Basic

/-!
# Names from content

A document that was given no URI and a schema that a merge built have no address of their
own. They are named by the SHA-256 digest of what they come from.
-/

namespace SchemaAtlas

/-- A digest in lower-case hexadecimal. -/
structure Checksum where
  hex : String
  deriving DecidableEq, Repr, Inhabited

namespace Checksum

def ofText (text : String) : Checksum := ⟨Sha256.hexDigest text.toUTF8.toList⟩

/-- The checksum of a document's compact text, which does not depend on how it was spelled. -/
def ofJson (document : Json) : Checksum := ofText document.text

instance : ToString Checksum := ⟨hex⟩

/-- A `urn:` name in a namespace of checksums. -/
def urn (kind : String) (c : Checksum) : Uri :=
  { scheme := "urn", authority := none, path := .opaqueText (kind ++ ":" ++ c.hex), query := none,
    fragment := none }

/-- The name of content by its checksum. -/
def contentName (c : Checksum) : Uri := c.urn "sha256"

end Checksum

/-- The URI of a document that was given none. -/
def documentName (document : Json) : Uri := (Checksum.ofJson document).contentName

/-- The text whose checksum names a merge. -/
def mergeText (base override : Uri) : String := base.text ++ "|" ++ override.text

/-- The URI of what two schemas merge into. -/
def mergeName (base override : Uri) : Uri := (Checksum.ofText (mergeText base override)).urn "merge"

end SchemaAtlas
