import SchemaAtlas.Uri.Address
import SchemaAtlas.Uri.DomainName

/-!
# Hosts

A host between brackets is an eight-word address under every scheme. Under a scheme that
names hosts of the Internet any other host is a domain name or a four-byte address, after
escapes are decoded; under other schemes it is kept as written.
-/

namespace SchemaAtlas.Host

def readBracketed (cs : List Char) : Except UriFault String :=
  if cs.getLast? = some ']' then
    match Address.eightWords? (cs.drop 1).dropLast with
    | some words => .ok ("[" ++ Address.eightWordsText words ++ "]")
    | none => .error .invalidIpv6Address
  else .error .invalidIpv6Address

/-- Reads a host of the Internet. -/
def readDomain (cs : List Char) : Except UriFault String :=
  if cs.head? = some '[' then readBracketed cs
  else
    match Utf8.decode (Percent.octets cs) with
    | .error _ => .error .invalidDomainName
    | .ok decoded =>
      match DomainName.toAscii? decoded.toList with
      | none => .error .invalidDomainName
      | some [] => .error .emptyHost
      | some domain =>
        if Address.endsInNumber domain then
          match Address.fourBytes? domain with
          | some n => .ok (Address.fourBytesText n)
          | none => .error .invalidIpv4Address
        else .ok (String.ofList domain)

/-- Characters that no host holds. -/
def isForbidden (c : Char) : Bool :=
  c.toNat = 0 || ['\t', '\n', '\r', ' ', '#', '/', ':', '<', '>', '?', '@', '[', '\\', ']', '^',
    '|'].contains c

/-- Reads a host of a scheme that gives hosts no meaning. -/
def readUninterpreted (cs : List Char) : Except UriFault String :=
  if cs.head? = some '[' then readBracketed cs
  else if cs.any isForbidden then .error .invalidDomainCharacter
  else .ok (String.ofList (Percent.encodeChars Percent.isControl cs))

end SchemaAtlas.Host
