import SchemaAtlas.Schema.Basic

/-!
# The cache of schemas

Finished schemas by absolute URI. An empty fragment names the same as none.
-/

namespace SchemaAtlas

structure Cache where
  entries : List (Uri × Schema)
  deriving Inhabited

namespace Cache

def empty : Cache := ⟨[]⟩

def get? (uri : Uri) (c : Cache) : Option Schema := Entries.get? uri.normalized c.entries

def contains (uri : Uri) (c : Cache) : Bool := (c.get? uri).isSome

def insert (uri : Uri) (schema : Schema) (c : Cache) : Cache :=
  ⟨Entries.put uri.normalized schema c.entries⟩

/-- Inserts the entries of a table. -/
def insertAll (table : List (Uri × Schema)) (c : Cache) : Cache :=
  table.foldl (fun c (uri, schema) => c.insert uri schema) c

def size (c : Cache) : Nat := c.entries.length

theorem get?_insert (uri other : Uri) (schema : Schema) (c : Cache) :
    (c.insert uri schema).get? other =
      if other.normalized = uri.normalized then some schema else c.get? other := by
  simp [get?, insert, Entries.get?_put]

end Cache
end SchemaAtlas
