import Mathlib.Data.List.Forall2
import SchemaAtlas.Proofs.Loading.Steps
import SchemaAtlas.Proofs.Spelling.Reference

/-!
# Documents that spell their references differently

Two documents respell each other if they differ only in how their references spell the paths
in the fragments. Looking up a URI comes to the same place in both: no identifier is declared
under the key of a reference, and a value that has one declares none.
-/

namespace SchemaAtlas

/-! ## Values -/

namespace Json

mutual

/-- Values that differ in the spelling of references only. -/
inductive Respells : Json → Json → Prop
  | null : Respells .null .null
  | bool (b : Bool) : Respells (.bool b) (.bool b)
  | number (n : Number) : Respells (.number n) (.number n)
  | string (s : String) : Respells (.string s) (.string s)
  | array {xs ys : List Json} : RespellsElements xs ys → Respells (.array xs) (.array ys)
  | object {ms ns : List (String × Json)} :
      RespellsMembers ms ns → Respells (.object ms) (.object ns)

inductive RespellsElements : List Json → List Json → Prop
  | nil : RespellsElements [] []
  | cons {v w : Json} {xs ys : List Json} :
      Respells v w → RespellsElements xs ys → RespellsElements (v :: xs) (w :: ys)

inductive RespellsMembers : List (String × Json) → List (String × Json) → Prop
  | nil : RespellsMembers [] []
  | cons (key : String) {v w : Json} {ms ns : List (String × Json)} :
      Respells v w → RespellsMembers ms ns → RespellsMembers ((key, v) :: ms) ((key, w) :: ns)
  | reference {s t : String} {ms ns : List (String × Json)} : Respelled s t →
      RespellsMembers ms ns →
      RespellsMembers (("$ref", .string s) :: ms) (("$ref", .string t) :: ns)

end

/-- Values that are read alike: they respell each other, or are no schemas. -/
inductive Resembles : Json → Json → Prop
  | respells {v w : Json} : Respells v w → Resembles v w
  | strings (s t : String) : Resembles (.string s) (.string t)

/-- What two objects that respell each other have under a key. -/
inductive Found (key : String) : Option Json → Option Json → Prop
  | none : Found key none none
  | respells {v w : Json} : Respells v w → Found key (some v) (some w)
  | reference {s t : String} : key = "$ref" → Respelled s t →
      Found key (some (.string s)) (some (.string t))

mutual

theorem Respells.refl : (v : Json) → Respells v v
  | .null => .null
  | .bool b => .bool b
  | .number n => .number n
  | .string s => .string s
  | .array elements => .array (RespellsElements.refl elements)
  | .object members => .object (RespellsMembers.refl members)

theorem RespellsElements.refl : (xs : List Json) → RespellsElements xs xs
  | [] => .nil
  | v :: xs => .cons (Respells.refl v) (RespellsElements.refl xs)

theorem RespellsMembers.refl : (ms : List (String × Json)) → RespellsMembers ms ms
  | [] => .nil
  | (key, v) :: ms => .cons key (Respells.refl v) (RespellsMembers.refl ms)

end

mutual

theorem Respells.size : {v w : Json} → Respells v w → v.size = w.size
  | _, _, .null => rfl
  | _, _, .bool _ => rfl
  | _, _, .number _ => rfl
  | _, _, .string _ => rfl
  | _, _, .array h => congrArg (1 + ·) h.size
  | _, _, .object h => congrArg (1 + ·) h.size

theorem RespellsElements.size : {xs ys : List Json} → RespellsElements xs ys →
    sizeElements xs = sizeElements ys
  | _, _, .nil => rfl
  | _, _, .cons h hs => congrArg₂ (· + ·) h.size hs.size

theorem RespellsMembers.size : {ms ns : List (String × Json)} → RespellsMembers ms ns →
    sizeMembers ms = sizeMembers ns
  | _, _, .nil => rfl
  | _, _, .cons _ h hs => congrArg₂ (· + ·) h.size hs.size
  | _, _, .reference _ hs => congrArg (1 + ·) hs.size

end

/-- Induction along arrays that respell each other. -/
theorem RespellsElements.along {motive : (xs ys : List Json) → RespellsElements xs ys → Prop}
    (nil : motive [] [] .nil)
    (cons : ∀ {v w : Json} {xs ys : List Json} (h : Respells v w) (hs : RespellsElements xs ys),
      motive xs ys hs → motive (v :: xs) (w :: ys) (.cons h hs)) :
    {xs ys : List Json} → (h : RespellsElements xs ys) → motive xs ys h
  | _, _, .nil => nil
  | _, _, .cons h hs => cons h hs (along nil cons hs)

/-- Induction along objects that respell each other. -/
theorem RespellsMembers.along
    {motive : (ms ns : List (String × Json)) → RespellsMembers ms ns → Prop}
    (nil : motive [] [] .nil)
    (cons : ∀ (key : String) {v w : Json} {ms ns : List (String × Json)} (h : Respells v w)
      (hs : RespellsMembers ms ns), motive ms ns hs →
      motive ((key, v) :: ms) ((key, w) :: ns) (.cons key h hs))
    (reference : ∀ {s t : String} {ms ns : List (String × Json)} (h : Respelled s t)
      (hs : RespellsMembers ms ns), motive ms ns hs →
      motive (("$ref", .string s) :: ms) (("$ref", .string t) :: ns) (.reference h hs)) :
    {ms ns : List (String × Json)} → (h : RespellsMembers ms ns) → motive ms ns h
  | _, _, .nil => nil
  | _, _, .cons key h hs => cons key h hs (along nil cons reference hs)
  | _, _, .reference h hs => reference h hs (along nil cons reference hs)

variable {v w : Json} {ms ns : List (String × Json)} {xs ys : List Json} {key : String}

theorem Resembles.shape (h : Resembles v w) : Shape.of v = Shape.of w := by
  cases h with
  | respells h => cases h <;> rfl
  | strings => rfl

theorem Respells.string? (h : Respells v w) : v.string? = w.string? := by
  cases h <;> rfl

theorem Respells.bool? (h : Respells v w) : v.bool? = w.bool? := by
  cases h <;> rfl

theorem Respells.number? (h : Respells v w) : v.number? = w.number? := by
  cases h <;> rfl

theorem RespellsMembers.found (h : RespellsMembers ms ns) (key : String) :
    Found key (Entries.get? key ms) (Entries.get? key ns) := by
  induction h using RespellsMembers.along with
  | nil => exact .none
  | cons k hv _ ih =>
    simp only [Entries.get?]
    split
    · exact .respells hv
    · exact ih
  | reference hr _ ih =>
    simp only [Entries.get?]
    split
    · rename_i hk
      exact .reference hk hr
    · exact ih

variable {found found' : Option Json}

theorem Found.isSome (h : Found key found found') : found.isSome = found'.isSome := by
  cases h <;> rfl

/-- The keys of references apart, members are read alike as data. -/
theorem Found.bind {α : Type} (h : Found key found found') (hk : key ≠ "$ref")
    {f : Json → Option α} (hf : ∀ {v w}, Respells v w → f v = f w) :
    found.bind f = found'.bind f := by
  cases h with
  | none => rfl
  | respells hv => exact hf hv
  | reference hkey => exact absurd hkey hk

theorem Found.resembles (h : Found key found found') : Option.Rel Resembles found found' := by
  cases h with
  | none => exact .none
  | respells hv => exact .some (.respells hv)
  | reference => exact .some (.strings _ _)

theorem RespellsElements.getElem? : {xs ys : List Json} → RespellsElements xs ys →
    (i : Nat) → Option.Rel Resembles xs[i]? ys[i]?
  | _, _, .nil, _ => .none
  | _, _, .cons h _, 0 => .some (.respells h)
  | _, _, .cons _ hs, i + 1 => hs.getElem? i

end Json

/-! ## Look-ups -/

namespace Lookup

open Json

variable {keys : List String} {v w : Json}

/-- The same location with values that are read alike. -/
def Located (found found' : Location × Json) : Prop :=
  found.1 = found'.1 ∧ Resembles found.2 found'.2

theorem declaredId?_eq (hkeys : "$ref" ∉ keys) (h : Resembles v w) :
    declaredId? keys v = declaredId? keys w := by
  cases h with
  | strings => rfl
  | respells h =>
    cases h with
    | @object ms ns h =>
      have hfind : ∀ ks : List String, "$ref" ∉ ks →
          (ks.findSome? fun key => (Entries.get? key ms).bind Json.string?) =
            ks.findSome? fun key => (Entries.get? key ns).bind Json.string? := by
        intro ks hks
        induction ks with
        | nil => rfl
        | cons key ks ih =>
          have hne : key ≠ "$ref" := fun heq => hks (heq ▸ List.mem_cons_self)
          rw [List.findSome?_cons, List.findSome?_cons, (h.found key).bind hne Respells.string?,
            ih fun hm => hks (List.mem_cons_of_mem _ hm)]
      have hcontains : Entries.contains "$ref" ms = Entries.contains "$ref" ns :=
        (h.found "$ref").isSome
      rw [declaredId?, declaredId?, hcontains, hfind keys hkeys]
    | null | bool | number | string | array => rfl

theorem rescope_eq (hkeys : "$ref" ∉ keys) (location : Location) (h : Resembles v w) :
    rescope keys location v = rescope keys location w := by
  rw [rescope, rescope, declaredId?_eq hkeys h]

theorem step?_rel (segment : String) (h : Resembles v w) :
    Option.Rel Resembles (step? segment v) (step? segment w) := by
  cases h with
  | strings => exact .none
  | respells h =>
    cases h with
    | object h => exact (h.found segment).resembles
    | array h =>
      simp only [step?]
      cases index? segment with
      | none => exact .none
      | some i => exact h.getElem? i
    | null | bool | number | string => exact .none

theorem navigate_rel (hkeys : "$ref" ∉ keys) {location : Location} (h : Resembles v w)
    (segments : List String) : Option.Rel Located (navigate keys location v segments)
      (navigate keys location w segments) := by
  induction segments generalizing location v w with
  | nil => exact .some ⟨rfl, h⟩
  | cons segment rest ih =>
    have hstep := step?_rel segment h
    unfold navigate
    cases hv : step? segment v with
    | none =>
      cases hw : step? segment w with
      | none => exact .none
      | some =>
        rw [hv, hw] at hstep
        cases hstep
    | some next =>
      cases hw : step? segment w with
      | none =>
        rw [hv, hw] at hstep
        cases hstep
      | some next' =>
        rw [hv, hw] at hstep
        cases hstep with
        | some hnext =>
          simp only [rescope_eq hkeys location h]
          exact ih hnext

mutual

theorem findIdentified_rel (hkeys : "$ref" ∉ keys) (target : Uri) (location : Location) :
    {v w : Json} → Respells v w → Option.Rel Located (findIdentified keys target location v)
      (findIdentified keys target location w)
  | _, _, .object h => by
    have hv := Resembles.respells (.object h)
    simp only [findIdentified, rescope_eq hkeys location hv, declaredId?_eq hkeys hv]
    split
    · exact .some ⟨rfl, hv⟩
    · exact findInMembers_rel hkeys target _ h
  | _, _, .array h => by
    simp only [findIdentified]
    exact findInElements_rel hkeys target location 0 h
  | _, _, .null => .none
  | _, _, .bool _ => .none
  | _, _, .number _ => .none
  | _, _, .string _ => .none

theorem findInMembers_rel (hkeys : "$ref" ∉ keys) (target : Uri) (inner : Location) :
    {ms ns : List (String × Json)} → RespellsMembers ms ns →
    Option.Rel Located (findInMembers keys target inner ms) (findInMembers keys target inner ns)
  | _, _, .nil => .none
  | _, _, .cons key h hs => by
    have hrest := findInMembers_rel hkeys target inner hs
    have hhere := findIdentified_rel hkeys target (inner.child key) h
    simp only [findInMembers]
    split
    · exact hrest
    · revert hhere
      generalize findIdentified keys target (inner.child key) _ = found
      generalize findIdentified keys target (inner.child key) _ = found'
      rintro (hfound | _)
      · exact .some hfound
      · exact hrest
  | _, _, .reference _ hs => by
    have hrest := findInMembers_rel hkeys target inner hs
    simp only [findInMembers, findIdentified, ite_self]
    exact hrest

theorem findInElements_rel (hkeys : "$ref" ∉ keys) (target : Uri) (location : Location)
    (index : Nat) : {xs ys : List Json} → RespellsElements xs ys →
    Option.Rel Located (findInElements keys target location index xs)
      (findInElements keys target location index ys)
  | _, _, .nil => .none
  | _, _, .cons h hs => by
    have hrest := findInElements_rel hkeys target location (index + 1) hs
    have hhere := findIdentified_rel hkeys target (location.childIndex index) h
    simp only [findInElements]
    revert hhere
    generalize findIdentified keys target (location.childIndex index) _ = found
    generalize findIdentified keys target (location.childIndex index) _ = found'
    rintro (hfound | _)
    · exact .some hfound
    · exact hrest

end

/-- A URI names the same location in documents that respell each other. -/
theorem locate_rel (hkeys : "$ref" ∉ keys) (root : Location) (uri : Uri) (h : Respells v w) :
    Option.Rel Located (locate keys root v uri) (locate keys root w uri) := by
  have hfind := fun target => findIdentified_rel hkeys target root h
  unfold locate
  dsimp only
  split
  · split
    · exact .some ⟨rfl, .respells h⟩
    · exact navigate_rel hkeys (.respells h) _
    · exact hfind _
  · have hwhole := hfind uri.normalized
    revert hwhole
    generalize findIdentified keys uri.normalized root v = found
    generalize findIdentified keys uri.normalized root w = found'
    rintro (hfound | _)
    · exact .some hfound
    · cases path? uri.normalized with
      | none => exact .none
      | some path =>
        have hbase := hfind uri.normalized.withoutFragment
        revert hbase
        generalize findIdentified keys uri.normalized.withoutFragment root v = found
        generalize findIdentified keys uri.normalized.withoutFragment root w = found'
        rintro (⟨hlocation, hvalue⟩ | _)
        · dsimp only
          rw [hlocation]
          exact navigate_rel hkeys hvalue _
        · exact .none

end Lookup

/-- No draft declares identifiers under the key of references. -/
theorem DraftSet.ref_notMem_idKeys (active : DraftSet) : "$ref" ∉ active.idKeys := by
  have hkey : ∀ draft : Draft, "$ref" ≠ draft.idKey := by
    intro draft
    cases draft <;> decide
  intro hmem
  unfold idKeys at hmem
  split at hmem
  · exact hkey _ (List.mem_singleton.mp hmem)
  · rw [List.mem_eraseDups, List.mem_map] at hmem
    obtain ⟨draft, _, heq⟩ := hmem
    exact hkey draft heq.symm

/-! ## Tables -/

namespace Entries

variable {κ α : Type} {R : α → α → Prop} {a b : List (κ × α)}

/-- Tables with the same keys in the same order and related values. -/
def Related (R : α → α → Prop) (a b : List (κ × α)) : Prop :=
  List.Forall₂ (fun entry other => entry.1 = other.1 ∧ R entry.2 other.2) a b

variable [DecidableEq κ]

theorem Related.get? (h : Related R a b) (key : κ) :
    Option.Rel R (Entries.get? key a) (Entries.get? key b) := by
  induction h with
  | nil => exact .none
  | @cons entry other rest rest' hentry _ ih =>
    obtain ⟨k, v⟩ := entry
    obtain ⟨k', v'⟩ := other
    obtain ⟨hkey, hvalue⟩ := hentry
    cases hkey
    simp only [Entries.get?]
    split
    · exact .some hvalue
    · exact ih

theorem Related.erase (h : Related R a b) (key : κ) :
    Related R (Entries.erase key a) (Entries.erase key b) := by
  induction h with
  | nil => exact .nil
  | @cons entry other rest rest' hentry hrest ih =>
    obtain ⟨k, v⟩ := entry
    obtain ⟨k', v'⟩ := other
    obtain ⟨hkey, hvalue⟩ := hentry
    cases hkey
    simp only [Entries.erase]
    split
    · exact hrest
    · exact .cons ⟨rfl, hvalue⟩ ih

theorem Related.put (h : Related R a b) (key : κ) {v w : α} (hv : R v w) :
    Related R (Entries.put key v a) (Entries.put key w b) :=
  .cons ⟨rfl, hv⟩ (h.erase key)

end Entries

/-- The members of objects that respell each other are read alike. -/
theorem Json.RespellsMembers.related : {ms ns : List (String × Json)} → RespellsMembers ms ns →
    Entries.Related Resembles ms ns
  | _, _, .nil => .nil
  | _, _, .cons _ h hs => .cons ⟨rfl, .respells h⟩ hs.related
  | _, _, .reference _ hs => .cons ⟨rfl, .strings _ _⟩ hs.related

/-! ## Documents -/

open Json

/-- Documents that are opened alike and respell each other. -/
structure OpenDocument.Respells (d e : OpenDocument) : Prop where
  uri : d.uri = e.uri
  draft : d.draft = e.draft
  active : d.active = e.active
  document : d.document.Respells e.document

theorem OpenDocument.Respells.locate_rel {d e : OpenDocument} (h : d.Respells e) (uri : Uri) :
    Option.Rel Lookup.Located (d.locate uri) (e.locate uri) := by
  rw [OpenDocument.locate, OpenDocument.locate, h.uri, h.active]
  exact Lookup.locate_rel e.active.ref_notMem_idKeys _ uri h.document

theorem Json.Respells.metaSchema {v w : Json} (h : v.Respells w) :
    (v.member? "$schema").bind Json.string? = (w.member? "$schema").bind Json.string? := by
  cases h with
  | object h => exact (h.found "$schema").bind (by decide) Respells.string?
  | null | bool | number | string | array => rfl

/-- Documents in memory that respell each other. -/
structure Documents.Respells (d e : Documents) : Prop where
  available : Entries.Related Json.Respells d.available e.available
  loaded : Entries.Related Json.Respells d.loaded e.loaded

namespace Documents.Respells

variable {d e : Documents} (h : d.Respells e) {v w : Json} (uri : Uri)

include h

theorem loaded? : Option.Rel Json.Respells (d.loaded? uri) (e.loaded? uri) :=
  h.loaded.get? uri.withoutFragment

theorem register (hv : v.Respells w) : (d.register uri v).Respells (e.register uri w) :=
  ⟨h.available, h.loaded.put uri.withoutFragment hv⟩

theorem fetch? : Option.Rel (fun a b => a.1.Respells b.1 ∧ a.2.Respells b.2) (d.fetch? uri)
    (e.fetch? uri) := by
  unfold Documents.fetch?
  have hfound := h.available.get? uri.withoutFragment
  revert hfound
  generalize Entries.get? uri.withoutFragment d.available = found
  generalize Entries.get? uri.withoutFragment e.available = found'
  rintro (hv | _)
  · exact .some ⟨hv, h.register uri hv⟩
  · exact .none

/-- As many values, so as many steps are allowed. -/
theorem weight : d.weight = e.weight := by
  have hfold : ∀ {a b : List (Uri × Json)} (n : Nat), Entries.Related Json.Respells a b →
      a.foldl (fun weight entry => weight + entry.2.size) n =
        b.foldl (fun weight entry => weight + entry.2.size) n := by
    intro a b n hab
    induction hab generalizing n with
    | nil => rfl
    | cons hentry _ ih =>
      rw [List.foldl_cons, List.foldl_cons, hentry.2.size]
      exact ih _
  rw [Documents.weight, Documents.weight, List.foldl_append, List.foldl_append,
    hfold 0 h.available]
  exact hfold _ h.loaded

end Documents.Respells
end SchemaAtlas
