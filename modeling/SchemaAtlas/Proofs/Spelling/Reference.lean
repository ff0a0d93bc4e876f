import Mathlib.Data.List.TakeWhile
import SchemaAtlas.Proofs.Pointer.Fragment

/-!
# Spellings of a reference

The path in the fragment of a reference may be percent-encoded in many ways. A URI reader
keeps the spelling and adds escapes of its own, so references that spell the same path lead to
URIs that differ in their fragments only, and `Uri.canonical` gives these the one spelling
that the fragment form of the path has.
-/

namespace SchemaAtlas

/-! ## Encoding what is encoded in part -/

namespace Percent

/-- A percent sign that no two hexadecimal digits follow stands for itself. -/
theorem octets_percent {cs : List Char}
    (h : ∀ x y rest, cs = x :: y :: rest → hexValue? x ≠ none → hexValue? y = none) :
    octets ('%' :: cs) = String.utf8EncodeChar '%' ++ octets cs := by
  match cs with
  | [] => rfl
  | [x] => rfl
  | x :: y :: rest =>
    rw [octets]
    split
    · rename_i hx hy
      rw [h x y rest rfl (by simp [hx])] at hy
      cases hy
    · rfl

theorem toNat_of_hexValue? {c : Char} (h : hexValue? c ≠ none) : c.toNat < 128 := by
  have hle : ∀ {d : Char}, c ≤ d → c.toNat ≤ d.toNat := fun hcd => hcd
  unfold hexValue? at h
  split at h
  · rename_i hc
    exact Nat.lt_of_le_of_lt (hle hc.2) (by decide)
  · split at h
    · rename_i hc
      exact Nat.lt_of_le_of_lt (hle hc.2) (by decide)
    · split at h
      · rename_i hc
        exact Nat.lt_of_le_of_lt (hle hc.2) (by decide)
      · exact absurd rfl h

end Percent

namespace Uri

open Percent

/-- The fragment that a reader makes of a text. -/
def encodeFragment (cs : List Char) : List Char := encodeChars isFragmentEscaped cs

theorem encodeFragment_cons (c : Char) (cs : List Char) :
    encodeFragment (c :: cs) = encodeChar isFragmentEscaped c ++ encodeFragment cs :=
  List.flatMap_cons

/-- The digits of escapes are kept. -/
theorem encodeFragment_hex {c : Char} (h : hexValue? c ≠ none) (cs : List Char) :
    encodeFragment (c :: cs) = c :: encodeFragment cs := by
  have hall : ∀ n : Fin 128, hexValue? (Char.ofNat n.val) ≠ none →
      encodeChar isFragmentEscaped (Char.ofNat n.val) = [Char.ofNat n.val] := by
    decide
  have hc := hall ⟨c.toNat, toNat_of_hexValue? h⟩
  simp only [Char.ofNat_toNat] at hc
  rw [encodeFragment_cons, hc h, List.singleton_append]

/-- A hexadecimal digit in front was not written by an escape. -/
theorem encodeFragment_eq_cons {cs rest : List Char} {x : Char} (hx : hexValue? x ≠ none)
    (h : encodeFragment cs = x :: rest) : ∃ cs', cs = x :: cs' ∧ encodeFragment cs' = rest := by
  cases cs with
  | nil => cases h
  | cons c cs =>
    rw [encodeFragment_cons, encodeChar] at h
    split at h
    · cases h
      exact ⟨cs, rfl, rfl⟩
    · exfalso
      cases hb : String.utf8EncodeChar c with
      | nil => exact String.utf8EncodeChar_ne_nil hb
      | cons b bytes =>
        rw [hb, List.flatMap_cons, escapeOctet, List.cons_append, List.cons_append,
          List.cons.injEq] at h
        exact hx (h.1 ▸ by decide)

/-- The escapes of a reader do not join with what is before them. -/
theorem octets_percent_encodeFragment {cs : List Char}
    (h : ∀ x y rest, cs = x :: y :: rest → hexValue? x ≠ none → hexValue? y = none) :
    octets ('%' :: encodeFragment cs) =
      String.utf8EncodeChar '%' ++ octets (encodeFragment cs) := by
  apply octets_percent
  intro x y rest hcs hx
  refine Decidable.byContradiction fun hy => hy ?_
  obtain ⟨cs', rfl, hrest⟩ := encodeFragment_eq_cons hx hcs
  obtain ⟨cs'', rfl, -⟩ := encodeFragment_eq_cons hy hrest
  exact h x y cs'' rfl hx

/-- A reader keeps what a fragment stands for. -/
theorem octets_encodeFragment (cs : List Char) : octets (encodeFragment cs) = octets cs := by
  have hsign : ∀ cs, encodeFragment ('%' :: cs) = '%' :: encodeFragment cs := fun _ => rfl
  induction cs using octets.induct with
  | case1 h l rest x y hl hh ih =>
    rw [hsign, encodeFragment_hex (by simp [hh]), encodeFragment_hex (by simp [hl]), octets, octets]
    simp only [hh, hl, ih]
  | case2 h l rest hnot ih =>
    have hpair : ∀ x y rest', h :: l :: rest = x :: y :: rest' → hexValue? x ≠ none →
        hexValue? y = none := by
      intro x y rest' heq hx
      cases heq
      obtain ⟨n, hn⟩ := Option.ne_none_iff_exists'.mp hx
      exact Option.eq_none_iff_forall_ne_some.mpr fun m hm => hnot n m hn hm
    rw [hsign, octets_percent_encodeFragment hpair, octets_percent hpair, ih]
  | case3 c rest hnot ih =>
    by_cases hc : c = '%'
    · subst hc
      have hpair : ∀ x y rest', rest = x :: y :: rest' → hexValue? x ≠ none →
          hexValue? y = none :=
        fun x y rest' heq => (hnot x y rest' rfl heq).elim
      rw [hsign, octets_percent_encodeFragment hpair, octets_percent hpair, ih]
    · rw [octets_cons hc, encodeFragment_cons, encodeChar]
      split
      · rw [List.singleton_append, octets_cons hc, ih]
      · rw [octets_flatMap_escapeOctet, ih]
  | case4 => rfl

/-! ## Texts with a fragment -/

/-- Characters behind a number sign that a reader of URIs keeps. -/
structure Kept (cs : List Char) : Prop where
  plain : ∀ c ∈ cs, isTabOrNewline c = false
  last : ∀ c, cs.getLast? = some c → 32 < c.toNat

theorem clean_behind (before : List Char) : ∃ text, (∀ c ∈ text, c ∈ before) ∧
    ∀ {cs}, Kept cs → clean (before ++ '#' :: cs) = text ++ '#' :: cs := by
  refine ⟨(before.dropWhile fun c => c.toNat ≤ 32).filter (! isTabOrNewline ·), ?_, ?_⟩
  · exact fun c hc => (List.dropWhile_sublist _).mem (List.mem_filter.mp hc).1
  · intro cs hcs
    have hfront : (before ++ '#' :: cs).dropWhile (fun c => decide (c.toNat ≤ 32)) =
        before.dropWhile (fun c => decide (c.toNat ≤ 32)) ++ '#' :: cs := by
      rw [List.dropWhile_append]
      split
      · rename_i h
        rw [List.isEmpty_iff.mp h]
        rfl
      · rfl
    obtain ⟨init, last, hsplit, hlast⟩ :
        ∃ init last, '#' :: cs = init ++ [last] ∧ 32 < last.toNat := by
      cases hl : cs.getLast? with
      | none =>
        rw [List.getLast?_eq_none_iff.mp hl]
        exact ⟨[], '#', rfl, by decide⟩
      | some last =>
        obtain ⟨init, hinit⟩ := List.getLast?_eq_some_iff.mp hl
        exact ⟨'#' :: init, last, by rw [hinit]; rfl, hcs.last last hl⟩
    have hend : ∀ xs : List Char, ((xs ++ '#' :: cs).reverse.dropWhile
        (fun c => decide (c.toNat ≤ 32))).reverse = xs ++ '#' :: cs := by
      intro xs
      have hnot : ¬ decide (last.toNat ≤ 32) = true := by simpa using hlast
      rw [hsplit, ← List.append_assoc, List.reverse_append, List.reverse_singleton,
        List.singleton_append, List.dropWhile_cons, if_neg hnot, List.reverse_cons,
        List.reverse_reverse]
    have hkept : ('#' :: cs).filter (! isTabOrNewline ·) = '#' :: cs := by
      rw [List.filter_eq_self]
      intro c hc
      rcases List.mem_cons.mp hc with rfl | hc
      · decide
      · simp [hcs.plain c hc]
    unfold clean
    simp only [hfront, hend, List.filter_append, hkept]

theorem takeWhile_behind {p : Char → Bool} (hp : p '#' = false) (before cs : List Char) :
    (before ++ '#' :: cs).takeWhile p = before.takeWhile p := by
  induction before with
  | nil => simp [hp]
  | cons c before ih => simp only [List.cons_append, List.takeWhile_cons, ih]

theorem drop_takeWhile (p : Char → Bool) (cs : List Char) :
    cs.drop (cs.takeWhile p).length = cs.dropWhile p := by
  induction cs with
  | nil => rfl
  | cons c cs ih =>
    by_cases hc : p c = true
    · simp [hc, ih]
    · simp [hc]

theorem drop_behind (p : Char → Bool) (before cs : List Char) :
    (before ++ '#' :: cs).drop (before.takeWhile p).length = before.dropWhile p ++ '#' :: cs := by
  rw [List.drop_append_of_le_length (List.takeWhile_sublist p).length_le, drop_takeWhile]

theorem splitScheme?_behind (before cs : List Char) :
    splitScheme? (before ++ '#' :: cs) =
      (splitScheme? before).map fun found => (found.1, found.2 ++ '#' :: cs) := by
  have hscheme : isSchemeChar '#' = false := by decide
  unfold splitScheme?
  simp only [takeWhile_behind hscheme,
    drop_behind, drop_takeWhile]
  cases before.takeWhile isSchemeChar with
  | nil => rfl
  | cons first scheme =>
    cases before.dropWhile isSchemeChar with
    | nil => rfl
    | cons c rest =>
      by_cases hc : c = ':'
      · subst hc
        by_cases ha : first.isAlpha = true
        · simp [ha]
        · simp [ha]
      · simp [hc]

theorem mem_of_splitScheme? {cs rest : List Char} {scheme : String}
    (h : splitScheme? cs = some (scheme, rest)) : ∀ c ∈ rest, c ∈ cs := by
  unfold splitScheme? at h
  simp only at h
  split at h
  · rename_i hdrop
    split at h
    · cases h
      intro c hc
      have hmem : c ∈ cs.drop (cs.takeWhile isSchemeChar).length := by
        rw [hdrop]
        exact List.mem_cons_of_mem _ hc
      exact List.mem_of_mem_drop hmem
    · cases h
  · cases h

/-- The parts of a text with a fragment. -/
def Parts.behind (parts : Parts) (cs : List Char) : Parts := { parts with fragment := some cs }

theorem Parts.of_behind {before : List Char} (hb : '#' ∉ before) (cs : List Char) :
    Parts.of (before ++ '#' :: cs) = (Parts.of before).behind cs := by
  have hbody := takeWhile_behind (p := fun c => decide (c ≠ '?') && decide (c ≠ '#'))
    (by decide) before cs
  unfold Parts.of
  simp only [hbody, drop_behind, drop_takeWhile]
  cases hd : before.dropWhile (fun c : Char => c ≠ '?' && c ≠ '#') with
  | nil => rfl
  | cons c rest =>
    have hmem : ∀ d ∈ c :: rest, d ∈ before := by
      rw [← hd]
      exact fun d => (List.dropWhile_sublist _).mem
    have hc := List.head?_dropWhile_not (fun c : Char => c ≠ '?' && c ≠ '#') before
    rw [hd] at hc
    have hne : c ≠ '#' := by
      rintro rfl
      exact hb (hmem _ List.mem_cons_self)
    have hquery : c = '?' := by simpa [hne] using hc
    subst hquery
    have hall : ∀ d ∈ rest, decide (d ≠ '#') = true := by
      intro d hd
      have hne : d ≠ '#' := by
        rintro rfl
        exact hb (hmem _ (List.mem_cons_of_mem _ hd))
      simpa using hne
    have hnone : rest.dropWhile (fun c : Char => decide (c ≠ '#')) = [] := by
      rw [List.dropWhile_eq_nil_iff]
      exact hall
    simp only [List.cons_append]
    rw [List.takeWhile_append_of_pos hall, List.dropWhile_append, hnone,
      List.takeWhile_eq_self_iff.mpr hall]
    simp [Parts.behind]

/-! ## Readers and the fragment -/

/-- The URI with a fragment as a text writes it. -/
def fragmented (cs : List Char) (uri : Uri) : Uri :=
  { uri with fragment := some (String.ofList (encodeFragment cs)) }

theorem bind_map_fragmented {α : Type} {cs : List Char} {x : Except UriFault α}
    {f g : α → Except UriFault Uri} (h : ∀ a, f a = (g a).map (fragmented cs)) :
    (x >>= f) = (x >>= g).map (fragmented cs) := by
  cases x with
  | error fault => rfl
  | ok a => exact h a

theorem ite_map_fragmented {cs : List Char} {p : Prop} [Decidable p]
    {x y x' y' : Except UriFault Uri} (hx : x = x'.map (fragmented cs))
    (hy : y = y'.map (fragmented cs)) :
    (if p then x else y) = (if p then x' else y').map (fragmented cs) := by
  split
  · exact hx
  · exact hy

theorem afterSlashes_behind (scheme : String) (parts : Parts) (text cs : List Char) :
    afterSlashes scheme (parts.behind cs) text =
      (afterSlashes scheme (parts.behind []) text).map (fragmented cs) := by
  unfold afterSlashes
  dsimp only [Parts.behind, Option.isSome_some]
  refine ite_map_fragmented rfl (ite_map_fragmented rfl (ite_map_fragmented ?_ ?_)) <;>
    refine bind_map_fragmented fun host => ?_
  all_goals
    cases (splitHost (SchemeClass.of scheme) false
        (splitUser (SchemeClass.of scheme) text).2.2).2 with
    | nil => exact ite_map_fragmented rfl rfl
    | cons c rest =>
      by_cases hc : c = ':'
      · subst hc
        exact ite_map_fragmented rfl (bind_map_fragmented fun _ => ite_map_fragmented rfl rfl)
      · split
        · rename_i heq
          exact absurd (List.cons.inj heq).1 hc
        · exact ite_map_fragmented rfl rfl

theorem readFile_behind (parts : Parts) (base : Option Uri) (cs : List Char) :
    readFile (parts.behind cs) base = (readFile (parts.behind []) base).map (fragmented cs) := by
  obtain ⟨body, query, fragment⟩ := parts
  have hroot : ∀ rest, readFile.fromRoot base (fun authority path =>
      ⟨"file", some authority, .segments path, Parts.queryText ⟨body, query, some cs⟩ .file,
        Parts.fragmentText ⟨body, query, some cs⟩⟩) rest =
      fragmented cs (readFile.fromRoot base (fun authority path =>
        ⟨"file", some authority, .segments path, Parts.queryText ⟨body, query, some []⟩ .file,
          Parts.fragmentText ⟨body, query, some []⟩⟩) rest) := by
    intro rest
    unfold readFile.fromRoot
    cases base with
    | none => rfl
    | some base =>
      dsimp only
      split
      · rfl
      · cases base.path.list with
        | nil => rfl
        | cons first _ =>
          dsimp only
          split <;> rfl
  unfold readFile
  dsimp only [Parts.behind]
  cases body with
  | nil => cases base <;> rfl
  | cons c rest =>
    dsimp only
    refine ite_map_fragmented ?_ ?_
    · cases rest with
      | nil => exact congrArg Except.ok (hroot [])
      | cons d after =>
        exact ite_map_fragmented (bind_map_fragmented fun _ => rfl)
          (congrArg Except.ok (hroot (d :: after)))
    · cases base with
      | none => rfl
      | some base => exact ite_map_fragmented rfl rfl

theorem readRelative_behind (base : Uri) (parts : Parts) (cs : List Char) :
    readRelative base (parts.behind cs) =
      (readRelative base (parts.behind [])).map (fragmented cs) := by
  obtain ⟨body, query, fragment⟩ := parts
  unfold readRelative
  dsimp only [Parts.behind]
  cases body with
  | nil => rfl
  | cons c rest =>
    dsimp only
    refine ite_map_fragmented (ite_map_fragmented ?_ rfl) rfl
    split
    · exact afterSlashes_behind base.scheme ⟨_, query, none⟩ _ cs
    · exact afterSlashes_behind base.scheme ⟨_, query, none⟩ _ cs

theorem readAbsolute_behind (scheme : String) (parts : Parts) (base : Option Uri)
    (cs : List Char) :
    readAbsolute scheme (parts.behind cs) base =
      (readAbsolute scheme (parts.behind []) base).map (fragmented cs) := by
  unfold readAbsolute
  dsimp only
  cases SchemeClass.of scheme with
  | file => exact readFile_behind parts _ cs
  | internet =>
    cases base with
    | none => exact afterSlashes_behind scheme parts _ cs
    | some base =>
      exact ite_map_fragmented (readRelative_behind base parts cs)
        (afterSlashes_behind scheme parts _ cs)
  | other =>
    dsimp only [Parts.behind]
    split
    · exact afterSlashes_behind scheme parts _ cs
    · rfl
    · rfl

/-- What a reference with a fragment names differs from what it names with another in the
fragment only. -/
theorem join_behind {before : List Char} (hb : '#' ∉ before) (base : Uri) :
    ∃ found : Except UriFault Uri, ∀ {cs}, Kept cs →
      base.join (String.ofList (before ++ '#' :: cs)) = found.map (fragmented cs) := by
  obtain ⟨text, htext, hclean⟩ := clean_behind before
  have hplain : '#' ∉ text := fun hmem => hb (htext _ hmem)
  cases hs : splitScheme? text with
  | some found =>
    obtain ⟨scheme, rest⟩ := found
    have hrest : '#' ∉ rest := fun hmem => hplain (mem_of_splitScheme? hs _ hmem)
    refine ⟨readAbsolute scheme ((Parts.of rest).behind []) (some base), fun {cs} hcs => ?_⟩
    rw [join, readWith, String.toList_ofList, hclean hcs]
    simp only [splitScheme?_behind, hs, Option.map_some, Parts.of_behind hrest]
    exact readAbsolute_behind scheme (Parts.of rest) (some base) cs
  | none =>
    refine ⟨if (Parts.of text).body.isEmpty && (Parts.of text).query.isNone then .ok base
      else if base.hasOpaquePath then .error .relativeToOpaqueBase
      else if base.scheme = "file" then readFile ((Parts.of text).behind []) (some base)
      else readRelative base ((Parts.of text).behind []), fun {cs} hcs => ?_⟩
    rw [join, readWith, String.toList_ofList, hclean hcs]
    simp only [splitScheme?_behind, hs, Option.map_none, Parts.of_behind hplain]
    simp only [Parts.behind, Option.isSome_some, Bool.and_true]
    exact ite_map_fragmented rfl (ite_map_fragmented rfl (ite_map_fragmented
      (readFile_behind (Parts.of text) (some base) cs)
      (readRelative_behind base (Parts.of text) cs)))

/-! ## One spelling for all -/

/-- The URI in the spelling that nodes are known under: a path in its fragment is written as
the fragment form writes it. -/
def canonical (uri : Uri) : Uri :=
  match Lookup.path? uri with
  | some path => Location.withPath uri path
  | none => uri

/-- Characters behind a number sign that spell a path. -/
structure Spells (path : Pointer) (cs : List Char) : Prop extends Kept cs where
  front : ∃ rest, cs = '/' :: rest
  reads : Pointer.readFragment (String.ofList cs) = .ok path

/-- Whether characters spell a path can be computed. -/
theorem spells_of_check {path : Pointer} {cs : List Char}
    (hplain : cs.all (!isTabOrNewline ·) = true)
    (hlast : (cs.getLast?.all fun c => 32 < c.toNat) = true) (hfront : cs.head? = some '/')
    (hreads : Pointer.readFragment (String.ofList cs) = .ok path) : Spells path cs where
  plain c hc := by simpa using List.all_eq_true.mp hplain c hc
  last c hc := by simpa [hc] using hlast
  front := by
    cases cs with
    | nil => cases hfront
    | cons c rest => exact ⟨rest, congrArg (· :: rest) (Option.some.inj hfront)⟩
  reads := hreads

theorem readFragment_slash (rest : List Char) :
    Pointer.readFragment (String.ofList ('/' :: rest)) =
      match Utf8.decode (octets ('/' :: rest)) with
      | .ok decoded => Pointer.read decoded
      | .error fault => .error (.notUtf8 (String.ofList ('/' :: rest)) fault) := by
  rw [Pointer.readFragment, String.toList_ofList]
  rfl

variable {path : Pointer} {cs : List Char}

/-- The path is read from the fragment that a reader makes. -/
theorem Spells.path?_fragmented (h : Spells path cs) (uri : Uri) :
    Lookup.path? (uri.fragmented cs) = some path := by
  obtain ⟨rest, rfl⟩ := h.front
  have hslash : encodeFragment ('/' :: rest) = '/' :: encodeFragment rest := rfl
  have hfront : (String.ofList (encodeFragment ('/' :: rest))).front = '/' := by
    rw [hslash, String.front_eq, String.front?_eq, String.toList_ofList]
    rfl
  have hreads := h.reads
  rw [readFragment_slash] at hreads
  have hread : Pointer.readFragment (String.ofList (encodeFragment ('/' :: rest))) = .ok path := by
    rw [hslash, readFragment_slash, ← hslash, octets_encodeFragment]
    cases hd : Utf8.decode (octets ('/' :: rest)) with
    | ok decoded =>
      rw [hd] at hreads
      exact hreads
    | error fault =>
      rw [hd] at hreads
      cases hreads
  simp only [Lookup.path?, fragmented, hfront, hread, if_true]
  rfl

/-- Every spelling of a path has the same canonical form. -/
theorem Spells.canonical_fragmented (h : Spells path cs) (uri : Uri) :
    (uri.fragmented cs).normalized.canonical = Location.withPath uri path := by
  have hne : (uri.fragmented cs).fragment ≠ some "" := by
    obtain ⟨rest, rfl⟩ := h.front
    intro heq
    have htext := congrArg String.toList (Option.some.inj heq)
    rw [String.toList_ofList] at htext
    cases htext
  rw [normalized_of_fragment_ne hne, canonical, h.path?_fragmented]
  rfl

end Uri

/-- Two texts of a reference that differ in the spelling of the path in the fragment only. -/
inductive Respelled : String → String → Prop
  | path {before cs other : List Char} {path : Pointer} : '#' ∉ before → Uri.Spells path cs →
      Uri.Spells path other →
      Respelled (String.ofList (before ++ '#' :: cs)) (String.ofList (before ++ '#' :: other))

/-- In canonical form a reference names the same in every spelling. -/
theorem Respelled.resolve {written other : String} (h : Respelled written other)
    (location : Location) :
    (location.resolve written).map Uri.canonical = (location.resolve other).map Uri.canonical := by
  cases h with
  | path hb hcs hother =>
    obtain ⟨found, hfound⟩ := Uri.join_behind hb location.scope
    rw [Location.resolve, Location.resolve, hfound hcs.toKept, hfound hother.toKept]
    cases found with
    | error fault => rfl
    | ok uri =>
      exact congrArg Except.ok ((hcs.canonical_fragmented uri).trans
        (hother.canonical_fragmented uri).symm)

end SchemaAtlas
