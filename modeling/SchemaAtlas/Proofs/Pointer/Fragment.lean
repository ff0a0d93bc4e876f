import SchemaAtlas.Lookup
import Mathlib.Data.List.Forall2

/-!
# Paths in fragments

A path written into the fragment of a URI is read back from it. `Uri.place?` reads the
fragment by the rules of JSON pointers alone, so that it also reads segments without
characters; where `Pointer.readFragment` gives a path, both agree.
-/

namespace SchemaAtlas

/-! ## Percent encoding -/

namespace Percent

theorem hexValue?_hexDigit (n : Nat) (h : n < 16) : hexValue? (hexDigit n) = some n := by
  have hall : ∀ n : Fin 16, hexValue? (hexDigit n) = some n.val := by decide
  exact hall ⟨n, h⟩

theorem octets_cons {c : Char} (h : c ≠ '%') (rest : List Char) :
    octets (c :: rest) = String.utf8EncodeChar c ++ octets rest := by
  rw [octets]
  intro h' l rest' heq
  exact absurd heq h

theorem octets_escapeOctet (b : UInt8) (rest : List Char) :
    octets (escapeOctet b ++ rest) = b :: octets rest := by
  have hb : b.toNat < 256 := b.toNat_lt
  have hhigh := hexValue?_hexDigit (b.toNat / 16) (by omega)
  have hlow := hexValue?_hexDigit (b.toNat % 16) (by omega)
  have hvalue : 16 * (b.toNat / 16) + b.toNat % 16 = b.toNat := by omega
  simp only [escapeOctet, List.cons_append, List.nil_append, octets, hhigh, hlow, hvalue,
    UInt8.ofNat_toNat]

theorem octets_flatMap_escapeOctet (bytes : List UInt8) (rest : List Char) :
    octets (bytes.flatMap escapeOctet ++ rest) = bytes ++ octets rest := by
  induction bytes with
  | nil => rfl
  | cons b bytes ih =>
    rw [List.flatMap_cons, List.append_assoc, octets_escapeOctet, ih, List.cons_append]

/-- An encoding that escapes the percent sign is undone by decoding. -/
theorem octets_encodeChars {escaped : Char → Bool} (h : escaped '%' = true) (cs : List Char) :
    octets (encodeChars escaped cs) = cs.flatMap String.utf8EncodeChar := by
  unfold encodeChars
  induction cs with
  | nil => rfl
  | cons c cs ih =>
    rw [List.flatMap_cons, List.flatMap_cons]
    by_cases hplain : (decide (c.toNat < 128) && !escaped c) = true
    · have hne : c ≠ '%' := by
        rintro rfl
        simp [h] at hplain
      rw [encodeChar, if_pos hplain, List.singleton_append, octets_cons hne, ih]
    · rw [encodeChar, if_neg hplain, octets_flatMap_escapeOctet, ih]

theorem escapeOctet_ascii {b : UInt8} {c : Char} (h : c ∈ escapeOctet b) :
    c = '%' ∨ ∃ n < 16, c = hexDigit n := by
  have hb : b.toNat < 256 := b.toNat_lt
  rcases List.mem_cons.mp h with h | h
  · exact Or.inl h
  · rcases List.mem_cons.mp h with h | h
    · exact Or.inr ⟨_, by omega, h⟩
    · exact Or.inr ⟨_, by omega, List.mem_singleton.mp h⟩

/-- What an encoding writes is a plain character or part of an escape. -/
theorem mem_encodeChars {escaped : Char → Bool} {cs : List Char} {c : Char}
    (h : c ∈ encodeChars escaped cs) :
    (c ∈ cs ∧ c.toNat < 128 ∧ escaped c = false) ∨ c = '%' ∨ ∃ n < 16, c = hexDigit n := by
  obtain ⟨d, hmem, hd⟩ := List.mem_flatMap.mp h
  unfold encodeChar at hd
  split at hd
  · rename_i hplain
    rw [List.mem_singleton.mp hd]
    simp only [Bool.and_eq_true, decide_eq_true_eq, Bool.not_eq_true'] at hplain
    exact Or.inl ⟨hmem, hplain⟩
  · obtain ⟨b, _, hb⟩ := List.mem_flatMap.mp hd
    exact Or.inr (escapeOctet_ascii hb)

/-- A character that no escape has stands for itself. -/
theorem eq_of_mem_encodeChar {escaped : Char → Bool} {c d : Char} (hpercent : d ≠ '%')
    (hhex : ∀ n : Fin 16, d ≠ hexDigit n.val) (h : d ∈ encodeChar escaped c) :
    c = d ∧ encodeChar escaped c = [d] := by
  unfold encodeChar at h ⊢
  split at h
  · rename_i hplain
    rw [if_pos hplain, List.mem_singleton.mp h]
    exact ⟨rfl, rfl⟩
  · obtain ⟨b, _, hb⟩ := List.mem_flatMap.mp h
    rcases escapeOctet_ascii hb with heq | ⟨n, hn, heq⟩
    · exact absurd heq hpercent
    · exact absurd heq (hhex ⟨n, hn⟩)

/-- A text that needs no escapes is written as it is. -/
theorem encodeChars_eq_self {escaped : Char → Bool} {cs : List Char}
    (h : ∀ c ∈ cs, c.toNat < 128 ∧ escaped c = false) : encodeChars escaped cs = cs := by
  unfold encodeChars
  induction cs with
  | nil => rfl
  | cons c cs ih =>
    obtain ⟨hlt, hplain⟩ := h c List.mem_cons_self
    rw [List.flatMap_cons, ih fun d hd => h d (List.mem_cons_of_mem _ hd)]
    simp [encodeChar, hlt, hplain]

end Percent

theorem Utf8.decode_encode (cs : List Char) :
    Utf8.decode (cs.flatMap String.utf8EncodeChar) = .ok (String.ofList cs) := by
  have hbytes : (⟨(cs.flatMap String.utf8EncodeChar).toArray⟩ : ByteArray) =
      (String.ofList cs).toByteArray := by
    apply ByteArray.ext
    exact List.data_toByteArray.symm
  have hvalid : String.fromUTF8? (String.ofList cs).toByteArray = some (String.ofList cs) := by
    rw [String.fromUTF8?, dif_pos (String.ofList cs).isValidUTF8]
    rfl
  rw [Utf8.decode, hbytes, hvalid]

/-! ## Segments -/

namespace Pointer

theorem escape_cons {c : Char} (ht : c ≠ '~') (hs : c ≠ '/') (cs : List Char) :
    escape (c :: cs) = c :: escape cs := by
  rw [escape]
  · exact fun h => ht h
  · exact fun h => hs h

theorem unescape?_cons {c : Char} (ht : c ≠ '~') (cs : List Char) :
    unescape? (c :: cs) = (unescape? cs).map (c :: ·) := by
  rw [unescape?]
  · rw [if_neg ht]
  · exact fun _ h _ => ht h
  · exact fun _ h _ => ht h

theorem unescape?_escape (cs : List Char) : unescape? (escape cs) = some cs := by
  induction cs with
  | nil => rfl
  | cons c cs ih =>
    by_cases ht : c = '~'
    · subst ht
      simp [escape, unescape?, ih]
    · by_cases hs : c = '/'
      · subst hs
        simp [escape, unescape?, ih]
      · rw [escape_cons ht hs, unescape?_cons ht, ih, Option.map_some]

/-- An escaped segment has no slashes. -/
theorem slash_not_mem_escape (cs : List Char) : '/' ∉ escape cs := by
  induction cs with
  | nil => simp [escape]
  | cons c cs ih =>
    by_cases ht : c = '~'
    · subst ht
      simp [escape, ih]
    · by_cases hs : c = '/'
      · subst hs
        simp [escape, ih]
      · rw [escape_cons ht hs]
        simp [ih, Ne.symm hs]

theorem splitSlashes_of_not_mem {part : List Char} (h : '/' ∉ part) :
    splitSlashes part = [part] := by
  induction part with
  | nil => rfl
  | cons c part ih =>
    simp only [List.mem_cons, not_or] at h
    rw [splitSlashes, if_neg (Ne.symm h.1), ih h.2]

theorem splitSlashes_append {part : List Char} (h : '/' ∉ part) (rest : List Char) :
    splitSlashes (part ++ '/' :: rest) = part :: splitSlashes rest := by
  induction part with
  | nil => simp [splitSlashes]
  | cons c part ih =>
    simp only [List.mem_cons, not_or] at h
    rw [List.cons_append, splitSlashes, if_neg (Ne.symm h.1), ih h.2]

/-- The text of a pointer without its first slash splits into the escaped segments. -/
theorem splitSlashes_segments (first : String) (rest : List String) :
    splitSlashes (escape first.toList ++
        rest.flatMap fun segment => '/' :: escape segment.toList) =
      (first :: rest).map fun segment => escape segment.toList := by
  induction rest generalizing first with
  | nil =>
    rw [List.flatMap_nil, List.append_nil, splitSlashes_of_not_mem (slash_not_mem_escape _)]
    rfl
  | cons next rest ih =>
    rw [List.flatMap_cons, List.cons_append,
      splitSlashes_append (slash_not_mem_escape _), ih next]
    rfl

/-- The segments that a text in the slash form writes; they may be blank. -/
def parts? : List Char → Option (List String)
  | [] => some []
  | '/' :: rest => (splitSlashes rest).mapM fun raw => (unescape? raw).map String.ofList
  | _ => none

theorem parts?_chars (p : Pointer) : parts? p.chars = some p.segments := by
  obtain ⟨segments⟩ := p
  cases segments with
  | nil => rfl
  | cons first rest =>
    have hread : ∀ list : List String,
        (list.map fun segment => escape segment.toList).mapM
          (fun raw => (unescape? raw).map String.ofList) = some list := by
      intro list
      induction list with
      | nil => rfl
      | cons segment list ih =>
        simp [unescape?_escape, ih]
    change (splitSlashes (escape first.toList ++
      rest.flatMap fun segment => '/' :: escape segment.toList)).mapM _ = _
    rw [splitSlashes_segments, hread]

/-- A segment is read from an escaped one, and neither is blank. -/
theorem unescape?_of_readSegment {text segment : String} {raw : List Char}
    (h : readSegment text raw = .ok segment) :
    (unescape? raw).map String.ofList = some segment ∧ segment ≠ "" := by
  unfold readSegment at h
  split at h
  · cases h
  · rename_i hraw
    split at h
    · rename_i found hf
      cases h
      refine ⟨by rw [hf, Option.map_some], fun hblank => hraw ?_⟩
      have hnil : found = [] := by simpa using hblank
      subst hnil
      unfold unescape? at hf
      split at hf
      · rfl
      · simp at hf
      · simp at hf
      · split at hf
        · cases hf
        · simp at hf
    · cases h

/-- What a text that is read consists of. -/
theorem forall₂_of_read {text : String} {p : Pointer} (h : read text = .ok p) :
    (text.toList = [] ∧ p.segments = []) ∨ ∃ rest, text.toList = '/' :: rest ∧
      List.Forall₂ (fun raw segment => readSegment text raw = .ok segment) (splitSlashes rest)
        p.segments := by
  have hread : ∀ (raws : List (List Char)) (segments : List String),
      raws.mapM (readSegment text) = .ok segments →
      List.Forall₂ (fun raw segment => readSegment text raw = .ok segment) raws segments := by
    intro raws
    induction raws with
    | nil =>
      intro segments h
      cases h
      exact .nil
    | cons raw raws ih =>
      intro segments h
      rw [List.mapM_cons] at h
      cases hr : readSegment text raw with
      | error fault =>
        rw [hr] at h
        cases h
      | ok segment =>
        rw [hr] at h
        cases hrs : raws.mapM (readSegment text) with
        | error fault =>
          rw [hrs] at h
          cases h
        | ok rest =>
          rw [hrs] at h
          cases h
          exact .cons hr (ih rest hrs)
  unfold read at h
  split at h
  · rename_i heq
    cases h
    exact Or.inl ⟨heq, rfl⟩
  · rename_i rest heq
    cases hm : (splitSlashes rest).mapM (readSegment text) with
    | error fault =>
      rw [hm] at h
      cases h
    | ok segments =>
      rw [hm] at h
      cases h
      exact Or.inr ⟨rest, heq, hread _ _ hm⟩
  · cases h

/-- A text that the reader of pointers accepts has the segments that it reads. -/
theorem parts?_of_read {text : String} {p : Pointer} (h : read text = .ok p) :
    parts? text.toList = some p.segments := by
  rcases forall₂_of_read h with ⟨heq, hsegments⟩ | ⟨rest, heq, hsegments⟩
  · rw [heq, hsegments]
    rfl
  · rw [heq]
    change (splitSlashes rest).mapM (fun raw => (unescape? raw).map String.ofList) = some p.segments
    generalize splitSlashes rest = raws at hsegments
    generalize p.segments = segments at hsegments
    induction hsegments with
    | nil => rfl
    | cons hr _ ih =>
      rw [List.mapM_cons, (unescape?_of_readSegment hr).1, ih]
      rfl

/-- No segment that is read is blank. -/
theorem not_blank_of_read {text : String} {p : Pointer} (h : read text = .ok p) :
    "" ∉ p.segments := by
  rcases forall₂_of_read h with ⟨-, hsegments⟩ | ⟨rest, -, hsegments⟩
  · rw [hsegments]
    exact List.not_mem_nil
  · generalize splitSlashes rest = raws at hsegments
    generalize p.segments = segments at hsegments
    induction hsegments with
    | nil => exact List.not_mem_nil
    | cons hr _ ih =>
      intro hm
      rcases List.mem_cons.mp hm with heq | hm
      · exact (unescape?_of_readSegment hr).2 heq.symm
      · exact ih hm

theorem escape_isEmpty (cs : List Char) : (escape cs).isEmpty = cs.isEmpty := by
  unfold escape
  split <;> rfl

/-- A written segment is read back, unless it is blank. -/
theorem readSegment_escape (text segment : String) :
    readSegment text (escape segment.toList) =
      if segment = "" then .error (.blankSegment text) else .ok segment := by
  rw [readSegment, escape_isEmpty, unescape?_escape]
  by_cases h : segment = ""
  · rw [if_pos h, h]
    rfl
  · rw [if_neg h, if_neg (by simpa using h)]
    simp

/-- The slash form of a path is read as the path, unless a segment of it is blank. -/
theorem read_text (p : Pointer) :
    read p.text = if "" ∈ p.segments then .error (.blankSegment p.text) else .ok p := by
  have hread : ∀ (text : String) (list : List String),
      (list.map fun segment => escape segment.toList).mapM (readSegment text) =
        if "" ∈ list then .error (.blankSegment text) else .ok list := by
    intro text list
    induction list with
    | nil => rfl
    | cons segment list ih =>
      rw [List.map_cons, List.mapM_cons, readSegment_escape, ih]
      by_cases hs : segment = ""
      · simp [hs]
        rfl
      · by_cases hl : "" ∈ list
        · simp [hs, hl]
          rfl
        · simp [hs, hl, Ne.symm hs]
          rfl
  obtain ⟨segments⟩ := p
  cases segments with
  | nil => rfl
  | cons first rest =>
    have htext : (text ⟨first :: rest⟩).toList = '/' :: (escape first.toList ++
        rest.flatMap fun segment => '/' :: escape segment.toList) := by
      simp [text, chars]
    rw [read, htext]
    simp only [splitSlashes_segments, hread]
    split <;> rfl

end Pointer

/-! ## The place that a URI names -/

/-- The path that the fragment of a URI writes, empty without a fragment. -/
def Uri.place? (uri : Uri) : Option (List String) :=
  match uri.fragment with
  | none => some []
  | some fragment =>
    (Utf8.decode (Percent.octets fragment.toList)).toOption.bind fun text =>
      Pointer.parts? text.toList

theorem Uri.isFragmentEscaped_of_pointer {c : Char} (h : Pointer.isFragmentEscaped c = false) :
    Uri.isFragmentEscaped c = false := by
  simp only [Pointer.isFragmentEscaped, Bool.or_eq_false_iff, decide_eq_false_iff_not] at h
  obtain ⟨⟨hcontrol, hgrave⟩, hother⟩ := h
  simp only [List.contains_cons, Bool.or_eq_false_iff, beq_eq_false_iff_ne] at hother
  simp [Uri.isFragmentEscaped, hcontrol, hgrave, hother]

/-- What the fragment form writes stands in a fragment as it is. -/
theorem fragmentChars_plain {p : Pointer} {c : Char} (h : c ∈ p.fragmentChars) :
    c.toNat < 128 ∧ Uri.isFragmentEscaped c = false ∧ Uri.isTabOrNewline c = false := by
  have hhex : ∀ n : Fin 16, (Percent.hexDigit n.val).toNat < 128 ∧
      Uri.isFragmentEscaped (Percent.hexDigit n.val) = false ∧
      Uri.isTabOrNewline (Percent.hexDigit n.val) = false := by
    decide
  rcases Percent.mem_encodeChars h with ⟨-, hlt, hplain⟩ | rfl | ⟨n, hn, rfl⟩
  · refine ⟨hlt, Uri.isFragmentEscaped_of_pointer hplain, ?_⟩
    by_cases htab : Uri.isTabOrNewline c = true
    · simp only [Uri.isTabOrNewline, Bool.or_eq_true, decide_eq_true_eq] at htab
      rcases htab with (rfl | rfl) | rfl
      · exact absurd hplain (by decide)
      · exact absurd hplain (by decide)
      · exact absurd hplain (by decide)
    · simpa using htab
  · decide
  · exact hhex ⟨n, hn⟩

/-- Below the root the fragment is the path in its fragment form. -/
theorem Location.fragment_withPath (uri : Uri) {p : Pointer} (h : p.isRoot = false) :
    (withPath uri p).fragment = some (String.ofList p.fragmentChars) := by
  have hkept : p.fragmentChars.filter (! Uri.isTabOrNewline ·) = p.fragmentChars := by
    rw [List.filter_eq_self]
    intro c hc
    simp [(fragmentChars_plain hc).2.2]
  have hself : Percent.encodeChars Uri.isFragmentEscaped p.fragmentChars = p.fragmentChars :=
    Percent.encodeChars_eq_self fun c hc =>
      ⟨(fragmentChars_plain hc).1, (fragmentChars_plain hc).2.1⟩
  simp only [withPath, h, Bool.false_eq_true, if_false, Uri.withFragment, String.toList_ofList,
    hkept, hself]

/-- The URI of a place names this place. -/
theorem Uri.place?_withPath (uri : Uri) (p : Pointer) :
    (Location.withPath uri p).place? = some p.segments := by
  cases hp : p.isRoot with
  | true =>
    have hnil : p.segments = [] := List.isEmpty_iff.mp hp
    rw [hnil, Location.withPath, if_pos hp]
    rfl
  | false =>
    simp only [Uri.place?, Location.fragment_withPath uri hp, String.toList_ofList]
    rw [Pointer.fragmentChars, Percent.octets_encodeChars (by decide), Utf8.decode_encode]
    simp only [Except.toOption, Option.bind_some, String.toList_ofList]
    exact Pointer.parts?_chars p

/-- A path that is a fragment begins with a slash. -/
theorem Location.front_of_withPath {uri : Uri} {p : Pointer} {fragment : String}
    (h : (withPath uri p).fragment = some fragment) : fragment.front = '/' := by
  cases hp : p.isRoot with
  | true =>
    rw [withPath, if_pos hp] at h
    cases h
  | false =>
    rw [fragment_withPath uri hp] at h
    obtain ⟨segments⟩ := p
    cases segments with
    | nil => cases hp
    | cons first rest =>
      have hslash : Percent.encodeChar Pointer.isFragmentEscaped '/' = ['/'] := by decide
      rw [← Option.some.inj h, Pointer.fragmentChars, Pointer.chars, List.flatMap_cons,
        List.cons_append, Percent.encodeChars, List.flatMap_cons, hslash, List.singleton_append,
        String.front_eq, String.front?_eq, String.toList_ofList]
      rfl

theorem Location.normalized_withPath (uri : Uri) (p : Pointer) :
    (withPath uri p).normalized = withPath uri p :=
  Uri.normalized_of_fragment_ne fun h => absurd (front_of_withPath h) (by decide)

theorem Location.withoutFragment_withPath (uri : Uri) (p : Pointer) :
    (withPath uri p).withoutFragment = uri.withoutFragment := by
  unfold withPath
  split
  · exact Uri.withoutFragment_idem uri
  · rfl

theorem Location.withPath_injective {uri : Uri} {p q : Pointer}
    (h : Location.withPath uri p = Location.withPath uri q) : p = q := by
  have hp := Uri.place?_withPath uri p
  rw [h, Uri.place?_withPath uri q] at hp
  obtain ⟨segments⟩ := p
  cases Option.some.inj hp
  rfl

theorem toList_of_front {text : String} {c : Char} (h : text.front = c)
    (hc : c ≠ default) : ∃ rest, text.toList = c :: rest := by
  rw [String.front_eq, String.front?_eq] at h
  cases hl : text.toList with
  | nil =>
    rw [hl] at h
    exact absurd h.symm hc
  | cons first rest =>
    rw [hl] at h
    exact ⟨rest, by rw [← h]; rfl⟩

/-- The URI of a place is looked up by its path, unless a segment of it is blank. -/
theorem Lookup.path?_withPath (uri : Uri) {p : Pointer} (h : p.isRoot = false) :
    path? (Location.withPath uri p) = if "" ∈ p.segments then none else some p := by
  have hfragment := Location.fragment_withPath uri h
  have hfront := Location.front_of_withPath hfragment
  have hread : Pointer.readFragment (String.ofList p.fragmentChars) = Pointer.read p.text := by
    obtain ⟨rest, hrest⟩ := toList_of_front hfront (by decide)
    have hdecoded : Utf8.decode (Percent.octets p.fragmentChars) = .ok p.text := by
      rw [Pointer.fragmentChars, Percent.octets_encodeChars (by decide), Utf8.decode_encode]
      rfl
    rw [String.toList_ofList] at hrest
    rw [hrest] at hdecoded
    simp [Pointer.readFragment, hrest, hdecoded]
  simp only [path?, hfragment, hfront, if_true, hread, Pointer.read_text]
  split <;> rfl

/-- A path that look-ups read from a fragment is the place that the URI names. -/
theorem Lookup.place?_of_path? {uri : Uri} {p : Pointer} (h : Lookup.path? uri = some p) :
    uri.place? = some p.segments := by
  unfold Lookup.path? at h
  cases hf : uri.fragment with
  | none =>
    rw [hf] at h
    cases h
  | some fragment =>
    simp only [hf] at h
    split at h
    · rename_i hfront
      obtain ⟨rest, hl⟩ := toList_of_front hfront (by decide)
      simp only [Uri.place?, hf]
      cases hr : Pointer.readFragment fragment with
      | error fault =>
        rw [hr] at h
        cases h
      | ok read =>
        rw [hr] at h
        cases h
        rw [hl]
        cases hd : Utf8.decode (Percent.octets ('/' :: rest)) with
        | error fault => simp [Pointer.readFragment, hl, hd] at hr
        | ok text =>
          have hread : Pointer.read text = .ok p := by
            simpa [Pointer.readFragment, hl, hd] using hr
          exact Pointer.parts?_of_read hread
    · cases h

end SchemaAtlas
