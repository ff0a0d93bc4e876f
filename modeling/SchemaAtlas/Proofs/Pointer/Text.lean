import SchemaAtlas.Proofs.Pointer.Fragment

/-!
# The texts of paths

Every path without a blank segment has one text, and `Pointer.IsText` says which texts these are,
without splitting them: a slash begins each segment, and a tilde is never alone. Reading and
writing are inverse to each other on them, whatever the characters of the segments are
(`Pointer.text_of_read`, `Pointer.read_text_of_not_blank`).
-/

namespace SchemaAtlas
namespace Pointer

/-! ## Escapes -/

/-- A text with all occurrences of a character replaced. -/
def substitute (c : Char) (replacement cs : List Char) : List Char :=
  cs.flatMap fun d => if d = c then replacement else [d]

/-- Escaping replaces the tildes first and then the slashes, so that no escape is escaped. -/
theorem escape_eq_substitute (cs : List Char) :
    escape cs = substitute '/' ['~', '1'] (substitute '~' ['~', '0'] cs) := by
  induction cs with
  | nil => rfl
  | cons c cs ih =>
    by_cases ht : c = '~'
    · subst ht
      simpa [escape, substitute] using ih
    · by_cases hs : c = '/'
      · subst hs
        simpa [escape, substitute] using ih
      · rw [escape_cons ht hs, ih]
        simp [substitute, ht, hs]

/-- What stands for a segment is the escaped segment. -/
theorem escape_of_unescape? {cs segment : List Char} (h : unescape? cs = some segment)
    (hs : '/' ∉ cs) : escape segment = cs := by
  fun_induction unescape? cs generalizing segment with
  | case1 =>
    cases h
    rfl
  | case2 rest ih =>
    obtain ⟨found, hf, rfl⟩ := Option.map_eq_some_iff.mp h
    rw [escape, ih hf fun hm => hs (by simp [hm])]
  | case3 rest ih =>
    obtain ⟨found, hf, rfl⟩ := Option.map_eq_some_iff.mp h
    rw [escape, ih hf fun hm => hs (by simp [hm])]
  | case4 => cases h
  | case5 c rest _ _ ht ih =>
    obtain ⟨found, hf, rfl⟩ := Option.map_eq_some_iff.mp h
    simp only [List.mem_cons, not_or] at hs
    rw [escape_cons ht (Ne.symm hs.1), ih hf hs.2]

/-- A tilde is followed by the digit of an escape. -/
def TildesPaired (cs : List Char) : Prop :=
  ∀ after, '~' :: after <:+ cs → after.head? = some '0' ∨ after.head? = some '1'

theorem tildesPaired_cons {c : Char} {cs : List Char} :
    TildesPaired (c :: cs) ↔
      (c = '~' → cs.head? = some '0' ∨ cs.head? = some '1') ∧ TildesPaired cs := by
  unfold TildesPaired
  simp only [List.suffix_cons_iff]
  grind

theorem isSome_unescape?_iff (cs : List Char) : (unescape? cs).isSome ↔ TildesPaired cs := by
  fun_induction unescape? cs with
  | case1 => simp [TildesPaired]
  | case2 rest ih => simp [tildesPaired_cons, ih]
  | case3 rest ih => simp [tildesPaired_cons, ih]
  | case4 rest h0 h1 =>
    rw [tildesPaired_cons]
    cases rest with
    | nil => simp
    | cons d rest =>
      have hzero : d ≠ '0' := fun h => h0 rest rfl (h ▸ rfl)
      have hone : d ≠ '1' := fun h => h1 rest rfl (h ▸ rfl)
      simp [hzero, hone]
  | case5 c rest _ _ ht ih => simp [tildesPaired_cons, ih, ht]

/-! ## Segments -/

theorem splitSlashes_ne_nil (cs : List Char) : splitSlashes cs ≠ [] := by
  cases cs with
  | nil => simp [splitSlashes]
  | cons c cs =>
    rw [splitSlashes]
    split
    · simp
    · split <;> simp

theorem splitSlashes_slash (cs : List Char) : splitSlashes ('/' :: cs) = [] :: splitSlashes cs := by
  rw [splitSlashes, if_pos rfl]

/-- Another character belongs to the first segment. -/
theorem splitSlashes_cons {c : Char} (hc : c ≠ '/') (cs : List Char) :
    ∃ first parts, splitSlashes cs = first :: parts ∧
      splitSlashes (c :: cs) = (c :: first) :: parts := by
  obtain ⟨first, parts, h⟩ := List.exists_cons_of_ne_nil (splitSlashes_ne_nil cs)
  refine ⟨first, parts, h, ?_⟩
  rw [splitSlashes, if_neg hc, h]

/-- With a slash in front of each, the segments are the text. -/
theorem flatMap_splitSlashes (cs : List Char) :
    ((splitSlashes cs).flatMap fun part => '/' :: part) = '/' :: cs := by
  induction cs with
  | nil => rfl
  | cons c cs ih =>
    by_cases hc : c = '/'
    · rw [hc, splitSlashes_slash, List.flatMap_cons, ih]
      rfl
    · obtain ⟨first, parts, hcs, hsplit⟩ := splitSlashes_cons hc cs
      rw [hcs, List.flatMap_cons, List.cons_append] at ih
      rw [hsplit, List.flatMap_cons, List.cons_append, List.cons_append, (List.cons.inj ih).2]

theorem slash_not_mem_of_mem_splitSlashes {cs part : List Char} (h : part ∈ splitSlashes cs) :
    '/' ∉ part := by
  induction cs generalizing part with
  | nil =>
    rw [List.mem_singleton.mp h]
    exact List.not_mem_nil
  | cons c cs ih =>
    by_cases hc : c = '/'
    · rw [hc, splitSlashes_slash] at h
      rcases List.mem_cons.mp h with rfl | h
      · exact List.not_mem_nil
      · exact ih h
    · obtain ⟨first, parts, hcs, hsplit⟩ := splitSlashes_cons hc cs
      rw [hcs] at ih
      rw [hsplit] at h
      rcases List.mem_cons.mp h with rfl | h
      · simpa [Ne.symm hc] using ih List.mem_cons_self
      · exact ih (List.mem_cons_of_mem _ h)

/-- The first segment begins like the text, unless that begins with a slash. -/
theorem head?_of_splitSlashes {cs first : List Char} {parts : List (List Char)}
    (h : splitSlashes cs = first :: parts) :
    first.head? = if cs.head? = some '/' then none else cs.head? := by
  cases cs with
  | nil =>
    cases h
    rfl
  | cons c cs =>
    by_cases hc : c = '/'
    · rw [hc, splitSlashes_slash] at h
      cases h
      simp [hc]
    · obtain ⟨first', parts', _, hsplit⟩ := splitSlashes_cons hc cs
      rw [hsplit] at h
      cases h
      simp [hc]

/-- Tildes are paired in all segments exactly if they are paired in the text. -/
theorem tildesPaired_splitSlashes (cs : List Char) :
    (∀ part ∈ splitSlashes cs, TildesPaired part) ↔ TildesPaired cs := by
  induction cs with
  | nil => simp [splitSlashes]
  | cons c cs ih =>
    by_cases hc : c = '/'
    · subst hc
      have hnil : TildesPaired [] := fun after h => absurd (List.eq_nil_of_suffix_nil h) (by simp)
      rw [splitSlashes_slash, List.forall_mem_cons, ih, tildesPaired_cons]
      simp [hnil]
    · obtain ⟨first, parts, hcs, hsplit⟩ := splitSlashes_cons hc cs
      have hhead := head?_of_splitSlashes hcs
      rw [hcs, List.forall_mem_cons] at ih
      rw [hsplit, List.forall_mem_cons, tildesPaired_cons, tildesPaired_cons, ← ih, hhead]
      grind

/-- A slash begins a segment. -/
def SlashesBegin (cs : List Char) : Prop :=
  ∀ after, '/' :: after <:+ cs → ∃ c, after.head? = some c ∧ c ≠ '/'

theorem slashesBegin_cons {c : Char} {cs : List Char} :
    SlashesBegin (c :: cs) ↔
      (c = '/' → ∃ d, cs.head? = some d ∧ d ≠ '/') ∧ SlashesBegin cs := by
  constructor
  · intro h
    refine ⟨fun hc => h cs (hc ▸ List.suffix_rfl), fun after ha => h after ?_⟩
    exact ha.trans (List.suffix_cons c cs)
  · rintro ⟨hfirst, h⟩ after ha
    rcases List.suffix_cons_iff.mp ha with heq | ha
    · obtain ⟨rfl, rfl⟩ := List.cons.inj heq
      exact hfirst rfl
    · exact h after ha

theorem first_ne_nil_iff {cs first : List Char} {parts : List (List Char)}
    (h : splitSlashes cs = first :: parts) :
    first ≠ [] ↔ ∃ c, cs.head? = some c ∧ c ≠ '/' := by
  have hhead := head?_of_splitSlashes h
  constructor
  · intro hne
    obtain ⟨c, rest, rfl⟩ := List.exists_cons_of_ne_nil hne
    split at hhead
    · cases hhead
    · rename_i hslash
      exact ⟨c, hhead.symm, fun hc => hslash (hc ▸ hhead.symm)⟩
  · rintro ⟨c, hcs, hc⟩ rfl
    rw [hcs, if_neg fun heq => hc (Option.some.inj heq)] at hhead
    cases hhead

/-- No segment behind a slash is blank exactly if each slash begins one. -/
theorem slashesBegin_splitSlashes (cs : List Char) :
    (∀ part ∈ (splitSlashes cs).tail, part ≠ []) ↔ SlashesBegin cs := by
  induction cs with
  | nil => simp [splitSlashes, SlashesBegin]
  | cons c cs ih =>
    obtain ⟨first, parts, hcs⟩ := List.exists_cons_of_ne_nil (splitSlashes_ne_nil cs)
    rw [hcs, List.tail_cons] at ih
    by_cases hc : c = '/'
    · subst hc
      rw [splitSlashes_slash, List.tail_cons, hcs, List.forall_mem_cons, first_ne_nil_iff hcs, ih,
        slashesBegin_cons]
      simp
    · obtain ⟨first', parts', hcs', hsplit⟩ := splitSlashes_cons hc cs
      obtain ⟨rfl, rfl⟩ := List.cons.inj (hcs.symm.trans hcs')
      rw [hsplit, List.tail_cons, ih, slashesBegin_cons]
      simp [hc]

/-! ## Texts -/

/-- The texts of paths. -/
structure IsText (text : String) : Prop where
  start : text = "" ∨ text.front = '/'
  begins : SlashesBegin text.toList
  paired : TildesPaired text.toList

theorem readSegment_eq_ok_iff (text : String) (raw : List Char) :
    (∃ segment, readSegment text raw = .ok segment) ↔ raw ≠ [] ∧ TildesPaired raw := by
  rw [← isSome_unescape?_iff, readSegment]
  cases raw with
  | nil => simp
  | cons c raw =>
    cases unescape? (c :: raw) with
    | none => simp
    | some segment => simp

theorem mapM_readSegment_eq_ok_iff (text : String) (raws : List (List Char)) :
    (∃ segments, raws.mapM (readSegment text) = .ok segments) ↔
      ∀ raw ∈ raws, raw ≠ [] ∧ TildesPaired raw := by
  induction raws with
  | nil => exact ⟨fun _ => by simp, fun _ => ⟨[], rfl⟩⟩
  | cons raw raws ih =>
    rw [List.forall_mem_cons, ← ih, ← readSegment_eq_ok_iff text raw, List.mapM_cons]
    constructor
    · rintro ⟨segments, h⟩
      cases hr : readSegment text raw with
      | error fault =>
        rw [hr] at h
        cases h
      | ok segment =>
        cases hm : raws.mapM (readSegment text) with
        | error fault =>
          rw [hr, hm] at h
          cases h
        | ok rest => exact ⟨⟨segment, rfl⟩, rest, rfl⟩
    · rintro ⟨⟨segment, hr⟩, segments, hm⟩
      exact ⟨segment :: segments, by rw [hr, hm]; rfl⟩

theorem exists_read_slash_iff {text : String} {rest : List Char}
    (h : text.toList = '/' :: rest) :
    (∃ p, read text = .ok p) ↔ ∀ raw ∈ splitSlashes rest, raw ≠ [] ∧ TildesPaired raw := by
  rw [← mapM_readSegment_eq_ok_iff text, read, h]
  constructor
  · rintro ⟨p, hp⟩
    cases hm : (splitSlashes rest).mapM (readSegment text) with
    | error fault =>
      simp only [hm] at hp
      cases hp
    | ok segments => exact ⟨segments, rfl⟩
  · rintro ⟨segments, hm⟩
    exact ⟨⟨segments⟩, by simp only [hm]; rfl⟩

/-- The texts that are read are those of paths. -/
theorem exists_read_iff (text : String) : (∃ p, read text = .ok p) ↔ IsText text := by
  cases hl : text.toList with
  | nil =>
    obtain rfl : text = "" := by simpa using hl
    exact ⟨fun _ => ⟨Or.inl rfl, by simp [SlashesBegin], by simp [TildesPaired]⟩,
      fun _ => ⟨root, rfl⟩⟩
  | cons c rest =>
    have hfront : text.front = c := by
      rw [String.front_eq, String.front?_eq, hl]
      rfl
    by_cases hc : c = '/'
    · subst hc
      have hbegins := slashesBegin_splitSlashes ('/' :: rest)
      have hpaired := tildesPaired_splitSlashes ('/' :: rest)
      rw [splitSlashes_slash] at hbegins hpaired
      rw [List.tail_cons] at hbegins
      rw [exists_read_slash_iff hl]
      constructor
      · intro h
        refine ⟨Or.inr hfront, ?_, ?_⟩
        · rw [hl]
          exact hbegins.mp fun part hp => (h part hp).1
        · rw [hl]
          refine hpaired.mp (List.forall_mem_cons.mpr ⟨?_, fun part hp => (h part hp).2⟩)
          simp [TildesPaired]
      · rintro ⟨-, hb, hp⟩ part hmem
        rw [hl] at hb hp
        exact ⟨hbegins.mpr hb part hmem, hpaired.mpr hp part (List.mem_cons_of_mem _ hmem)⟩
    · constructor
      · rintro ⟨p, hp⟩
        rcases forall₂_of_read hp with ⟨heq, -⟩ | ⟨rest', heq, -⟩
        · rw [hl] at heq
          cases heq
        · rw [hl] at heq
          exact absurd (List.cons.inj heq).1 hc
      · rintro ⟨hstart, -, -⟩
        rcases hstart with rfl | hstart
        · cases hl
        · exact absurd (hfront.symm.trans hstart) hc

/-- A text that is read is the text of what is read. -/
theorem text_of_read {text : String} {p : Pointer} (h : read text = .ok p) : p.text = text := by
  have hchars : ∀ {raws : List (List Char)} {segments : List String},
      List.Forall₂ (fun raw segment => readSegment text raw = .ok segment) raws segments →
      (∀ raw ∈ raws, '/' ∉ raw) →
      (segments.flatMap fun segment => '/' :: escape segment.toList) =
        raws.flatMap fun raw => '/' :: raw := by
    intro raws segments hread hslash
    induction hread with
    | nil => rfl
    | @cons raw segment raws segments hr _ ih =>
      obtain ⟨hs, hslash⟩ := List.forall_mem_cons.mp hslash
      obtain ⟨found, hf, rfl⟩ := Option.map_eq_some_iff.mp (unescape?_of_readSegment hr).1
      rw [List.flatMap_cons, List.flatMap_cons, ih hslash, String.toList_ofList,
        escape_of_unescape? hf hs]
  rw [Pointer.text, chars]
  rcases forall₂_of_read h with ⟨heq, hsegments⟩ | ⟨rest, heq, hsegments⟩
  · rw [hsegments, List.flatMap_nil, ← heq, String.ofList_toList]
  · rw [hchars hsegments fun _ => slash_not_mem_of_mem_splitSlashes, flatMap_splitSlashes, ← heq,
      String.ofList_toList]

/-- Two paths with one text are one path, whatever characters their segments have. -/
theorem text_injective {p q : Pointer} (h : p.text = q.text) : p = q := by
  have hchars : p.chars = q.chars := String.ofList_injective h
  have hsegments := parts?_chars p
  rw [hchars, parts?_chars q] at hsegments
  obtain ⟨segments⟩ := p
  cases Option.some.inj hsegments
  rfl

/-- The text of a path without blank segments is read as this path. -/
theorem read_text_of_not_blank {p : Pointer} (h : "" ∉ p.segments) : read p.text = .ok p := by
  rw [read_text, if_neg h]

/-- Elements with one segment have one index. -/
theorem toString_inj {m n : Nat} (h : toString m = toString n) : m = n := by
  have hdigits : Nat.toDigits 10 m = Nat.toDigits 10 n := by
    rw [← Nat.toList_repr, ← Nat.toList_repr]
    exact congrArg String.toList h
  rw [← Nat.ofDigitChars_ten_toDigits (n := m), hdigits, Nat.ofDigitChars_ten_toDigits]

/-- Reading a text gives the path it is the text of, for the paths without a blank segment; the
texts read are the `IsText`s. -/
theorem text_read_bijective (text : String) (p q : Pointer) :
    (read text = .ok p ↔ p.text = text ∧ "" ∉ p.segments) ∧
      ((∃ found, read text = .ok found) ↔ IsText text) ∧ (p.text = q.text ↔ p = q) := by
  refine ⟨⟨fun h => ⟨text_of_read h, not_blank_of_read h⟩, ?_⟩, exists_read_iff text,
    text_injective, congrArg _⟩
  rintro ⟨rfl, h⟩
  exact read_text_of_not_blank h

/-- A text with a tilde, a slash and an escape inside its segments. -/
example : read "/a~1b/~01" = .ok ⟨["a/b", "~1"]⟩ := by decide +kernel

end Pointer
end SchemaAtlas
