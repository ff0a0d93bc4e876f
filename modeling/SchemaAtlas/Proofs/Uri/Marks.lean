import SchemaAtlas.Uri.Reader
import SchemaAtlas.Proofs.Pointer.Fragment

/-!
# Marks

A slash, a question mark and a number sign end a part of a URI. No escape has one of them, nor
a bar, and no host does: an address is written in digits, and the labels of a domain name in
letters and digits but for characters that a domain name may hold.
-/

namespace SchemaAtlas

/-- The signs that end an authority, and the bar. -/
def Uri.marks : List Char := ['/', '?', '#', '|']

open Uri (marks)

/-- None of the signs stands in a text. -/
def Lacks (cs signs : List Char) : Prop := ∀ c ∈ cs, c ∉ signs

variable {signs cs : List Char}

instance : Decidable (Lacks cs signs) := List.decidableBAll (· ∉ signs) cs

@[simp] theorem lacks_nil (signs : List Char) : Lacks [] signs := nofun

@[simp] theorem lacks_cons {c : Char} : Lacks (c :: cs) signs ↔ c ∉ signs ∧ Lacks cs signs :=
  List.forall_mem_cons

@[simp] theorem lacks_append {ds : List Char} :
    Lacks (cs ++ ds) signs ↔ Lacks cs signs ∧ Lacks ds signs :=
  List.forall_mem_append

theorem Lacks.mono {others : List Char} (hsigns : signs ⊆ others) (h : Lacks cs others) :
    Lacks cs signs :=
  fun c hc hsign => h c hc (hsigns hsign)

/-- An encoding that escapes signs writes a text without them. -/
theorem Percent.lacks_encodeChars {escaped : Char → Bool} (hsigns : signs ⊆ marks)
    (h : ∀ c ∈ cs, c ∈ signs → escaped c = true) : Lacks (encodeChars escaped cs) signs := by
  intro c hc hsign
  rcases mem_encodeChars hc with ⟨hmem, -, hplain⟩ | rfl | ⟨n, hn, rfl⟩
  · cases hplain.symm.trans (h c hmem hsign)
  · exact absurd (hsigns hsign) (by decide)
  · have hhex : ∀ n : Fin 16, hexDigit n.val ∉ marks := by decide
    exact hhex ⟨n, hn⟩ (hsigns hsign)

theorem lacks_intercalate {separator : List Char} {parts : List (List Char)}
    (hseparator : Lacks separator signs) (h : ∀ part ∈ parts, Lacks part signs) :
    Lacks (separator.intercalate parts) signs := by
  induction parts with
  | nil => exact lacks_nil _
  | cons part rest ih =>
    cases rest with
    | nil => exact List.intercalate_singleton ▸ h part List.mem_cons_self
    | cons next rest =>
      rw [List.intercalate_cons_cons, lacks_append, lacks_append]
      exact ⟨⟨h part List.mem_cons_self, hseparator⟩,
        ih fun part hpart => h part (List.mem_cons_of_mem _ hpart)⟩

/-! ## Addresses -/

namespace Address

theorem digitChar_not_mark : ∀ d : Fin 16, Nat.digitChar d.val ∉ marks := by decide

theorem lacks_toDigits {base : Nat} (hbase : 1 < base) (hle : base ≤ 16) (n : Nat) :
    Lacks (Nat.toDigits base n) marks := by
  induction n using Nat.strongRecOn with
  | _ n ih =>
    rw [Nat.toDigits_eq_if hbase]
    split
    · rename_i hlt
      exact lacks_cons.mpr
        ⟨digitChar_not_mark ⟨n, Nat.lt_of_lt_of_le hlt hle⟩, lacks_nil _⟩
    · have hpos : n % base < 16 := Nat.lt_of_lt_of_le (Nat.mod_lt _ (by omega)) hle
      refine lacks_append.mpr ⟨ih _ (Nat.div_lt_self (by omega) hbase), ?_⟩
      exact lacks_cons.mpr ⟨digitChar_not_mark ⟨_, hpos⟩, lacks_nil _⟩

theorem lacks_toString (n : Nat) : Lacks (toString n).toList marks := by
  rw [Nat.toString_eq_ofList_toDigits, String.toList_ofList]
  exact lacks_toDigits (by decide) (by decide) n

theorem lacks_fourBytesText (n : Nat) : Lacks (fourBytesText n).toList marks := by
  rw [fourBytesText, String.toList_intercalate]
  refine lacks_intercalate (by decide) fun part hpart => ?_
  obtain ⟨text, htext, rfl⟩ := List.mem_map.mp hpart
  obtain ⟨shift, -, rfl⟩ := List.mem_map.mp htext
  exact lacks_toString _

theorem lacks_eightWordsText (words : List Nat) :
    Lacks (eightWordsText words).toList marks := by
  have hjoin : ∀ ws : List Nat,
      Lacks (":".intercalate (ws.map fun n => String.ofList (Nat.toDigits 16 n))).toList
        marks := by
    intro ws
    rw [String.toList_intercalate]
    refine lacks_intercalate (by decide) fun part hpart => ?_
    obtain ⟨text, htext, rfl⟩ := List.mem_map.mp hpart
    obtain ⟨n, -, rfl⟩ := List.mem_map.mp htext
    rw [String.toList_ofList]
    exact lacks_toDigits (by decide) (by decide) n
  unfold eightWordsText
  simp only
  split
  · exact hjoin words
  · rw [String.toList_append, String.toList_append, lacks_append,
      lacks_append]
    exact ⟨⟨hjoin _, by decide⟩, hjoin _⟩

end Address

/-! ## Domain names -/

namespace Punycode

/-- Nothing but digits of base 36. -/
def AreDigits (cs : List Char) : Prop := ∀ c ∈ cs, ∃ d < 36, c = digit d

theorem areDigits_append {cs ds : List Char} (h : AreDigits cs) (h' : AreDigits ds) :
    AreDigits (cs ++ ds) :=
  fun c hc => (List.mem_append.mp hc).elim (h c) (h' c)

theorem areDigits_distance (bias k q : Nat) : AreDigits (distance bias k q) := by
  induction k, q using distance.induct bias with
  | case1 k q t hlt =>
    have ht : t ≤ 26 := Nat.min_le_left ..
    rw [distance]
    simp only [t] at hlt
    rw [if_pos hlt]
    rintro c (_ | ⟨_, ⟨⟩⟩)
    exact ⟨q, by omega, rfl⟩
  | case2 k q t hlt ih =>
    have ht : t ≤ 26 := Nat.min_le_left ..
    have hmod : (q - t) % (36 - t) < 36 - t := Nat.mod_lt _ (by omega)
    rw [distance]
    simp only [t] at hlt
    rw [if_neg hlt]
    rintro c (_ | ⟨_, hc⟩)
    · exact ⟨t + (q - t) % (36 - t), by omega, rfl⟩
    · exact ih c hc

theorem areDigits_pass {basic code : Nat} {p : Progress} {c : Char} (h : AreDigits p.written) :
    AreDigits (pass basic code p c).written := by
  unfold pass
  split
  · exact h
  · split
    · exact areDigits_append h (areDigits_distance _ _ _)
    · exact h

theorem areDigits_insertions {basic next : Nat} {p : Progress} {codes : List Nat}
    (h : AreDigits p.written) : AreDigits (insertions cs basic next p codes) := by
  induction codes generalizing next p with
  | nil => exact h
  | cons code codes ih =>
    have hpassed : ∀ p : Progress, AreDigits p.written →
        AreDigits (cs.foldl (pass basic code) p).written := fun p hp =>
      List.foldlRecOn (motive := fun p => AreDigits p.written) cs (pass basic code) hp
        fun p hp c _ => areDigits_pass hp
    exact ih (hpassed _ h)

theorem mem_encode {c : Char} (h : c ∈ encode cs) :
    c ∈ cs ∨ c = '-' ∨ ∃ d < 36, c = digit d := by
  unfold encode at h
  simp only [List.mem_append] at h
  rcases h with (hbasic | hdash) | hdigits
  · exact Or.inl (List.mem_filter.mp hbasic).1
  · split at hdash
    · cases hdash
    · exact Or.inr (Or.inl (List.mem_singleton.mp hdash))
  · exact Or.inr (Or.inr (areDigits_insertions (by rintro c ⟨⟩) c hdigits))

end Punycode

namespace DomainName

theorem mem_of_mem_splitLabels {label : List Char} (h : label ∈ splitLabels cs) {c : Char}
    (hc : c ∈ label) : c ∈ cs := by
  have hjoined : ['.'].intercalate (cs.splitOn '.') = cs := List.intercalate_splitOn '.'
  rw [← hjoined]
  generalize hlabels : cs.splitOn '.' = labels
  rw [splitLabels, hlabels] at h
  clear hlabels
  induction labels with
  | nil => cases h
  | cons first rest ih =>
    cases rest with
    | nil =>
      rw [List.mem_singleton.mp h] at hc
      exact List.intercalate_singleton ▸ hc
    | cons next rest =>
      rw [List.intercalate_cons_cons]
      rcases List.mem_cons.mp h with rfl | h
      · exact List.mem_append_left _ (List.mem_append_left _ hc)
      · exact List.mem_append_right _ (ih h)

theorem lacks_encodeLabel? {label ascii : List Char} (hlabel : Lacks label marks)
    (h : encodeLabel? label = some ascii) : Lacks ascii marks := by
  have hencode : Lacks (encodedStart ++ Punycode.encode label) marks := by
    refine lacks_append.mpr ⟨by decide, fun c hc hmark => ?_⟩
    rcases Punycode.mem_encode hc with hc | rfl | ⟨d, hd, rfl⟩
    · exact hlabel c hc hmark
    · exact absurd hmark (by decide)
    · have hdigit : ∀ d : Fin 36, Punycode.digit d.val ∉ marks := by decide
      exact hdigit ⟨d, hd⟩ hmark
  unfold encodeLabel? at h
  repeat' split at h
  all_goals cases h
  · exact hencode
  · exact hlabel
  · exact hlabel

theorem mem_of_mapM {α β : Type} {f : α → Option β} {xs : List α} {ys : List β}
    (h : xs.mapM f = some ys) {y : β} (hy : y ∈ ys) : ∃ x ∈ xs, f x = some y := by
  induction xs generalizing ys with
  | nil =>
    cases h
    cases hy
  | cons x xs ih =>
    rw [List.mapM_cons] at h
    obtain ⟨y₀, hy₀, h⟩ := Option.bind_eq_some_iff.mp h
    obtain ⟨ys₀, hys₀, h⟩ := Option.bind_eq_some_iff.mp h
    cases h
    rcases List.mem_cons.mp hy with rfl | hy
    · exact ⟨x, List.mem_cons_self, hy₀⟩
    · obtain ⟨x', hx', hfound⟩ := ih hys₀ hy
      exact ⟨x', List.mem_cons_of_mem _ hx', hfound⟩

theorem lacks_toAscii? {ascii : List Char} (h : toAscii? cs = some ascii) :
    Lacks ascii marks := by
  unfold toAscii? at h
  simp only at h
  split at h
  · cases h
  · rename_i hplain
    obtain ⟨labels, hlabels, rfl⟩ := Option.map_eq_some_iff.mp h
    refine lacks_intercalate (by decide) fun part hpart => ?_
    obtain ⟨label, hlabel, hencoded⟩ := mem_of_mapM hlabels hpart
    have hall : marks.all isForbidden = true := by decide
    refine lacks_encodeLabel? (fun c hc hmark => hplain ?_) hencoded
    exact List.any_eq_true.mpr
      ⟨c, mem_of_mem_splitLabels hlabel hc, List.all_eq_true.mp hall c hmark⟩

end DomainName

/-! ## Hosts -/

namespace Host

variable {host : String}

theorem lacks_readBracketed (h : readBracketed cs = .ok host) :
    Lacks host.toList marks := by
  unfold readBracketed at h
  repeat' split at h
  all_goals cases h
  rw [String.toList_append, String.toList_append, lacks_append,
    lacks_append]
  exact ⟨⟨by decide, Address.lacks_eightWordsText _⟩, by decide⟩

theorem lacks_readDomain (h : readDomain cs = .ok host) : Lacks host.toList marks := by
  unfold readDomain at h
  split at h
  · exact lacks_readBracketed h
  · repeat' split at h
    all_goals cases h
    · exact Address.lacks_fourBytesText _
    · rename_i hdomain _
      rw [String.toList_ofList]
      exact DomainName.lacks_toAscii? hdomain

theorem lacks_readUninterpreted (h : readUninterpreted cs = .ok host) :
    Lacks host.toList marks := by
  unfold readUninterpreted at h
  split at h
  · exact lacks_readBracketed h
  · split at h
    · cases h
    · rename_i hplain
      cases h
      rw [String.toList_ofList]
      refine Percent.lacks_encodeChars (List.Subset.refl _) fun c hc hmark => ?_
      have hall : marks.all isForbidden = true := by decide
      exact absurd (List.any_eq_true.mpr ⟨c, hc, List.all_eq_true.mp hall c hmark⟩) hplain

end Host

end SchemaAtlas
