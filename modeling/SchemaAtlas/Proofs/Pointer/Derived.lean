import SchemaAtlas.Proofs.Pointer.Text
import SchemaAtlas.Proofs.Spelling.Reference

/-!
# The URIs of derived locations

From the root of a document a location is derived by members, elements and identifiers. Its
pointer URI is the document with the path in the fragment, and reading this fragment gives the
path back: percent signs, number signs, tildes and characters of several octets in a segment are
undone by the decoders in the order in which they were written.
-/

namespace SchemaAtlas

/-! ## Fragments -/

namespace Pointer

/-- Percent decoding leads from the fragment form back to the slash form. -/
theorem decode_fragmentChars (p : Pointer) :
    Utf8.decode (Percent.octets p.fragmentChars) = .ok p.text := by
  rw [fragmentChars, Percent.octets_encodeChars (by decide), Utf8.decode_encode]
  rfl

theorem readFragment_fragment (p : Pointer) : readFragment p.fragment = read p.text := by
  simp only [readFragment, fragment, String.toList_ofList, decode_fragmentChars]

/-- The fragment form begins with a slash, so that no number sign of it is dropped. -/
theorem fragmentChars_eq_nil_or (p : Pointer) :
    p.fragmentChars = [] ∨ ∃ rest, p.fragmentChars = '/' :: rest := by
  obtain ⟨segments⟩ := p
  cases segments with
  | nil => exact Or.inl rfl
  | cons first rest =>
    have hslash : Percent.encodeChar isFragmentEscaped '/' = ['/'] := by decide
    rw [fragmentChars, chars, List.flatMap_cons, List.cons_append, Percent.encodeChars,
      List.flatMap_cons, hslash]
    exact Or.inr ⟨_, rfl⟩

theorem readFragment_fragmentChars (p : Pointer) :
    readFragment (String.ofList p.fragmentChars) = read p.text := by
  have hdecoded := decode_fragmentChars p
  rcases fragmentChars_eq_nil_or p with hnil | ⟨rest, hrest⟩
  · rw [hnil] at hdecoded ⊢
    simp only [readFragment, String.toList_ofList, hdecoded]
  · rw [hrest] at hdecoded ⊢
    rw [Uri.readFragment_slash, hdecoded]

theorem read_text_eq_ok_iff (p : Pointer) : read p.text = .ok p ↔ "" ∉ p.segments :=
  ⟨not_blank_of_read, read_text_of_not_blank⟩

end Pointer

/-! ## URIs without fragments -/

namespace Uri

theorem withoutFragment_of_hierarchical {uri : Uri} (hpath : uri.hasOpaquePath = false)
    (h : uri.fragment = none) : uri.withoutFragment = uri := by
  obtain ⟨scheme, authority, path, query, fragment⟩ := uri
  cases h
  cases path with
  | opaqueText text => cases hpath
  | segments list => rfl

theorem hierarchical_of_afterSlashes {scheme : String} {parts : Parts} {cs : List Char}
    {uri : Uri} (h : afterSlashes scheme parts cs = .ok uri) : uri.hasOpaquePath = false := by
  simp only [afterSlashes, bind, Except.bind, pure, Except.pure, throw, throwThe,
    MonadExceptOf.throw] at h
  repeat' split at h
  all_goals first | cases h; rfl | cases h

theorem hierarchical_of_readFile {parts : Parts} {uri : Uri}
    (h : readFile parts none = .ok uri) : uri.hasOpaquePath = false := by
  simp only [readFile, readFile.fromRoot, bind, Except.bind, pure, Except.pure] at h
  repeat' split at h
  all_goals first | cases h; rfl | cases h

/-- A text that is cleaned does not end in a blank. -/
theorem getLast?_clean (cs : List Char) : (clean cs).getLast? ≠ some ' ' := by
  simp only [clean]
  generalize (cs.dropWhile fun c => decide (c.toNat ≤ 32)).reverse = text
  rw [List.filter_reverse, List.getLast?_reverse]
  intro h
  cases hd : text.dropWhile (fun c => decide (c.toNat ≤ 32)) with
  | nil =>
    rw [hd] at h
    cases h
  | cons c rest =>
    have hc : ¬ c.toNat ≤ 32 := by
      have hfirst := List.head?_dropWhile_not (fun c : Char => decide (c.toNat ≤ 32)) text
      rw [hd] at hfirst
      simpa using hfirst
    have hkept : isTabOrNewline c = false := by
      by_contra hne
      simp only [isTabOrNewline, Bool.not_eq_false, Bool.or_eq_true, decide_eq_true_eq] at hne
      rcases hne with (rfl | rfl) | rfl
      · exact hc (by decide)
      · exact hc (by decide)
      · exact hc (by decide)
    rw [hd, List.filter_cons_of_pos (by simp [hkept]), List.head?_cons] at h
    rw [Option.some.inj h] at hc
    exact hc (by decide)

theorem suffix_of_splitScheme? {cs rest : List Char} {scheme : String}
    (h : splitScheme? cs = some (scheme, rest)) : rest <:+ cs := by
  unfold splitScheme? at h
  simp only at h
  split at h
  · rename_i hdrop
    split at h
    · cases h
      exact (List.suffix_cons ':' rest).trans (hdrop ▸ List.drop_suffix _ _)
    · cases h
  · cases h

/-- A text without a query and a fragment is all body. -/
theorem Parts.body_of {cs : List Char} (hquery : (Parts.of cs).query = none)
    (hfragment : (Parts.of cs).fragment = none) : (Parts.of cs).body = cs := by
  have hsplit := List.takeWhile_append_dropWhile (p := fun c => decide (c ≠ '?') && decide (c ≠ '#'))
    (l := cs)
  have hstop : (cs.dropWhile fun c => decide (c ≠ '?') && decide (c ≠ '#')) = [] := by
    simp only [Parts.of, drop_takeWhile] at hquery hfragment
    have hfirst := List.head?_dropWhile_not (fun c => decide (c ≠ '?') && decide (c ≠ '#')) cs
    generalize cs.dropWhile _ = rest at hquery hfragment hfirst
    cases rest with
    | nil => rfl
    | cons c rest =>
      have hc : c = '?' ∨ c = '#' := by
        by_contra hne
        simp only [not_or] at hne
        simp [hne] at hfirst
      rcases hc with rfl | rfl
      · cases hquery
      · cases hfragment
  rw [hstop, List.append_nil] at hsplit
  exact hsplit

/-- What stands for one character ends in a blank only if this is the blank. -/
theorem getLast?_encodeChar {escaped : Char → Bool} {c : Char}
    (h : (Percent.encodeChar escaped c).getLast? = some ' ') : c = ' ' :=
  (Percent.eq_of_mem_encodeChar (by decide) (by decide) (List.mem_of_getLast? h)).1

theorem encodeChar_ne_nil (escaped : Char → Bool) (c : Char) :
    Percent.encodeChar escaped c ≠ [] := by
  unfold Percent.encodeChar
  split
  · exact List.cons_ne_nil _ _
  · have hlength := (String.length_utf8EncodeChar c).trans_gt c.utf8Size_pos
    obtain ⟨b, bytes, hb⟩ := List.exists_cons_of_length_pos hlength
    rw [hb, List.flatMap_cons]
    exact List.cons_ne_nil _ _

theorem getLast?_encodeChars {escaped : Char → Bool} {cs : List Char}
    (h : (Percent.encodeChars escaped cs).getLast? = some ' ') : cs.getLast? = some ' ' := by
  rcases List.eq_nil_or_concat cs with rfl | ⟨init, last, rfl⟩
  · cases h
  · rw [List.concat_eq_append, Percent.encodeChars, List.flatMap_append, List.flatMap_singleton,
      List.getLast?_append_of_ne_nil _ (encodeChar_ne_nil escaped last)] at h
    rw [List.concat_eq_append, getLast?_encodeChar h, List.getLast?_append, List.getLast?_singleton]
    rfl

/-- A character that no escape has is the first that is written only if it stands first. -/
theorem head?_encodeChars {escaped : Char → Bool} {cs : List Char} {d : Char}
    (hpercent : d ≠ '%') (hhex : ∀ n : Fin 16, d ≠ Percent.hexDigit n.val)
    (h : (Percent.encodeChars escaped cs).head? = some d) : ∃ rest, cs = d :: rest ∧
      Percent.encodeChars escaped cs = d :: Percent.encodeChars escaped rest := by
  cases cs with
  | nil => cases h
  | cons c rest =>
    rw [Percent.encodeChars, List.flatMap_cons,
      List.head?_append_of_ne_nil _ (encodeChar_ne_nil escaped c)] at h
    obtain ⟨rfl, hc⟩ := Percent.eq_of_mem_encodeChar hpercent hhex (List.mem_of_head? h)
    refine ⟨rest, rfl, ?_⟩
    rw [Percent.encodeChars, List.flatMap_cons, hc]
    rfl

theorem dropTrailingBlanks_prefix (text : String) :
    (dropTrailingBlanks text).toList <+: text.toList := by
  rw [dropTrailingBlanks, String.toList_ofList, ← List.reverse_suffix, List.reverse_reverse]
  exact List.dropWhile_suffix _

theorem dropTrailingBlanks_eq_self {text : String} (h : text.toList.getLast? ≠ some ' ') :
    dropTrailingBlanks text = text := by
  have hstop : text.toList.reverse.dropWhile (fun c => decide (c = ' ')) = text.toList.reverse := by
    rw [← List.head?_reverse] at h
    generalize text.toList.reverse = cs at h
    cases cs with
    | nil => rfl
    | cons c cs =>
      rw [List.dropWhile_cons, if_neg]
      simpa using h
  rw [dropTrailingBlanks, hstop, List.reverse_reverse, String.ofList_toList]

theorem withoutFragment_of_opaque {uri : Uri} {body : List Char}
    (hpath : uri.path = .opaqueText (String.ofList (Percent.encodeChars Percent.isControl body)))
    (h : uri.fragment = none) (hbody : uri.query = none → body.getLast? ≠ some ' ') :
    uri.withoutFragment = uri := by
  obtain ⟨scheme, authority, path, query, fragment⟩ := uri
  cases h
  cases hpath
  cases query with
  | some query => rfl
  | none =>
    have hlast : (String.ofList (Percent.encodeChars Percent.isControl body)).toList.getLast? ≠
        some ' ' := by
      rw [String.toList_ofList]
      exact fun hlast => hbody rfl (getLast?_encodeChars hlast)
    simp only [withoutFragment, dropTrailingBlanks_eq_self hlast]

theorem withoutFragment_of_readAbsolute {scheme : String} {parts : Parts} {uri : Uri}
    (hread : readAbsolute scheme parts none = .ok uri) (h : uri.fragment = none)
    (hbody : parts.query = none → parts.fragment = none → parts.body.getLast? ≠ some ' ') :
    uri.withoutFragment = uri := by
  simp only [readAbsolute] at hread
  split at hread
  · exact withoutFragment_of_hierarchical (hierarchical_of_readFile hread) h
  · exact withoutFragment_of_hierarchical (hierarchical_of_afterSlashes hread) h
  · split at hread
    · exact withoutFragment_of_hierarchical (hierarchical_of_afterSlashes hread) h
    · cases hread
      exact withoutFragment_of_hierarchical rfl h
    · cases hread
      refine withoutFragment_of_opaque rfl h fun hquery => hbody ?_ ?_
      · exact Option.map_eq_none_iff.mp hquery
      · exact Option.map_eq_none_iff.mp h

/-- What is read from a text without a fragment is the same without its fragment. -/
theorem withoutFragment_of_read {text : String} {uri : Uri} (hread : read text = .ok uri)
    (h : uri.fragment = none) : uri.withoutFragment = uri := by
  simp only [read, readWith] at hread
  split at hread
  · rename_i scheme rest hscheme
    refine withoutFragment_of_readAbsolute hread h fun hquery hfragment hlast => ?_
    rw [Parts.body_of hquery hfragment] at hlast
    obtain ⟨front, hfront⟩ := suffix_of_splitScheme? hscheme
    have hclean : ' ' ∈ (front ++ rest).getLast? := List.mem_getLast?_append_of_mem_getLast? hlast
    rw [hfront] at hclean
    exact getLast?_clean text.toList hclean
  · cases hread

end Uri

/-! ## Derived locations -/

namespace Location

/-- A way from a location to another one of the same document. -/
inductive Move where
  | child (segment : String)
  | element (index : Nat)
  | identifier (id : String)

/-- The segments that a move walks. -/
def Move.segments : Move → List String
  | .child segment => [segment]
  | .element index => [toString index]
  | .identifier _ => []

def Move.apply (move : Move) (l : Location) : Except UriFault Location :=
  match move with
  | .child segment => .ok (l.child segment)
  | .element index => .ok (l.childIndex index)
  | .identifier id => l.withId id

/-- The location that moves lead to, unless an identifier among them is no URI. -/
def derive (l : Location) : List Move → Except UriFault Location
  | [] => .ok l
  | move :: moves => (move.apply l).bind fun next => next.derive moves

/-- Nothing but members and elements has been walked since the root of the document. -/
def IsUnscoped (l : Location) : Prop := l.scope = l.document ∧ l.scopePath = l.path

variable {l l' : Location} {move : Move} {moves : List Move}

theorem derive_cons (h : l.derive (move :: moves) = .ok l') :
    ∃ next, move.apply l = .ok next ∧ next.derive moves = .ok l' := by
  cases hn : move.apply l with
  | error fault =>
    rw [derive, hn] at h
    cases h
  | ok next =>
    rw [derive, hn] at h
    exact ⟨next, rfl, h⟩

/-- A move extends the path by its segments and stays in the document. -/
theorem Move.apply_path (h : move.apply l = .ok l') :
    l'.document = l.document ∧ l'.path.segments = l.path.segments ++ move.segments := by
  cases move with
  | child segment =>
    cases h
    exact ⟨rfl, rfl⟩
  | element index =>
    cases h
    exact ⟨rfl, rfl⟩
  | identifier id =>
    obtain ⟨hdocument, hpath, -⟩ := withId_path h
    rw [hpath, Move.segments, List.append_nil]
    exact ⟨hdocument, rfl⟩

/-- Moves extend the path by all their segments and stay in the document. -/
theorem derive_path (h : l.derive moves = .ok l') :
    l'.document = l.document ∧
      l'.path.segments = l.path.segments ++ moves.flatMap Move.segments := by
  induction moves generalizing l with
  | nil =>
    cases h
    exact ⟨rfl, (List.append_nil _).symm⟩
  | cons move moves ih =>
    obtain ⟨next, hmove, hrest⟩ := derive_cons h
    obtain ⟨hdocument, hpath⟩ := Move.apply_path hmove
    obtain ⟨hdocument', hpath'⟩ := ih hrest
    refine ⟨hdocument'.trans hdocument, ?_⟩
    rw [hpath', hpath, List.append_assoc, List.flatMap_cons]

/-- Only an identifier starts a scope. -/
theorem Move.apply_unscoped (h : move.apply l = .ok l') (hid : ∀ id, move ≠ .identifier id)
    (hl : l.IsUnscoped) : l'.IsUnscoped := by
  cases move with
  | child segment =>
    cases h
    exact ⟨hl.1, congrArg (·.child segment) hl.2⟩
  | element index =>
    cases h
    exact ⟨hl.1, congrArg (·.childIndex index) hl.2⟩
  | identifier id => exact absurd rfl (hid id)

theorem derive_unscoped (h : l.derive moves = .ok l')
    (hid : ∀ id, Move.identifier id ∉ moves) (hl : l.IsUnscoped) : l'.IsUnscoped := by
  induction moves generalizing l with
  | nil =>
    cases h
    exact hl
  | cons move moves ih =>
    obtain ⟨next, hmove, hrest⟩ := derive_cons h
    have hne : ∀ id, move ≠ .identifier id := fun id heq => hid id (heq ▸ List.mem_cons_self)
    exact ih hrest (fun id hmem => hid id (List.mem_cons_of_mem _ hmem))
      (Move.apply_unscoped hmove hne hl)

/-- Without a scope of its own a location is known by its place in the document. -/
theorem IsUnscoped.uri_eq (h : l.IsUnscoped) (hnone : l.document.fragment = none) :
    l.uri = l.pointerUri := by
  rw [uri, h.1, hnone, h.2, pointerUri]

theorem fragment_withPath_eq_none_iff (uri : Uri) (p : Pointer) :
    (withPath uri p).fragment = none ↔ p = .root := by
  constructor
  · intro h
    have hroot : p.isRoot = true := by
      by_contra hp
      rw [fragment_withPath uri (by simpa using hp)] at h
      cases h
    obtain ⟨segments⟩ := p
    exact congrArg Pointer.mk (List.isEmpty_iff.mp hroot)
  · rintro rfl
    rfl

/-- The fragment of a place is read as its path, unless a segment is blank. -/
theorem readFragment_withPath {uri : Uri} {p : Pointer} {fragment : String}
    (h : (withPath uri p).fragment = some fragment) :
    Pointer.readFragment fragment = .ok p ↔ "" ∉ p.segments := by
  have hroot : p.isRoot = false := by
    by_contra hp
    rw [withPath, if_pos (by simpa using hp)] at h
    cases h
  rw [fragment_withPath uri hroot] at h
  rw [← Option.some.inj h, Pointer.readFragment_fragmentChars, Pointer.read_text_eq_ok_iff]

/-! ## Texts of URIs -/

theorem length_withoutFragment_le (uri : Uri) :
    uri.withoutFragment.text.length ≤ uri.textBeforeFragment.length := by
  obtain ⟨scheme, authority, path, query, fragment⟩ := uri
  cases path with
  | segments list => exact le_rfl
  | opaqueText text =>
    cases query with
    | some query => exact le_rfl
    | none =>
      have hshort : (Uri.dropTrailingBlanks text).length ≤ text.length := by
        have hle := (Uri.dropTrailingBlanks_prefix text).length_le
        rw [String.length_toList, String.length_toList] at hle
        exact hle
      cases authority <;>
        simp only [Uri.withoutFragment, Uri.text, Uri.textBeforeFragment, UriPath.text,
          UriPath.looksLikeAuthority, String.length_append, Bool.false_eq_true, if_false] <;>
        omega

/-- Below the root the text of a place is the text of the document, a number sign and the path. -/
theorem text_withPath (uri : Uri) {p : Pointer} (h : p.isRoot = false) :
    (withPath uri p).text = uri.textBeforeFragment ++ "#" ++ String.ofList p.fragmentChars := by
  have hfragment := fragment_withPath uri h
  rw [Uri.text, hfragment]
  simp only [withPath, h, Bool.false_eq_true, if_false]
  rfl

theorem text_withPath_root_ne (uri : Uri) {p : Pointer} (h : p.isRoot = false) :
    (withPath uri p).text ≠ uri.withoutFragment.text := by
  intro heq
  have hle := length_withoutFragment_le uri
  rw [← heq, text_withPath uri h] at hle
  simp only [String.length_append] at hle
  have hsign : "#".length = 1 := rfl
  omega

/-- Two places of a document have different texts. -/
theorem text_withPath_injective {uri : Uri} {p q : Pointer}
    (h : (withPath uri p).text = (withPath uri q).text) : p = q := by
  cases hp : p.isRoot with
  | true =>
    cases hq : q.isRoot with
    | true =>
      have hsame : withPath uri p = withPath uri q := by
        rw [withPath, withPath, if_pos hp, if_pos hq]
      exact withPath_injective hsame
    | false =>
      rw [withPath, if_pos hp] at h
      exact absurd h.symm (text_withPath_root_ne uri hq)
  | false =>
    cases hq : q.isRoot with
    | true =>
      rw [withPath.eq_def uri q, if_pos hq] at h
      exact absurd h (text_withPath_root_ne uri hp)
    | false =>
      rw [text_withPath uri hp, text_withPath uri hq] at h
      have hsame : withPath uri p = withPath uri q := by
        rw [withPath, withPath, hp, hq, (String.append_right_inj _).mp h]
      exact withPath_injective hsame

/-- Reading the fragment form of a path gives the path back. The pointer URI of a location derived
from the root of a document is the document with a fragment that reads as the path walked, and
with no fragment at the root, so that different places of the document have different URIs. -/
theorem pointerUri_derived {uri : Uri} {moves : List Move} {l : Location}
    (hnone : uri.fragment = none) (h : (ofDocument uri).derive moves = .ok l) :
    (∀ p : Pointer, Pointer.readFragment p.fragment = .ok p ↔ "" ∉ p.segments) ∧
      l.path.segments = moves.flatMap Move.segments ∧
      (l.pointerUri.fragment = none ↔ l.path = .root) ∧
      (∀ fragment, l.pointerUri.fragment = some fragment →
        (Pointer.readFragment fragment = .ok l.path ↔ "" ∉ l.path.segments)) ∧
      l.document = uri ∧ l.pointerUri.withoutFragment = uri.withoutFragment ∧
      (∀ text, Uri.read text = .ok uri → l.pointerUri.withoutFragment = uri) ∧
      (∀ moves' l', (ofDocument uri).derive moves' = .ok l' →
        l'.pointerUri.text = l.pointerUri.text → l'.path = l.path) ∧
      ((∀ id, Move.identifier id ∉ moves) → l.uri = l.pointerUri) := by
  have hnormal : uri.normalized = uri := Uri.normalized_of_fragment_ne (by simp [hnone])
  have hstart : (ofDocument uri).document = uri := hnormal
  obtain ⟨hdocument, hpath⟩ := derive_path h
  rw [hstart] at hdocument
  have hbase : l.pointerUri.withoutFragment = uri.withoutFragment := by
    rw [pointerUri, withoutFragment_withPath, hdocument]
  refine ⟨fun p => ?_, hpath, fragment_withPath_eq_none_iff _ _, fun _ => readFragment_withPath,
    hdocument, hbase, fun text hread => ?_, fun moves' l' h' heq => ?_, fun hid => ?_⟩
  · rw [Pointer.readFragment_fragment, Pointer.read_text_eq_ok_iff]
  · rw [hbase, Uri.withoutFragment_of_read hread hnone]
  · rw [pointerUri, pointerUri, hdocument, (derive_path h').1, hstart] at heq
    exact text_withPath_injective heq
  · exact (derive_unscoped h hid ⟨rfl, rfl⟩).uri_eq (hdocument ▸ hnone)

/-- A test that some value passes is passed by the value there is. -/
theorem exists_ok_of_any {ε α : Type} {x : Except ε α} {test : α → Bool}
    (h : x.toOption.any test = true) : ∃ a, x = .ok a ∧ test a = true := by
  cases x with
  | error fault => cases h
  | ok a => exact ⟨a, rfl, h⟩

/-- A place below an anchor, with a slash, a percent sign and a letter of two octets on the way. -/
theorem pointerUri_below_anchor : ∃ uri l, Uri.read "file:///s/r.json" = .ok uri ∧
    uri.fragment = none ∧
    (ofDocument uri).derive [.child "a/b", .identifier "#item", .child "50% é", .element 0] =
      .ok l ∧
    l.path.segments = ["a/b", "50% é", "0"] ∧
    l.pointerUri.fragment = some "/a~1b/50%25%20%C3%A9/0" ∧
    Pointer.readFragment "/a~1b/50%25%20%C3%A9/0" = .ok l.path ∧
    l.pointerUri.withoutFragment = uri := by
  have hrun : (Uri.read "file:///s/r.json").toOption.any (fun uri =>
      decide (uri.fragment = none) && ((ofDocument uri).derive
        [.child "a/b", .identifier "#item", .child "50% é", .element 0]).toOption.any fun l =>
          decide (l.pointerUri.fragment = some "/a~1b/50%25%20%C3%A9/0")) = true := by
    decide +kernel
  obtain ⟨uri, hread, htest⟩ := exists_ok_of_any hrun
  obtain ⟨hnone, htest⟩ := Bool.and_eq_true_iff.mp htest
  obtain ⟨l, hl, hfragment⟩ := exists_ok_of_any htest
  obtain ⟨-, hpath, -, hparses, -, -, hbase, -, -⟩ :=
    pointerUri_derived (of_decide_eq_true hnone) hl
  have hsegments : l.path.segments = ["a/b", "50% é", "0"] := hpath
  have hblank : "" ∉ l.path.segments := by
    rw [hsegments]
    decide
  exact ⟨uri, l, hread, of_decide_eq_true hnone, hl, hsegments, of_decide_eq_true hfragment,
    (hparses _ (of_decide_eq_true hfragment)).mpr hblank, hbase _ hread⟩

end Location

end SchemaAtlas
