import SchemaAtlas.Checksum
import SchemaAtlas.Proofs.Uri.WellFormed

/-!
# The URIs there are

Reading a text gives a well-formed URI, alone or under a well-formed base, and so do taking the
fragment away, putting another one in its place, and naming a file or a content.
-/

namespace SchemaAtlas.Uri

variable {cls : SchemeClass} {parts : Parts} {uri base : Uri} {cs : List Char}

/-! ## Texts with an authority -/

/-- A URI with an authority. -/
theorem WellFormed.hierarchical {scheme authority : String} {path : List String}
    {query fragment : Option String} (hscheme : Lacks scheme.toList [':', '|'])
    (hauthority : Lacks authority.toList marks)
    (hpath : ∀ segment ∈ path, Lacks segment.toList segmentMarks)
    (hquery : ∀ text ∈ query, '#' ∉ text.toList) :
    WellFormed ⟨scheme, some authority, .segments path, query, fragment⟩ where
  scheme := hscheme
  authority := by
    rintro _ ⟨⟩
    exact hauthority
  path := ⟨hpath, nofun⟩
  query := hquery

theorem wellFormed_of_afterSlashes {scheme : String} (hscheme : Lacks scheme.toList [':', '|'])
    (h : afterSlashes scheme parts cs = .ok uri) : uri.WellFormed := by
  have hbuilt : ∀ {host port : String} {rest : List Char}, Lacks host.toList marks →
      Lacks port.toList marks → WellFormed
        ⟨scheme, some ((splitUser (.of scheme) cs).1 ++ host ++ port),
          .segments (pathAfterAuthority (.of scheme) rest), parts.queryText (.of scheme),
          parts.fragmentText⟩ := by
    intro host port rest hhost hport
    refine .hierarchical hscheme ?_ lacks_pathAfterAuthority (query_plain _ _)
    simp only [String.toList_append, lacks_append]
    exact ⟨⟨lacks_splitUser _ _, hhost⟩, hport⟩
  have hport : ∀ port : Nat, Lacks s!":{port}".toList marks := by
    intro port
    simp only [String.toList_append, lacks_append]
    exact ⟨by decide, Address.lacks_toString port⟩
  simp only [afterSlashes, bind, Except.bind, pure, Except.pure, throw, throwThe,
    MonadExceptOf.throw] at h
  repeat' first | cases h | split at h
  -- The host is one of the Internet or not, and what follows it is read as a port or not.
  all_goals
    refine hbuilt ?_ ?_
    · first
      | exact Host.lacks_readDomain ‹_›
      | exact Host.lacks_readUninterpreted ‹_›
    · first
      | exact lacks_nil _
      | split
        · exact hport _
        · exact lacks_nil _

/-! ## Files -/

theorem of_afterFileSlashes {host : String} {path : List String}
    (h : afterFileSlashes cs = .ok (host, path)) :
    Lacks host.toList marks ∧ ∀ segment ∈ path, Lacks segment.toList segmentMarks := by
  simp only [afterFileSlashes, bind, Except.bind, pure, Except.pure] at h
  repeat' split at h
  all_goals cases h
  · exact ⟨lacks_nil _, lacks_pathFrom nofun⟩
  · exact ⟨lacks_nil _, lacks_pathAfterAuthority⟩
  · exact ⟨lacks_nil _, lacks_pathAfterAuthority⟩
  · exact ⟨Host.lacks_readDomain ‹_›, lacks_pathAfterAuthority⟩

theorem WellFormed.lacks_authority (h : base.WellFormed) :
    Lacks (base.authority.getD "").toList marks := by
  cases hauthority : base.authority with
  | none => exact lacks_nil _
  | some authority => exact h.authority authority hauthority

/-- Another query and another fragment. -/
theorem WellFormed.withTail (h : base.WellFormed) {query fragment : Option String}
    (hquery : ∀ text ∈ query, '#' ∉ text.toList) :
    WellFormed { base with query, fragment } :=
  ⟨h.scheme, h.authority, h.path, hquery⟩

theorem WellFormed.ownQuery (h : base.WellFormed) (parts : Parts) (cls : SchemeClass) :
    ∀ text ∈ if parts.query.isSome then parts.queryText cls else base.query,
      '#' ∉ text.toList := by
  split
  · exact query_plain parts cls
  · exact h.query

section Files

variable {base? : Option Uri} (hbase : ∀ base ∈ base?, base.WellFormed)
include hbase

theorem wellFormed_fromRoot {build : String → List String → Uri}
    (hbuild : ∀ {authority path}, Lacks authority.toList marks →
      (∀ segment ∈ path, Lacks segment.toList segmentMarks) → (build authority path).WellFormed)
    (rest : List Char) : (readFile.fromRoot base? build rest).WellFormed := by
  unfold readFile.fromRoot
  split
  · rename_i base
    have hwell : base.WellFormed := hbase base rfl
    split
    · exact hbuild (lacks_nil _) (lacks_pathFrom nofun)
    · split
      · rename_i first _ hlist
        split
        · refine hbuild (lacks_nil _) (lacks_pathFrom fun segment hmem => ?_)
          rw [List.mem_singleton.mp hmem]
          refine (hwell.segment first ?_).1
          rw [hlist]
          exact List.mem_cons_self
        · exact hbuild hwell.lacks_authority (lacks_pathFrom nofun)
      · exact hbuild hwell.lacks_authority (lacks_pathFrom nofun)
  · exact hbuild (lacks_nil _) (lacks_pathFrom nofun)

theorem wellFormed_of_readFile (h : readFile parts base? = .ok uri) : uri.WellFormed := by
  have hbuilt : ∀ {authority path}, Lacks authority.toList marks →
      (∀ segment ∈ path, Lacks segment.toList segmentMarks) → WellFormed
        ⟨"file", some authority, .segments path, parts.queryText .file, parts.fragmentText⟩ :=
    fun hauthority hpath => .hierarchical (by decide) hauthority hpath (query_plain _ _)
  unfold readFile at h
  simp only [bind, Except.bind, pure, Except.pure] at h
  split at h
  · split at h
    · cases h
      exact hbuilt (lacks_nil _) (by decide)
    · rename_i base
      have hwell := hbase base rfl
      cases h
      exact hwell.withTail (hwell.ownQuery parts .file)
  · split at h
    · split at h
      · split at h
        · split at h
          · cases h
          · rename_i hslashes
            cases h
            obtain ⟨hhost, hpath⟩ := of_afterFileSlashes hslashes
            exact hbuilt hhost hpath
        · cases h
          exact wellFormed_fromRoot hbase hbuilt _
      · cases h
        exact wellFormed_fromRoot hbase hbuilt _
    · split at h
      · cases h
        exact hbuilt (lacks_nil _) (lacks_pathFrom nofun)
      · rename_i base
        have hwell := hbase base rfl
        split at h
        · cases h
          exact hbuilt (lacks_nil _) (lacks_pathFrom nofun)
        · cases h
          exact hbuilt hwell.lacks_authority (lacks_pathFrom fun segment hmem =>
            (hwell.segment segment (mem_shorten hmem)).1)

end Files

/-! ## Texts with and without a scheme -/

theorem wellFormed_of_readRelative (hbase : base.WellFormed)
    (h : readRelative base parts = .ok uri) : uri.WellFormed := by
  have hpath : ∀ {start : List String} {rest : List Char}, start ⊆ base.path.list →
      WellFormed { base with
        path := .segments (pathFrom (.of base.scheme) start rest)
        query := parts.queryText (.of base.scheme), fragment := parts.fragmentText } := by
    intro start rest hstart
    exact ⟨hbase.scheme, hbase.authority,
      wellFormed_pathFrom fun segment hmem => hbase.segment segment (hstart hmem),
      query_plain _ _⟩
  unfold readRelative at h
  simp only at h
  split at h
  · cases h
    exact hbase.withTail (hbase.ownQuery parts _)
  · split at h
    · split at h
      · split at h
        · exact wellFormed_of_afterSlashes hbase.scheme h
        · exact wellFormed_of_afterSlashes hbase.scheme h
      · cases h
        exact hpath (List.nil_subset _)
    · cases h
      exact hpath (List.dropLast_sublist _).subset

theorem wellFormed_of_readAbsolute {scheme : String} {cs : List Char} {base? : Option Uri}
    (hscheme : Lacks scheme.toList [':', '|']) (hbase : ∀ base ∈ base?, base.WellFormed)
    (h : readAbsolute scheme (.of cs) base? = .ok uri) : uri.WellFormed := by
  unfold readAbsolute at h
  simp only at h
  split at h
  · refine wellFormed_of_readFile (fun base hmem => ?_) h
    exact hbase base (Option.filter_eq_some_iff.mp hmem).1
  · split at h
    · rename_i base
      split at h
      · exact wellFormed_of_readRelative (hbase base rfl) h
      · exact wellFormed_of_afterSlashes hscheme h
    · exact wellFormed_of_afterSlashes hscheme h
  · split at h
    · exact wellFormed_of_afterSlashes hscheme h
    · cases h
      exact ⟨hscheme, nofun, wellFormed_pathFrom nofun, query_plain _ _⟩
    · rename_i hslash
      cases h
      refine ⟨hscheme, nofun, ⟨rfl, ?_, ?_⟩, query_plain _ _⟩
      · rw [String.toList_ofList]
        exact Percent.lacks_encodeChars (by decide) fun c hc hsign =>
          absurd hsign (body_plain cs c hc)
      · rw [String.toList_ofList]
        intro hhead
        obtain ⟨rest, hbody, -⟩ := head?_encodeChars (by decide) (by decide) hhead
        exact hslash rest hbody

theorem wellFormed_of_readWith {base? : Option Uri} {text : String}
    (hbase : ∀ base ∈ base?, base.WellFormed) (h : readWith base? text = .ok uri) :
    uri.WellFormed := by
  unfold readWith at h
  simp only at h
  split at h
  · rename_i hscheme
    exact wellFormed_of_readAbsolute (scheme_plain hscheme) hbase h
  · split at h
    · cases h
    · rename_i base
      have hwell := hbase base rfl
      split at h
      · cases h
        exact hwell.withTail hwell.query
      · split at h
        · cases h
        · split at h
          · exact wellFormed_of_readFile hbase h
          · exact wellFormed_of_readRelative hwell h

/-! ## Derived URIs -/

theorem WellFormed.withoutFragment (h : uri.WellFormed) : uri.withoutFragment.WellFormed := by
  obtain ⟨scheme, authority, path, query, fragment⟩ := uri
  cases path with
  | segments list => exact ⟨h.scheme, h.authority, h.path, h.query⟩
  | opaqueText text =>
    cases query with
    | some query => exact ⟨h.scheme, h.authority, h.path, h.query⟩
    | none =>
      refine ⟨h.scheme, h.authority, ?_, h.query⟩
      obtain ⟨hnone, hplain, hslash⟩ := h.path
      obtain ⟨blanks, hblanks⟩ := dropTrailingBlanks_prefix text
      rw [← hblanks] at hplain hslash
      exact ⟨hnone, (lacks_append.mp hplain).1,
        fun hhead => hslash (List.mem_head?_append_of_mem_head? hhead)⟩

theorem WellFormed.withFragment (h : uri.WellFormed) (fragment : String) :
    (uri.withFragment fragment).WellFormed :=
  h.withTail h.query

theorem mem_hex {text : String} {c : Char} (h : c ∈ (Checksum.ofText text).hex.toList) :
    ∃ n : Fin 16, c = Nat.digitChar n.val := by
  rw [Checksum.ofText, Sha256.hexDigest, String.toList_ofList] at h
  obtain ⟨word, -, hword⟩ := List.mem_flatMap.mp h
  obtain ⟨shift, -, rfl⟩ := List.mem_map.mp hword
  exact ⟨⟨_, Nat.mod_lt _ (by decide)⟩, rfl⟩

theorem wellFormed_urn {kind : String} (hkind : Lacks kind.toList marks) (text : String) :
    ((Checksum.ofText text).urn kind).WellFormed := by
  have hhex : Lacks (Checksum.ofText text).hex.toList marks := by
    intro c hc
    obtain ⟨n, rfl⟩ := mem_hex hc
    exact Address.digitChar_not_mark n
  have hname : Lacks (kind ++ ":" ++ (Checksum.ofText text).hex).toList marks := by
    rw [String.toList_append, String.toList_append, lacks_append, lacks_append]
    exact ⟨⟨hkind, by decide⟩, hhex⟩
  have hscheme : Lacks "urn".toList [':', '|'] := by decide
  exact ⟨hscheme, nofun, ⟨rfl, hname.mono (by decide), fun hhead =>
    hname '/' (List.mem_of_head? hhead) (by decide)⟩, nofun⟩

theorem lacks_fileName (name : String) :
    Lacks (Percent.encode isFileNameEscaped name).toList segmentMarks := by
  rw [Percent.encode, String.toList_ofList]
  have hall : segmentMarks.all isFileNameEscaped = true := by decide
  exact Percent.lacks_encodeChars (by decide) fun c _ hsign => List.all_eq_true.mp hall c hsign

theorem wellFormed_ofFilePath (names : List String) : (ofFilePath names).WellFormed := by
  have hscheme : Lacks "file".toList [':', '|'] := by decide
  refine .hierarchical hscheme (lacks_nil _) ?_ nofun
  split
  · rintro segment (_ | ⟨_, ⟨⟩⟩)
    exact lacks_nil _
  · intro segment hmem
    obtain ⟨name, -, rfl⟩ := List.mem_map.mp hmem
    exact lacks_fileName name

theorem wellFormed_ofDirectoryPath (names : List String) :
    (ofDirectoryPath names).WellFormed := by
  have hscheme : Lacks "file".toList [':', '|'] := by decide
  refine .hierarchical hscheme (lacks_nil _) (fun segment hmem => ?_) nofun
  rcases List.mem_append.mp hmem with hmem | hmem
  · obtain ⟨name, -, rfl⟩ := List.mem_map.mp hmem
    exact lacks_fileName name
  · rw [List.mem_singleton.mp hmem]
    exact lacks_nil _

/-- A URI that reading, deriving or naming gives. -/
inductive Produced : Uri → Prop
  | read {text : String} {uri : Uri} : Uri.read text = .ok uri → Produced uri
  | join {base uri : Uri} {reference : String} : Produced base → base.join reference = .ok uri →
      Produced uri
  | withoutFragment {uri : Uri} : Produced uri → Produced uri.withoutFragment
  | withFragment {uri : Uri} (fragment : String) : Produced uri →
      Produced (uri.withFragment fragment)
  | document (document : Json) : Produced (documentName document)
  | merge (base override : Uri) : Produced (mergeName base override)
  | file (names : List String) : Produced (ofFilePath names)
  | directory (names : List String) : Produced (ofDirectoryPath names)

theorem Produced.wellFormed {uri : Uri} (h : Produced uri) : uri.WellFormed := by
  induction h with
  | read hread =>
    have hnone : ∀ base ∈ (none : Option Uri), base.WellFormed := nofun
    exact wellFormed_of_readWith hnone hread
  | join _ hjoin hbase =>
    refine wellFormed_of_readWith ?_ hjoin
    rintro _ ⟨⟩
    exact hbase
  | withoutFragment _ h => exact h.withoutFragment
  | withFragment fragment _ h => exact h.withFragment fragment
  | document document => exact wellFormed_urn (by decide) _
  | merge base override => exact wellFormed_urn (by decide) _
  | file names => exact wellFormed_ofFilePath names
  | directory names => exact wellFormed_ofDirectoryPath names

end SchemaAtlas.Uri
