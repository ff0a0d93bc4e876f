import SchemaAtlas.Proofs.Loading.Position

/-!
# Reading a reference

A session finds the URI of a reference among its own nodes or in the cache, or it has to follow
the reference. `LinkRun` says of each of the two when it happens and what comes of it, and
`runs_loadWith_of_refused` what becomes of a value that is no schema.
-/

namespace SchemaAtlas

/-- Whether a node is known at a URI, in the session or from the cache. -/
def Session.finds (uri : Uri) (s : Session) : Bool := s.knows uri || s.cache.contains uri

/-- What a reference was written as, if it names a URI. -/
theorem Position.resolve_of_refers? (p : Position) {object : List (String × Json)}
    {reference : Json} {uri : Uri} (hv : p.value = .object object) (href : Entries.get? "$ref" object = some reference)
    (hu : p.refers? = some uri) :
    ∃ written, reference = .string written ∧ p.location.resolve written = .ok uri := by
  obtain ⟨written, hwritten, hresolve⟩ := Option.bind_eq_some_iff.mp hu
  have hstring : reference.string? = some written := by
    simpa [Position.written?, hv, Json.member?, href] using hwritten
  refine ⟨written, ?_, ?_⟩
  · cases reference with
    | string text =>
      cases hstring
      rfl
    | null | bool | number | array | object => cases hstring
  · cases hl : p.location.resolve written with
    | ok found =>
      rw [hl] at hresolve
      cases hresolve
      rfl
    | error fault =>
      rw [hl] at hresolve
      cases hresolve

namespace Loading

open LoadM

/-- The kinds of issues that a reference is refused with before it is followed. -/
def isRefusal (kind : IssueKind) : Prop := kind = .referenceHopLimit ∨ kind = .referenceCycle

/-- Why a reference is refused before it is followed. That it is one too many in a row is asked
first. -/
inductive Refuses (uri : Uri) (hops : Nat) (s : Session) : IssueKind → Prop
  | tooFar : s.policy.maxHops ≤ hops → Refuses uri hops s .referenceHopLimit
  | circular : hops < s.policy.maxHops → uri ∈ s.resolving → Refuses uri hops s .referenceCycle

theorem Refuses.isRefusal {uri : Uri} {hops : Nat} {s : Session} {kind : IssueKind}
    (h : Refuses uri hops s kind) : isRefusal kind := by
  cases h with
  | tooFar => exact Or.inl rfl
  | circular => exact Or.inr rfl

/-- Reading a reference to a URI. -/
inductive LinkRun (load : NodeLoader) (draft : Draft) (location : Location) (uri : Uri) (hops : Nat)
    (s : Session) : Except Stop (Option Schema) → Session → Prop
  | found {reference : Reference} : s.finds uri = true →
      LinkRun load draft location uri hops s
        (.ok (some (s.store.add location draft (.reference reference)).1))
        { s with store := (s.store.add location draft (.reference reference)).2 }
  | refused {kind : IssueKind} {message : String} : s.finds uri = false →
      Refuses uri hops s kind →
      LinkRun load draft location uri hops s (.error .fatal)
        (s.record .error kind location.document location.path message)
  | followed {written : String} {target : Schema} {s₁ s₂ : Session} : s.finds uri = false →
      hops < s.policy.maxHops → uri ∉ s.resolving →
      ChaseRun load location uri hops (s.beginResolving uri) (.ok target) s₁ →
      s₂ = (s₁.endResolving uri).finish target [uri] →
      LinkRun load draft location uri hops s
        (.ok (some (s₂.store.add location draft (.reference (referenceTo written uri target))).1))
        { s₂ with
          store := (s₂.store.add location draft (.reference (referenceTo written uri target))).2 }
  | ends {e : Stop} {s₁ : Session} : s.finds uri = false → hops < s.policy.maxHops →
      uri ∉ s.resolving → ChaseRun load location uri hops (s.beginResolving uri) (.error e) s₁ →
      LinkRun load draft location uri hops s (.error e) (s₁.endResolving uri)

variable {load : NodeLoader} {context : OpenDocument} {location : Location} {uri : Uri} {hops : Nat}
variable {s s' : Session}

theorem resolve_of_finds {written : String} {r : Except Stop Reference} (hf : s.finds uri = true)
    (h : Runs (resolve load location written uri hops) s r s') :
    s' = s ∧ ∃ reference, r = .ok reference := by
  unfold resolve at h
  rw [runs_get_bind] at h
  split at h
  · obtain ⟨rfl, rfl⟩ := runs_pure.mp h
    exact ⟨rfl, _, rfl⟩
  · obtain ⟨rfl, rfl⟩ := runs_pure.mp h
    exact ⟨rfl, _, rfl⟩
  · rename_i hnone hidle
    obtain ⟨hb, hc⟩ := Option.or_eq_none_iff.mp hnone
    simp [Session.finds, Session.knows, Cache.contains, Entries.contains, hb, hc, hidle] at hf

theorem resolve_of_not_finds {written : String} {r : Except Stop Reference}
    (hf : s.finds uri = false) (h : Runs (resolve load location written uri hops) s r s') :
    (r = .error .fatal ∧ ∃ kind message, Refuses uri hops s kind ∧
        s' = s.record .error kind location.document location.path message) ∨
      hops < s.policy.maxHops ∧ uri ∉ s.resolving ∧ ∃ outcome s₁,
        ChaseRun load location uri hops (s.beginResolving uri) outcome s₁ ∧
        ((∃ target, outcome = .ok target ∧ r = .ok (referenceTo written uri target) ∧
            s' = (s₁.endResolving uri).finish target [uri]) ∨
          ∃ e, outcome = .error e ∧ r = .error e ∧ s' = s₁.endResolving uri) := by
  obtain ⟨hknows, hcache⟩ := Bool.or_eq_false_iff.mp hf
  obtain ⟨hidle, hbuilt⟩ := Bool.or_eq_false_iff.mp hknows
  have hnone : (Entries.get? uri s.built).or (s.cache.get? uri) = none := by
    rw [Option.or_eq_none_iff]
    exact ⟨by simpa [Entries.contains] using hbuilt, by simpa [Cache.contains] using hcache⟩
  have hidle : Entries.get? uri s.inProgress = none := by simpa [Entries.contains] using hidle
  unfold resolve at h
  rw [runs_get_bind] at h
  simp only [hnone, hidle] at h
  split at h
  · rename_i hfar
    obtain ⟨rfl, rfl⟩ := runs_fatal.mp h
    exact Or.inl ⟨rfl, _, _, .tooFar hfar, rfl⟩
  · rename_i hnear
    split at h
    · rename_i hmem
      obtain ⟨rfl, rfl⟩ := runs_fatal.mp h
      exact Or.inl ⟨rfl, _, _, .circular (Nat.lt_of_not_le hnear) (by simpa using hmem), rfl⟩
    · rename_i hmem
      refine Or.inr ⟨Nat.lt_of_not_le hnear, by simpa using hmem, ?_⟩
      rcases runs_bind.mp h with ⟨target, s₁, hc, h⟩ | ⟨e, hc, rfl⟩
      · rw [runs_modify_bind] at h
        obtain ⟨rfl, rfl⟩ := runs_pure.mp h
        obtain ⟨s₂, hchase, rfl⟩ := runs_between.mp hc
        exact ⟨_, s₂, chaseRun_of_runs hchase, Or.inl ⟨target, rfl, rfl, rfl⟩⟩
      · obtain ⟨s₂, hchase, rfl⟩ := runs_between.mp hc
        exact ⟨_, s₂, chaseRun_of_runs hchase, Or.inr ⟨e, rfl, rfl, rfl⟩⟩

theorem linkRun_of_loadReference {draft : Draft} {written : String} {r : Except Stop Schema}
    (hu : location.resolve written = .ok uri)
    (h : Runs (loadReference load draft location written hops) s r s') :
    LinkRun load draft location uri hops s (r.map some) s' := by
  unfold loadReference at h
  simp only [hu] at h
  cases hf : s.finds uri with
  | true =>
    rcases runs_bind.mp h with ⟨reference, s₁, hr, hadd⟩ | ⟨e, hr, rfl⟩
    · obtain ⟨rfl, -⟩ := resolve_of_finds hf hr
      obtain ⟨rfl, rfl⟩ := runs_onStore.mp hadd
      exact .found hf
    · obtain ⟨-, reference, hok⟩ := resolve_of_finds hf hr
      cases hok
  | false =>
    rcases runs_bind.mp h with ⟨reference, s₁, hr, hadd⟩ | ⟨e, hr, rfl⟩
    · rcases resolve_of_not_finds hf hr with ⟨hfatal, -⟩ | ⟨hnear, hnew, outcome, s₂, hchase, hend⟩
      · cases hfatal
      · rcases hend with ⟨target, rfl, hreference, hs₁⟩ | ⟨e, -, herror, -⟩
        · cases hreference
          obtain ⟨rfl, rfl⟩ := runs_onStore.mp hadd
          exact .followed hf hnear hnew hchase hs₁
        · cases herror
    · rcases resolve_of_not_finds hf hr with ⟨hfatal, kind, message, hrefuses, rfl⟩ |
        ⟨hnear, hnew, outcome, s₂, hchase, hend⟩
      · cases hfatal
        exact .refused hf hrefuses
      · rcases hend with ⟨target, -, hok, -⟩ | ⟨_, rfl, herror, rfl⟩
        · cases hok
        · cases herror
          exact .ends hf hnear hnew hchase

/-- An object whose node is known is not read again. -/
theorem known_of_runs {object : List (String × Json)} {r : Except Stop (Option Schema)}
    (hc : s.current? = some context) (hb : Entries.contains location.pointerUri s.built = true)
    (h : Runs (loadWith load location (.object object) hops) s r s') :
    (∃ schema, r = .ok (some schema)) ∧ s' = s := by
  obtain ⟨schema, hknown⟩ := Option.isSome_iff_exists.mp hb
  unfold loadWith at h
  rw [runs_get_bind] at h
  simp only [hc] at h
  rw [runs_get_bind] at h
  simp only [hknown] at h
  obtain ⟨rfl, rfl⟩ := runs_pure.mp h
  exact ⟨⟨schema, rfl⟩, rfl⟩

/-- The reading of an object with a reference finds its node, or reads the reference. -/
theorem link_of_runs {object : List (String × Json)} {written : String}
    {r : Except Stop (Option Schema)} (hc : s.current? = some context)
    (href : Entries.get? "$ref" object = some (.string written))
    (hu : location.resolve written = .ok uri)
    (h : Runs (loadWith load location (.object object) hops) s r s') :
    (∃ schema, Entries.get? location.pointerUri s.built = some schema ∧ r = .ok (some schema) ∧
        s' = s) ∨
      Entries.get? location.pointerUri s.built = none ∧
        LinkRun load context.draft location uri hops s r s' := by
  unfold loadWith at h
  rw [runs_get_bind] at h
  simp only [hc] at h
  rw [runs_get_bind] at h
  cases hb : Entries.get? location.pointerUri s.built with
  | some schema =>
    simp only [hb] at h
    obtain ⟨rfl, rfl⟩ := runs_pure.mp h
    exact Or.inl ⟨schema, rfl, rfl, rfl⟩
  | none =>
    simp only [hb, href] at h
    refine Or.inr ⟨rfl, ?_⟩
    have hmap : Runs (some <$> loadReference load context.draft location written hops) s r s' := by
      rw [map_eq_pure_bind]
      exact h
    rcases runs_map.mp hmap with ⟨schema, hr, rfl⟩ | ⟨e, hr, rfl⟩
    · exact linkRun_of_loadReference hu hr
    · exact linkRun_of_loadReference hu hr

/-- The reading of an object that is no reference finds its node or makes it. -/
theorem plain_of_nodeRun {object : List (String × Json)}
    {r : Except Stop (Option Schema)} (hcurrent : s.current? = some context)
    (href : Entries.get? "$ref" object = none)
    (h : NodeRun load location (.object object) hops s r s') :
    (∃ schema, Entries.get? location.pointerUri s.built = some schema ∧ r = .ok (some schema) ∧
        s' = s) ∨
      Entries.get? location.pointerUri s.built = none ∧
        ∃ r₁, ObjectRun load context location object s r₁ s' ∧ r = r₁.map some := by
  cases h with
  | outside hnone => cases hcurrent.symm.trans hnone
  | known _ _ hb => exact Or.inl ⟨_, hb, rfl, rfl⟩
  | badReference _ hobject href' | reference _ hobject _ href'
  | referenceEnds _ hobject _ href' =>
    cases hobject
    cases href'.symm.trans href
  | object hcurrent' hobject hb _ hrun | objectEnds hcurrent' hobject hb _ hrun =>
    cases hcurrent'.symm.trans hcurrent
    cases hobject
    exact Or.inr ⟨hb, _, hrun, rfl⟩
  | boolean _ hbool => cases hbool
  | refused _ hrefused => cases hrefused

/-- A value that is no schema is reported in the same words by all loads. -/
theorem runs_loadWith_of_refused {value : Json} (ha : context.accepts value = false) :
    ∃ message, ∀ {load : NodeLoader} {location : Location} {hops : Nat} {s s' : Session}
      {r : Except Stop (Option Schema)}, s.current? = some context →
      Runs (loadWith load location value hops) s r s' →
      r = .ok none ∧ s' = s.record (if s.policy.strict then .error else .warning) .typeMismatch
        location.document location.path message := by
  have hend : ∀ {message : String} {location : Location} {s s' : Session}
      {r : Except Stop (Option Schema)},
      Runs (do malformed .typeMismatch location message; return none) s r s' →
      r = .ok none ∧ s' = s.record (if s.policy.strict then .error else .warning) .typeMismatch
        location.document location.path message := by
    intro message location s s' r h
    rcases runs_bind.mp h with ⟨_, s₁, hm, h⟩ | ⟨e, hm, -⟩
    · obtain ⟨-, rfl⟩ := runs_malformed.mp hm
      exact runs_pure.mp h
    · cases (runs_malformed.mp hm).1
  by_cases hbool : ∃ b, value = .bool b
  · obtain ⟨b, rfl⟩ := hbool
    refine ⟨"boolean schemas require draft 6 or later", fun hc h => hend ?_⟩
    unfold loadWith at h
    rw [runs_get_bind] at h
    simp only [hc] at h
    rw [if_neg (by simpa [OpenDocument.accepts] using ha)] at h
    exact h
  · refine ⟨s!"expected a schema, found {Shape.of value}", fun hc h => hend ?_⟩
    unfold loadWith at h
    rw [runs_get_bind] at h
    simp only [hc] at h
    cases value with
    | object => cases ha
    | bool b => exact absurd ⟨b, rfl⟩ hbool
    | null | number | string | array => exact h

end Loading
end SchemaAtlas
