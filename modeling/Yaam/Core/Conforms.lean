/-
  What a stored record promises of the deployment's spec: its attributes, outcome,
  entities, policy, subjects, and that its prose cannot be read off the file.

  * `Conforms` says what the spec asks of a published document;
  * `validated_spec`: what validation makes sure of, attribute types left out;
  * `stored_conforms_iff`: a stored record conforms exactly when its attributes have
    their declared types and its canonical identifiers are canonical themselves.
-/
import Yaam.Core.AcceptSafety

namespace Yaam.Core

open Text Contract Crypto Md Eff

variable {P : Pipeline} {env : Env} {r : ActionRecord} {body : Text} {σ : Store}

/-- The frontmatter is the same whatever the prose, and a body in plaintext is empty. -/
structure Unread (P : Pipeline) (r : ActionRecord) (d : Document) : Prop where
  summary : d.record.summary = []
  body : ∀ t, d.body = .plain t → t = []
  frontmatter : ∀ summary prose r' ss, validated P { r with summary } prose = .ok r' →
    P.resolver r' = .resolved ss → Md.render P.yaml { r' with subjects := ss } = Md.render P.yaml d.record

/-- What the spec asks of a document that is published. -/
structure Conforms (P : Pipeline) (r : ActionRecord) (body : Text) (d : Document) : Prop where
  declared : ∀ a ∈ d.record.attrs.entries, P.attrs.classOf d.record.action a.1 = .ok .structural
  typed : ∀ a ∈ d.record.attrs.entries, P.attrs.typeOf d.record.action a.1 = .ok a.2.type
  outcome : ∀ permitted, P.attrs.outcomesFor d.record.action = some permitted →
    d.record.outcome ∈ permitted
  canonical : ∀ e ∈ d.record.entities, P.registry.canonicalise e.kind e.id = .ok e.id
  policy : d.record.redactionPolicy = P.redaction.name
  redacted : P.redaction.firstMatch body = none
  subjects : d.record.subjects.length ≤ 1
  internal : d.record.dataClass = .internal → d.record.subjects = []
  subjectDerived : d.record.dataClass = .subjectDerived → d.record.subjects.length = 1
  unread : d.record.dataClass = .subjectDerived → Unread P r d

/-- Every attribute a record carries has its declared type. -/
def WellTyped (P : Pipeline) (r : ActionRecord) : Prop :=
  ∀ a ∈ r.attrs.entries, P.attrs.typeOf r.action a.1 = .ok a.2.type

/-- Canonicalising a record's entities a second time changes nothing. -/
def CanonicalTwice (P : Pipeline) (r : ActionRecord) : Prop :=
  ∀ e ∈ r.entities, ∀ id, P.registry.canonicalise e.kind e.id = .ok id →
    P.registry.canonicalise e.kind id = .ok id

/-! ## What validation makes sure of -/

/-- A schema that lets a record's attributes through declares them structural. -/
theorem classOf_of_validateFrontmatter {S : Schema} {action : Text} {attrs : AttrMap}
    (h : S.validateFrontmatter action attrs = .ok ()) :
    ∀ a ∈ attrs.entries, S.classOf action a.1 = .ok .structural := by
  intro a ha
  have hone := forM_ok.1 h a ha
  obtain ⟨key, v⟩ := a
  rw [Schema.classOf, Schema.declared]
  cases hfind : (S.action action).bind fun spec => spec.attrs.lookup key with
  | none => simp [hfind] at hone
  | some spec =>
    obtain ⟨type, cls⟩ := spec
    cases cls with
    | structural => rfl
    | sensitive => simp [hfind] at hone

theorem canonicalEntities_eq {es es' : List EntityRef} (h : canonicalEntities P es = .ok es') :
    (∀ e ∈ es, ∃ id, P.registry.canonicalise e.kind e.id = .ok id ∧ { e with id } ∈ es') ∧
      ∀ e' ∈ es', ∃ e ∈ es, P.registry.canonicalise e.kind e.id = .ok e'.id ∧ e'.kind = e.kind := by
  have hmem := fun y => mapM_ok_iff h y
  constructor
  · intro e he
    obtain ⟨y, hy⟩ := mapM_ok_mem h e he
    obtain ⟨id, hid, hy'⟩ := bind_ok.1 hy
    cases hy'
    exact ⟨id, hid, (hmem _).2 ⟨e, he, hy⟩⟩
  · intro e' he'
    obtain ⟨e, he, hy⟩ := (hmem e').1 he'
    obtain ⟨id, hid, hy'⟩ := bind_ok.1 hy
    cases hy'
    exact ⟨e, he, hid, rfl⟩

/-- What validation makes sure of beyond the contract's own rules. -/
structure ValidatedSpec (P : Pipeline) (r r' : ActionRecord) (body : Text) : Prop where
  rest : ∃ entities, canonicalEntities P r.entities = .ok entities ∧
    r' = { r with entities, summary := if r.dataClass = .internal then body else [] }
  declared : ∀ a ∈ r.attrs.entries, P.attrs.classOf r.action a.1 = .ok .structural
  outcome : outcomePermitted P r = true
  policy : r.redactionPolicy = P.redaction.name
  redacted : P.redaction.firstMatch body = none

theorem validated_spec {r' : ActionRecord} (h : validated P r body = .ok r') :
    ValidatedSpec P r r' body := by
  obtain ⟨_, -, h⟩ := bind_ok.1 h
  obtain ⟨_, -, h⟩ := bind_ok.1 h
  obtain ⟨_, -, h⟩ := bind_ok.1 h
  obtain ⟨_, hattrs, h⟩ := bind_ok.1 h
  obtain ⟨_, hout, h⟩ := bind_ok.1 h
  obtain ⟨es, hes, h⟩ := bind_ok.1 h
  obtain ⟨_, hpol, h⟩ := bind_ok.1 h
  obtain ⟨_, hred, h⟩ := bind_ok.1 h
  cases h
  exact ⟨⟨es, mapError_ok.1 hes, rfl⟩, classOf_of_validateFrontmatter (mapError_ok.1 hattrs),
    by simpa using refuseIf_ok.1 hout, by simpa using refuseIf_ok.1 hpol,
    by simpa using refuseIf_ok.1 hred⟩

/-- The prose a subject-derived record is submitted with leaves no trace in what is
    validated. -/
theorem validated_prose {summary prose : Text} {r' r'' : ActionRecord}
    (hclass : r.dataClass = .subjectDerived) (h : validated P r body = .ok r')
    (h' : validated P { r with summary } prose = .ok r'') : r'' = r' := by
  obtain ⟨es, hes, rfl⟩ := (validated_spec h).rest
  obtain ⟨es', hes', rfl⟩ := (validated_spec h').rest
  obtain rfl : es = es' := Except.ok.inj (hes.symm.trans hes')
  simp [hclass]

/-! ## What is stored -/

theorem SettledBody.unread {keys : Tree} {ss : List SubjectRef} {st : Stamp} {b : Body}
    (h : SettledBody keys r ss st body b) (hclass : r.dataClass = .subjectDerived) :
    ∀ t, b = .plain t → t = [] := by
  rintro t rfl
  cases h with
  | plain hi => exact absurd (hi.symm.trans hclass) (by decide)
  | dropped => rfl

/-- **What is admitted conforms exactly when its attributes are typed and its
    identifiers steady.** -/
theorem Admitted.conforms_iff {d : Document} {st : Stamp} (h : Admitted P r body σ d st) :
    Conforms P r body d ↔ WellTyped P r ∧ CanonicalTwice P r := by
  obtain ⟨r', ss, hval, hres, hcheck, hrec, hbody⟩ := h.record
  have hspec := validated_spec hval
  obtain ⟨es, hes, hr'⟩ := hspec.rest
  obtain ⟨hlen, hone, hnone⟩ := checkSubjects_ok hcheck
  obtain ⟨hto, hfrom⟩ := canonicalEntities_eq hes
  have hattrs : d.record.attrs = r.attrs := by rw [hrec, hr']
  have haction : d.record.action = r.action := by rw [hrec, hr']
  have houtcome : d.record.outcome = r.outcome := by rw [hrec, hr']
  have hentities : d.record.entities = es := by rw [hrec, hr']
  have hclass : d.record.dataClass = r'.dataClass := by rw [hrec]
  have hclass' : r'.dataClass = r.dataClass := by rw [hr']
  have hsubjects : d.record.subjects = ss := by rw [hrec]
  constructor
  · intro hc
    refine ⟨fun a ha => ?_, fun e he id hid => ?_⟩
    · rw [← haction]
      exact hc.typed a (by rw [hattrs]; exact ha)
    · obtain ⟨id', hid', hmem⟩ := hto e he
      obtain rfl := Except.ok.inj (hid.symm.trans hid')
      exact hc.canonical _ (by rw [hentities]; exact hmem)
  · rintro ⟨htyped, hsteady⟩
    refine ⟨?_, ?_, ?_, ?_, ?_, hspec.redacted, ?_, ?_, ?_, ?_⟩
    · rw [hattrs, haction]
      exact hspec.declared
    · rw [hattrs, haction]
      exact htyped
    · intro permitted hp
      rw [haction] at hp
      have hout := hspec.outcome
      rw [outcomePermitted, hp] at hout
      rw [houtcome]
      exact of_decide_eq_true hout
    · rw [hentities]
      intro e' he'
      obtain ⟨e, he, hid, hk⟩ := hfrom e' he'
      rw [hk]
      exact hsteady e he _ hid
    · rw [hrec, hr']
      exact hspec.policy
    · rw [hsubjects]
      exact hlen
    · rw [hclass, hsubjects]
      exact hnone
    · rw [hclass, hsubjects]
      intro hd
      have hpos := List.length_pos_iff.2 (hone hd)
      omega
    · rw [hclass]
      intro hd
      refine ⟨?_, hbody.unread hd, fun summary prose r'' ss' hval' hres' => ?_⟩
      · rw [hrec]
        show r'.summary = []
        rw [(validated_ok hval).summary, if_neg]
        rw [← hclass', hd]
        decide
      · obtain rfl := validated_prose (hclass'.symm.trans hd) hval hval'
        rw [hres] at hres'
        rw [hrec, Resolution.resolved.inj hres']

/-- **A stored record conforms to the spec exactly when** its attributes have their
    declared types and canonicalising its entities again changes nothing. -/
theorem stored_conforms_iff (P : Pipeline) (env : Env) (r : ActionRecord) (body : Text)
    (σ σ' : Store) (id : RecordId) (h : accept P env r body σ = (.ok (.stored id), σ')) :
    ∃ d dest f, destination r = .ok dest ∧ σ'.records.lookup dest = some f ∧
      f.content = fileBytes P d ∧ (Conforms P r body d ↔ WellTyped P r ∧ CanonicalTwice P r) := by
  have hstep := accept_step P env r body σ
  rw [h] at hstep
  cases hstep with
  | stored d st dest σ₁ row ms as_ hkeys hdest =>
    exact ⟨d, dest, ⟨fileBytes P d, env.now⟩, hdest, by simp [placedIn], rfl,
      as_.conforms_iff⟩

/-! ## A deploy -/

/-- A deployment whose deploys carry how long they took. -/
def deployPipeline : Pipeline :=
  { deployment declaredSubjects with
    attrs := ⟨[⟨"deploy".toList, none, [("duration_ms".toList, ⟨.integer, .structural⟩)]⟩]⟩ }

def deployRecord (v : AttrValue) : ActionRecord :=
  { plainRecord (ulid 'A' isCrockfordDigit_A) "2026-01-01T00:00:00Z".toList with
    action := "deploy".toList, attrs := ⟨[("duration_ms".toList, v)], by simp⟩ }

section
set_option maxRecDepth 4000

theorem accept_deploy {v : AttrValue} (hv : v = .int 12 ∨ v = .text "soon".toList) :
    accept deployPipeline (quietEnv 0) (deployRecord v) [] emptyStore =
      (.ok (.stored (deployRecord v).recordId),
        (accept deployPipeline (quietEnv 0) (deployRecord v) [] emptyStore).2) := by
  refine Prod.ext (ok_of_toOption ?_) rfl
  rcases hv with rfl | rfl
  · decide +kernel
  · decide +kernel

theorem stored_conforms_deploy : ∃ (d : Document) (f : File), f.content = fileBytes deployPipeline d ∧
    Conforms deployPipeline (deployRecord (.int 12)) [] d := by
  obtain ⟨d, -, f, -, -, hf, hiff⟩ := stored_conforms_iff deployPipeline (quietEnv 0)
    (deployRecord (.int 12)) [] emptyStore _ _ (accept_deploy (.inl rfl))
  refine ⟨d, f, hf, hiff.2 ⟨?_, fun e he => absurd he List.not_mem_nil⟩⟩
  intro a ha
  obtain rfl := List.mem_singleton.1 ha
  rfl

/-- Documents of one file have one frontmatter. -/
theorem render_bare_inj {Y : Yaml} (hY : Y.Inverts) {d d' : Document}
    (h : d.render Y = d'.render Y) : d.record.bare = d'.record.bare := by
  have hsplit := split_render (Y := Y) d
  rw [h, split_render] at hsplit
  have hfront : Md.render Y d'.record = Md.render Y d.record :=
    (Prod.mk.inj (Except.ok.inj hsplit)).1
  have hread := hY d.record
  rw [← hfront, hY d'.record] at hread
  exact (Except.ok.inj hread).symm

/-- **A text is stored where a number is declared.** -/
theorem untyped_is_stored : ¬ ∀ (P : Pipeline) (env : Env) (r : ActionRecord) (body : Text)
    (σ σ' : Store) (id : RecordId), accept P env r body σ = (.ok (.stored id), σ') →
      ∃ d dest f, destination r = .ok dest ∧ σ'.records.lookup dest = some f ∧
        f.content = fileBytes P d ∧ Conforms P r body d := by
  intro h
  have hrun := accept_deploy (v := .text "soon".toList) (.inr rfl)
  obtain ⟨d, dest, f, hdest, hlookup, hf, hc⟩ := h _ _ _ _ _ _ _ hrun
  obtain ⟨d', st, has, hf'⟩ := written_file hdest (by simp [emptyStore]) hlookup
  have hbare := render_bare_inj reader_inverts (Utf8.encode_inj (hf.symm.trans hf'))
  obtain ⟨r', ss, hval, -, -, hrec, -⟩ := has.record
  obtain ⟨es, -, hr'⟩ := (validated_spec hval).rest
  have hattrs : d.record.attrs = (deployRecord (.text "soon".toList)).attrs := by
    have h1 := congrArg ActionRecord.attrs hbare
    rw [hrec, hr'] at h1
    exact h1
  have haction : d.record.action = "deploy".toList := by
    have h1 := congrArg ActionRecord.action hbare
    rw [hrec, hr'] at h1
    exact h1
  have htyped := hc.typed ("duration_ms".toList, .text "soon".toList) (by
    rw [hattrs]
    exact List.mem_singleton.2 rfl)
  rw [haction] at htyped
  exact absurd (Except.ok.inj htyped) (by decide)

end

end Yaam.Core
