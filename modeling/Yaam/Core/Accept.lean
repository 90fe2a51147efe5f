/-
  The write path (`yaam-core`, `pipeline.rs`): dedupe, validate, resolve and seal,
  stage, publish, settle.

  * `validated`, `resolveAndSeal`, `quarantine`, `stage`, `place`, `commit` and
    `settleQuarantine` are the steps; `accept` runs them;
  * `Window` names the points at which a crash can stop the write, and
    `acceptUntil` is the write stopped there;
  * `validated_ok`: what validation keeps of a record and what it makes sure of;
  * `resolveAndSeal_ok`: the document a write settles on names an erased subject
    only when its body is empty.
-/
import Yaam.Core.Store

namespace Yaam.Core

open Text Contract Crypto Md Eff

/-- Outcome of accepting a record. -/
inductive Accepted where
  | stored (id : RecordId)
  | duplicate (id : RecordId)
  | quarantined (id : RecordId)
deriving DecidableEq

section
variable (P : Pipeline)

/-! ## Validation -/

/-- What a caller is told when this store does not write the class it declares. -/
def subjectWritesRefused (r : ActionRecord) : String :=
  let path := joinWith '/' (P.root ++ ["spec".toList, "subject-writes.yaml".toList])
  "subject-derived records are refused by this store, and nothing was written. To accept " ++
    "them, declare `writes: enabled` in spec/subject-writes.yaml " ++
    s!"({String.ofList path}). Accepting record " ++
    s!"`{String.ofList r.recordId.text}` would have derived a pseudonym for an entity reference " ++
    "it states and sealed its body under a subject key that cannot be rotated; a store's first " ++
    "subject-derived record cannot be taken back, because there is no re-key, no re-seal and no " ++
    "delete. Until that declaration is made, this record is writable as `data_class: internal`, " ++
    "whose body is stored in plaintext and which names no subject"

/-- A record's entities with their identifiers in canonical form. -/
def canonicalEntities (es : List EntityRef) : Except Contract.Error (List EntityRef) :=
  es.mapM fun e => do
    let id ← P.registry.canonicalise e.kind e.id
    .ok { e with id }

/-- Whether the action permits the outcome the record reports. -/
def outcomePermitted (r : ActionRecord) : Bool :=
  match P.attrs.outcomesFor r.action with
  | some permitted => r.outcome ∈ permitted
  | none => true

/-- Everything that must hold before any byte is written. -/
def validated (r : ActionRecord) (body : Text) : Except Error ActionRecord := do
  liftContract r.validate
  refuseIf (r.dataClass = .subjectDerived ∧ P.subjectWrites ≠ .enabled)
    (invalid (subjectWritesRefused P r))
  refuseIf (stamp r.at_ = none) (invalid s!"record has an unreadable at `{String.ofList r.at_}`")
  liftContract (P.attrs.validateFrontmatter r.action r.attrs)
  refuseIf (outcomePermitted P r = false)
    (invalid (s!"action `{String.ofList r.action}` does not permit outcome " ++
      s!"`{String.ofList (outcomeName r.outcome)}`"))
  let entities ← liftContract (canonicalEntities P r.entities)
  refuseIf (r.redactionPolicy ≠ P.redaction.name)
    (invalid (s!"record declares redaction policy `{String.ofList r.redactionPolicy}`, " ++
      s!"this deployment applies `{String.ofList P.redaction.name}`"))
  refuseIf (P.redaction.firstMatch body ≠ none)
    (invalid (s!"body still matches redaction pattern " ++
      s!"`{String.ofList ((P.redaction.firstMatch body).getD [])}`; the writer must redact first"))
  .ok { r with entities, summary := if r.dataClass = .internal then body else [] }

/-! ## Resolution and sealing -/

/-- Holds the resolver to the contract's rules about a record's subjects. -/
def checkSubjects (r : ActionRecord) (resolved : List SubjectRef) : Except Error Unit := do
  refuseIf (1 < resolved.length)
    (invalid (s!"subject resolution produced {resolved.length} subjects for one record; its body " ++
      "would be sealed under all of them, so erasing any one would end it for the rest"))
  refuseIf (r.dataClass = .subjectDerived ∧ resolved = [])
    (invalid "subject resolution produced no subject for a subject-derived record")
  refuseIf (r.dataClass = .internal ∧ resolved ≠ [])
    (invalid (s!"subject resolution produced {resolved.length} subject(s) for an internal record"))

/-- Whether any of these subjects has been erased. -/
def tombstoned : List SubjectHash → StoreM Bool
  | [] => return false
  | s :: ss => do
    match ← attempt (keyed (isTombstoned s)) with
    | .ok true => return true
    | .ok false => tombstoned ss
    | .error _ => fail .subjectUnresolved

/-- A key store that cannot answer leaves the subject unresolved. -/
def sealFailure : Crypto.Error → Error
  | .io _ => .subjectUnresolved
  | .tombstoned _ => .subjectUnresolved
  | .keyAbsent _ _ => .subjectUnresolved
  | e => .crypto e

/-- Seals a body. -/
def sealUnder (env : Env) (d : Draws) (id : RecordId) (subjects : List SubjectHash) (epoch : Epoch)
    (body : Text) : StoreM SealedBody :=
  zoom Store.keys (fun s t => { s with keys := t })
    (mapError sealFailure
      («seal» P.ciphers (P.keys env) d id subjects epoch (Utf8.encode body)))

/-- Whether an erasure landed between the first look and the seal; a key store that
    cannot answer is no. -/
def erasedMeanwhile (subjects : List SubjectHash) : StoreM Bool := do
  match ← attempt (tombstoned subjects) with
  | .ok b => return b
  | .error _ => return false

/-- Seals the body of a subject-derived record; an erased subject's record keeps no
    body. -/
def sealBody (env : Env) (r : ActionRecord) (resolved : List SubjectRef) (st : Stamp)
    (body : Text) : StoreM Body := do
  if r.dataClass = .internal then return .plain body
  else
    let subjects := resolved.map (·.hash)
    if ← tombstoned subjects then return .plain []
    else
      match ← attempt (sealUnder P env env.body r.recordId subjects (Epoch.containing st.ms) body) with
      | .ok block => return .sealed block
      | .error .subjectUnresolved =>
        if ← erasedMeanwhile subjects then return .plain [] else fail .subjectUnresolved
      | .error e => fail e

/-- The record's subjects, and its body sealed under them. -/
def resolveAndSeal (env : Env) (r : ActionRecord) (st : Stamp) (body : Text) :
    StoreM (List SubjectRef × Body) := do
  match P.resolver r with
  | .unavailable _ => fail .subjectUnresolved
  | .refused reason => fail (invalid reason)
  | .resolved subjects => do
    ofExcept (checkSubjects r subjects)
    let sealedBody ← sealBody P env r subjects st body
    return (subjects, sealedBody)

/-! ## Quarantine -/

/-- The reserved pseudo-subject whose key wraps a quarantined body for one date. -/
def quarantineSubject (date : Text) : Except Contract.Error SubjectHash :=
  let digits := (hexEncode (Utf8.encode ("quarantine/".toList ++ date))).take 64
  SubjectHash.parse ("s_".toList ++ digits ++ List.replicate (64 - digits.length) '0')

/-- A directory under the memory root, as a path. -/
def dirPath (dir : String) (p : Path) : Path := P.root ++ dir.toList :: p

/-- Holds a record back, sealed, until its subjects resolve. -/
def quarantine (env : Env) (r : ActionRecord) (st : Stamp) (body : Text) : StoreM Unit := do
  let subject ← ofExcept (liftContract (quarantineSubject st.date))
  let block ← sealUnder P env env.spool r.recordId [subject] (Epoch.containing st.ms) body
  let path := [recordFile r.recordId]
  let bytes := Utf8.encode (Document.render P.yaml ⟨r, .sealed block⟩)
  change fun s => { s with quarantine := s.quarantine.write path bytes env.now }
  indexed (change (Index.enqueueQuarantine r.recordId st.date (dirPath P ".quarantine" path) env.now))

/-- Drops the spooled copy of a record that has now been published, and its register
    row. -/
def settleQuarantine (id : RecordId) : StoreM Unit := do
  change fun s => { s with quarantine := s.quarantine.erase [recordFile id] }
  indexed (change (Index.dequeueQuarantine id))

/-! ## Publishing -/

/-- The write-ahead copy. -/
def stage (env : Env) (d : Document) : StoreM Path := do
  let path := [recordFile d.record.recordId]
  let bytes := Utf8.encode (Document.render P.yaml d)
  change fun s => { s with staging := s.staging.write path bytes env.now }
  return path

/-- Renames the staged copy into the dated tree.  A copy that is gone while its
    destination stands is a completed write. -/
def place (d : Document) (staged : Path) (st : Stamp) : StoreM Path := do
  let dest ← ofExcept (publishedPath d.record st)
  let s ← state
  match Tree.rename s.staging s.records staged dest with
  | .ok (staging, records) => do
    change fun s => { s with staging, records }
    return dest
  | .error e => if dest ∈ s.records then return dest else fail (.io e)

end

/-- The wrapped shares of the subjects a record names. -/
def subjectKeys (d : Document) : List (SubjectHash × Epoch × Bytes) :=
  match d.body with
  | .plain _ => []
  | .sealed b => (b.shares.filter fun share => d.record.names share.subject).map fun share =>
      (share.subject, b.epoch, share.bytes)

/-- What the index gets of a document. -/
def publishInput (d : Document) : Index.PublishInput :=
  ⟨d.record, d.searchableText, subjectKeys d⟩

/-- Indexes one document into an open transaction. -/
def publishDocument (d : Document) : Eff Index.Tables Index.Error Unit :=
  Index.publish (publishInput d)

/-- Commits the index row, and the fan-out jobs with it. -/
def commit (d : Document) : StoreM Unit := indexed (publishDocument d)

section
variable (P : Pipeline) (env : Env)

/-- How far a record gets before anything is staged. -/
inductive Admission where
  | duplicate
  | held
  | admitted (d : Document) (st : Stamp)

/-- Dedupe, validation, resolution and sealing, up to the first staged byte. -/
def admission (r : ActionRecord) (body : Text) : StoreM Admission := do
  let st ← ofExcept (stampOf r)
  let dest ← ofExcept (publishedPath r st)
  if dest ∈ (← state).records then return .duplicate
  else
    let record ← ofExcept (validated P r body)
    match ← attempt (resolveAndSeal P env record st body) with
    | .error .subjectUnresolved => do
      quarantine P env record st body
      return .held
    | .error e => fail e
    | .ok (subjects, sealedBody) => return .admitted ⟨{ record with subjects }, sealedBody⟩ st

/-- The points at which a crash can stop a write that was admitted. -/
inductive Window where
  | admitted
  | staged
  | placed
  | committed
  | settled
deriving DecidableEq

/-- The steps after admission, up to a window. -/
def publishUntil (d : Document) (st : Stamp) : Window → StoreM Unit
  | .admitted => return ()
  | .staged => do
    let _ ← stage P env d
  | .placed => do
    let staged ← stage P env d
    let _ ← place d staged st
  | .committed => do
    let staged ← stage P env d
    let _ ← place d staged st
    commit d
  | .settled => do
    let staged ← stage P env d
    let _ ← place d staged st
    commit d
    settleQuarantine d.record.recordId

/-- A write stopped at a window. -/
def acceptUntil (w : Window) (r : ActionRecord) (body : Text) : StoreM Accepted := do
  match ← admission P env r body with
  | .duplicate => return .duplicate r.recordId
  | .held => return .quarantined r.recordId
  | .admitted d st => do
    publishUntil P env d st w
    return .stored r.recordId

/-- Runs a record through dedupe, validation, resolution, sealing, staging and
    publish. -/
def accept (r : ActionRecord) (body : Text) : StoreM Accepted := do
  match ← admission P env r body with
  | .duplicate => return .duplicate r.recordId
  | .held => return .quarantined r.recordId
  | .admitted d st => do
    let staged ← stage P env d
    let _ ← place d staged st
    commit d
    settleQuarantine d.record.recordId
    return .stored r.recordId

end

/-! ## What validation keeps -/

variable {P : Pipeline} {env : Env}

theorem mapError_ok {ε ε' α : Type} {f : ε → ε'} {x : Except ε α} {a : α} :
    x.mapError f = .ok a ↔ x = .ok a := by
  cases x <;> simp [Except.mapError]

/-- Canonical identifiers leave the confidences as they were. -/
theorem canonicalEntities_ok {es es' : List EntityRef}
    (h : canonicalEntities P es = .ok es') : ∀ e' ∈ es', ∃ e ∈ es, e'.confidence = e.confidence := by
  induction es generalizing es' with
  | nil =>
    cases h
    simp
  | cons e es ih =>
    rw [canonicalEntities, List.mapM_cons] at h
    obtain ⟨x, hx, h⟩ := bind_ok.1 h
    obtain ⟨xs, hxs, h⟩ := bind_ok.1 h
    obtain ⟨id, -, hx⟩ := bind_ok.1 hx
    cases hx
    cases h
    intro e' he'
    rcases List.mem_cons.1 he' with rfl | he'
    · exact ⟨e, by simp, rfl⟩
    · obtain ⟨y, hy, hc⟩ := ih hxs e' he'
      exact ⟨y, by simp [hy], hc⟩

/-- What validation keeps of a record, and what it makes sure of. -/
structure Validated (r r' : ActionRecord) (body : Text) : Prop where
  valid : r'.validate = .ok ()
  place : SamePlace r r'
  at_ : r'.at_ = r.at_
  subjects : r'.subjects = r.subjects
  dataClass : r'.dataClass = r.dataClass
  summary : r'.summary = if r.dataClass = .internal then body else []

theorem validated_ok {r r' : ActionRecord} {body : Text} (h : validated P r body = .ok r') :
    Validated r r' body := by
  obtain ⟨_, h1, h⟩ := bind_ok.1 h
  obtain ⟨_, -, h⟩ := bind_ok.1 h
  obtain ⟨_, -, h⟩ := bind_ok.1 h
  obtain ⟨_, -, h⟩ := bind_ok.1 h
  obtain ⟨_, -, h⟩ := bind_ok.1 h
  obtain ⟨es, h2, h⟩ := bind_ok.1 h
  obtain ⟨_, -, h⟩ := bind_ok.1 h
  obtain ⟨_, -, h⟩ := bind_ok.1 h
  cases h
  obtain ⟨v1, v2, v3, v4, v5, v6, v7⟩ := ActionRecord.validate_ok_iff.1 (mapError_ok.1 h1)
  have hes := canonicalEntities_ok (mapError_ok.1 h2)
  refine ⟨ActionRecord.validate_ok_iff.2 ⟨v1, v2, v3, v4, v5, v6, ?_⟩, ⟨rfl, rfl, rfl, rfl⟩, rfl,
    rfl, rfl, rfl⟩
  intro e' he'
  obtain ⟨e, he, hc⟩ := hes e' he'
  rw [hc]
  exact v7 e he

theorem checkSubjects_ok {r : ActionRecord} {ss : List SubjectRef} {u : Unit}
    (h : checkSubjects r ss = .ok u) :
    ss.length ≤ 1 ∧ (r.dataClass = .subjectDerived → ss ≠ []) ∧
      (r.dataClass = .internal → ss = []) := by
  simp only [checkSubjects, bind_ok, refuseIf_ok, exists_const, not_lt, not_and, not_not,
    ne_eq] at h
  exact h

/-- A valid record stays valid under the subjects its resolution settled on. -/
theorem Validated.resolved {r r' : ActionRecord} {body : Text} (h : Validated r r' body)
    {ss : List SubjectRef} {u : Unit} (hs : checkSubjects r' ss = .ok u) :
    { r' with subjects := ss }.validate = .ok () := by
  obtain ⟨v1, v2, v3, -, -, v6, v7⟩ := ActionRecord.validate_ok_iff.1 h.valid
  obtain ⟨c1, -, c3⟩ := checkSubjects_ok hs
  exact ActionRecord.validate_ok_iff.2 ⟨v1, v2, v3, c3, c1, v6, v7⟩

/-! ## What sealing settles on -/

/-- The operation changed nothing but the key store, which grew. -/
def OnlyKeys (s s' : Store) : Prop := ∃ t, s' = { s with keys := t } ∧ Grown s.keys t

theorem OnlyKeys.refl (s : Store) : OnlyKeys s s := ⟨s.keys, rfl, Grown.refl _⟩

theorem OnlyKeys.trans {s₁ s₂ s₃ : Store} (h : OnlyKeys s₁ s₂) (k : OnlyKeys s₂ s₃) :
    OnlyKeys s₁ s₃ := by
  obtain ⟨t, rfl, ht⟩ := h
  obtain ⟨u, rfl, hu⟩ := k
  exact ⟨u, rfl, ht.trans hu⟩

theorem keyed_isTombstoned (s : SubjectHash) (σ : Store) :
    keyed (isTombstoned s) σ = (.ok (decide (tombstonePath s ∈ σ.keys)), σ) := rfl

/-- Looking for erased subjects always has an answer, and changes nothing. -/
theorem tombstoned_apply (ss : List SubjectHash) (σ : Store) :
    tombstoned ss σ = (.ok (decide (∃ s ∈ ss, tombstonePath s ∈ σ.keys)), σ) := by
  induction ss with
  | nil => simp [tombstoned]
  | cons s ss ih =>
    have hs : attempt (keyed (isTombstoned s)) σ =
        (.ok (.ok (decide (tombstonePath s ∈ σ.keys))), σ) := rfl
    rw [tombstoned, bind_of_ok hs]
    by_cases hm : tombstonePath s ∈ σ.keys
    · simp [hm]
    · simp only [hm, decide_false, ih]
      simp [hm]

theorem sealUnder_onlyKeys (P : Pipeline) (env : Env) (d : Draws) (id : RecordId) (subjects : List SubjectHash) (epoch : Epoch)
    (body : Text) (σ : Store) : OnlyKeys σ (sealUnder P env d id subjects epoch body σ).2 := by
  have h : Keeps (Grown σ.keys)
      (mapError sealFailure («seal» P.ciphers (P.keys env) d id subjects epoch (Utf8.encode body))) :=
    Keeps.mapError fun t ht => ht.trans (seal_grown _ _ _ t)
  exact ⟨_, rfl, h σ.keys (Grown.refl _)⟩

theorem sealUnder_ok {d : Draws} {id : RecordId} {subjects : List SubjectHash} {epoch : Epoch}
    {body : Text} {σ σ' : Store} {b : SealedBody}
    (h : sealUnder P env d id subjects epoch body σ = (.ok b, σ')) :
    b.epoch = epoch ∧
      b.shares.map (·.subject) = subjects.insertionSort (fun a b => a.text ≤ b.text) ∧
      b.shares ≠ [] ∧ ∀ s ∈ subjects, tombstonePath s ∉ σ.keys := by
  obtain ⟨t, ht, -⟩ := zoom_eq_ok.1 h
  exact seal_ok (mapError_eq_ok.1 ht)

/-- The body a write settles on: prose for an internal record, and for a
    subject-derived one nothing, or a block under each of its subjects, none erased. -/
inductive SettledBody (keys : Tree) (r : ActionRecord) (subjects : List SubjectRef) (st : Stamp)
    (body : Text) : Body → Prop
  | plain (h : r.dataClass = .internal) : SettledBody keys r subjects st body (.plain body)
  | dropped (h : r.dataClass = .subjectDerived) : SettledBody keys r subjects st body (.plain [])
  | sealed (h : r.dataClass = .subjectDerived) (b : SealedBody)
      (epoch : b.epoch = Epoch.containing st.ms)
      (shares : b.shares.map (·.subject) =
        (subjects.map (·.hash)).insertionSort fun a b => a.text ≤ b.text)
      (some_share : b.shares ≠ [])
      (live : ∀ s ∈ subjects, tombstonePath s.hash ∉ keys) :
      SettledBody keys r subjects st body (.sealed b)

theorem erasedMeanwhile_apply (ss : List SubjectHash) (σ : Store) :
    erasedMeanwhile ss σ = (.ok (decide (∃ s ∈ ss, tombstonePath s ∈ σ.keys)), σ) := by
  have h : attempt (tombstoned ss) σ =
      (.ok (.ok (decide (∃ s ∈ ss, tombstonePath s ∈ σ.keys))), σ) := by
    rw [attempt_apply, tombstoned_apply]
  rw [erasedMeanwhile, bind_of_ok h]
  rfl

theorem sealFailure_cases (e : Crypto.Error) :
    sealFailure e = .subjectUnresolved ∨ sealFailure e = .crypto e := by
  cases e <;> simp [sealFailure]

theorem sealUnder_error {d : Draws} {id : RecordId} {subjects : List SubjectHash} {epoch : Epoch}
    {body : Text} {σ σ' : Store} {e : Error}
    (h : sealUnder P env d id subjects epoch body σ = (.error e, σ')) :
    e = .subjectUnresolved ∨ ∃ c, e = .crypto c := by
  obtain ⟨t, ht, -⟩ := zoom_eq_error.1 h
  obtain ⟨c, -, rfl⟩ := mapError_eq_error.1 ht
  rcases sealFailure_cases c with h | h
  · exact .inl h
  · exact .inr ⟨c, h⟩

/-- What sealing a body settles on, and what it changes. -/
theorem sealBody_ok {r : ActionRecord} {ss : List SubjectRef} {st : Stamp} {body : Text}
    {σ σ' : Store} {b : Body} (h : sealBody P env r ss st body σ = (.ok b, σ')) :
    SettledBody σ.keys r ss st body b ∧ OnlyKeys σ σ' := by
  unfold sealBody at h
  split_ifs at h with hi
  · obtain ⟨rfl, rfl⟩ := pure_eq_ok.1 h
    exact ⟨.plain hi, OnlyKeys.refl _⟩
  have hd : r.dataClass = .subjectDerived := by
    cases hc : r.dataClass with
    | internal => exact absurd hc hi
    | subjectDerived => rfl
  rw [bind_of_ok (tombstoned_apply _ σ)] at h
  split_ifs at h with ht
  · obtain ⟨rfl, rfl⟩ := pure_eq_ok.1 h
    exact ⟨.dropped hd, OnlyKeys.refl _⟩
  have hkeys := sealUnder_onlyKeys P env env.body r.recordId (ss.map (·.hash))
    (Epoch.containing st.ms) body σ
  cases hs : sealUnder P env env.body r.recordId (ss.map (·.hash)) (Epoch.containing st.ms) body σ with
  | mk res σ₁ =>
  rw [hs] at hkeys
  have hatt : attempt (sealUnder P env env.body r.recordId (ss.map (·.hash))
      (Epoch.containing st.ms) body) σ = (.ok res, σ₁) := by
    rw [attempt_apply, hs]
  rw [bind_of_ok hatt] at h
  cases res with
  | ok block =>
    obtain ⟨rfl, rfl⟩ := pure_eq_ok.1 h
    obtain ⟨h1, h2, h3, h4⟩ := sealUnder_ok hs
    exact ⟨.sealed hd block h1 h2 h3 fun s hmem => h4 _ (List.mem_map_of_mem hmem), hkeys⟩
  | error e =>
    rcases sealUnder_error hs with rfl | ⟨c, rfl⟩
    · dsimp only at h
      rw [bind_of_ok (erasedMeanwhile_apply _ σ₁)] at h
      split_ifs at h with hm
      · obtain ⟨rfl, rfl⟩ := pure_eq_ok.1 h
        exact ⟨.dropped hd, hkeys⟩
      · exact absurd h fail_ne_ok
    · exact absurd h fail_ne_ok

theorem sealBody_error {r : ActionRecord} {ss : List SubjectRef} {st : Stamp} {body : Text}
    {σ σ' : Store} {e : Error} (h : sealBody P env r ss st body σ = (.error e, σ')) :
    OnlyKeys σ σ' ∧ (e = .subjectUnresolved ∨ ∃ c, e = .crypto c) := by
  unfold sealBody at h
  split_ifs at h with hi
  · exact absurd h pure_ne_error
  rw [bind_of_ok (tombstoned_apply _ σ)] at h
  split_ifs at h with ht
  · exact absurd h pure_ne_error
  have hkeys := sealUnder_onlyKeys P env env.body r.recordId (ss.map (·.hash))
    (Epoch.containing st.ms) body σ
  cases hs : sealUnder P env env.body r.recordId (ss.map (·.hash)) (Epoch.containing st.ms) body σ with
  | mk res σ₁ =>
  rw [hs] at hkeys
  have hatt : attempt (sealUnder P env env.body r.recordId (ss.map (·.hash))
      (Epoch.containing st.ms) body) σ = (.ok res, σ₁) := by
    rw [attempt_apply, hs]
  rw [bind_of_ok hatt] at h
  cases res with
  | ok block => exact absurd h pure_ne_error
  | error e' =>
    rcases sealUnder_error hs with rfl | ⟨c, rfl⟩
    · dsimp only at h
      rw [bind_of_ok (erasedMeanwhile_apply _ σ₁)] at h
      split_ifs at h with hm
      · exact absurd h pure_ne_error
      · obtain ⟨rfl, rfl⟩ := fail_eq_error.1 h
        exact ⟨hkeys, .inl rfl⟩
    · obtain ⟨rfl, rfl⟩ := fail_eq_error.1 h
      exact ⟨hkeys, .inr ⟨c, rfl⟩⟩

theorem resolveAndSeal_ok {r : ActionRecord} {st : Stamp} {body : Text} {σ σ' : Store}
    {res : List SubjectRef × Body} (h : resolveAndSeal P env r st body σ = (.ok res, σ')) :
    P.resolver r = .resolved res.1 ∧ checkSubjects r res.1 = .ok () ∧
      SettledBody σ.keys r res.1 st body res.2 ∧ OnlyKeys σ σ' := by
  unfold resolveAndSeal at h
  cases hres : P.resolver r with
  | unavailable reason =>
    rw [hres] at h
    exact absurd h fail_ne_ok
  | refused reason =>
    rw [hres] at h
    exact absurd h fail_ne_ok
  | resolved ss =>
    rw [hres] at h
    obtain ⟨_, σ₁, h1, h⟩ := bind_eq_ok.1 h
    obtain ⟨hc, rfl⟩ := ofExcept_eq_ok.1 h1
    obtain ⟨b, σ₂, hb, h⟩ := bind_eq_ok.1 h
    obtain ⟨rfl, rfl⟩ := pure_eq_ok.1 h
    obtain ⟨hb, hk⟩ := sealBody_ok hb
    exact ⟨rfl, hc, hb, hk⟩

/-- How resolution refuses a record, without writing anything but keys. -/
theorem resolveAndSeal_error {r : ActionRecord} {st : Stamp} {body : Text} {σ σ' : Store}
    {e : Error} (h : resolveAndSeal P env r st body σ = (.error e, σ')) :
    OnlyKeys σ σ' ∧ (e = .subjectUnresolved ∨ (∃ c, e = .crypto c) ∨
      (∃ reason, P.resolver r = .refused reason) ∨
      ∃ ss, P.resolver r = .resolved ss ∧ checkSubjects r ss ≠ .ok ()) := by
  unfold resolveAndSeal at h
  cases hres : P.resolver r with
  | unavailable reason =>
    rw [hres] at h
    obtain ⟨rfl, rfl⟩ := fail_eq_error.1 h
    exact ⟨OnlyKeys.refl _, .inl rfl⟩
  | refused reason =>
    rw [hres] at h
    obtain ⟨rfl, rfl⟩ := fail_eq_error.1 h
    exact ⟨OnlyKeys.refl _, .inr (.inr (.inl ⟨reason, rfl⟩))⟩
  | resolved ss =>
    rw [hres] at h
    rcases bind_eq_error.1 h with h1 | ⟨_, σ₁, h1, h⟩
    · obtain ⟨hc, rfl⟩ := ofExcept_eq_error.1 h1
      refine ⟨OnlyKeys.refl _, .inr (.inr (.inr ⟨ss, rfl, ?_⟩))⟩
      rw [hc]
      nofun
    · obtain ⟨-, rfl⟩ := ofExcept_eq_ok.1 h1
      rcases bind_eq_error.1 h with hb | ⟨b, σ₂, hb, h⟩
      · obtain ⟨hk, he | he⟩ := sealBody_error hb
        · exact ⟨hk, .inl he⟩
        · exact ⟨hk, .inr (.inl he)⟩
      · exact absurd h pure_ne_error

/-! ## Admission -/

theorem quarantineSubject_ok (date : Text) : ∃ s, quarantineSubject date = .ok s := by
  have hlen : ∀ ds : Text, ds.length ≤ 64 →
      ("s_".toList ++ ds ++ List.replicate (64 - ds.length) '0').length = 66 := by
    intro ds h
    simp only [List.length_append, List.length_replicate]
    have : ("s_".toList : Text).length = 2 := rfl
    omega
  have hc : isSubjectHash ("s_".toList ++
      (hexEncode (Utf8.encode ("quarantine/".toList ++ date))).take 64 ++
      List.replicate (64 - ((hexEncode (Utf8.encode ("quarantine/".toList ++ date))).take 64).length)
        '0') = true := by
    rw [isSubjectHash, hlen _ (by simp [List.length_take]), List.append_assoc, stripPrefix_append]
    simp only [beq_self_eq_true, Bool.true_and, Option.any_some, List.all_eq_true,
      List.mem_append, List.mem_replicate]
    rintro c (h | ⟨-, rfl⟩)
    · exact mem_hexEncode (List.mem_of_mem_take h)
    · decide
  exact ⟨⟨_, hc⟩, by simp only [quarantineSubject, SubjectHash.parse, hc, dite_true]⟩

/-- The checks a record passes or fails before anything is sealed or written. -/
def precheck (P : Pipeline) (r : ActionRecord) (body : Text) : Except Error Unit := do
  let _ ← destination r
  let r' ← validated P r body
  match P.resolver r' with
  | .unavailable _ => .ok ()
  | .refused reason => .error (invalid reason)
  | .resolved subjects => checkSubjects r' subjects

/-- What a record was admitted as. -/
structure Admitted (P : Pipeline) (r : ActionRecord) (body : Text) (σ : Store) (d : Document)
    (st : Stamp) : Prop where
  stamp : stampOf r = .ok st
  fresh : ∃ dest, publishedPath r st = .ok dest ∧ dest ∉ σ.records
  record : ∃ r' subjects, validated P r body = .ok r' ∧ P.resolver r' = .resolved subjects ∧
    checkSubjects r' subjects = .ok () ∧ d.record = { r' with subjects } ∧
    SettledBody σ.keys r' subjects st body d.body

/-- The spool copy of a record, written as it stands, and its register row. -/
def spooled (P : Pipeline) (env : Env) (r : ActionRecord) (st : Stamp) (block : SealedBody)
    (σ : Store) : Store :=
  { σ with
    quarantine := σ.quarantine.write [recordFile r.recordId]
      (Utf8.encode (Document.render P.yaml ⟨r, .sealed block⟩)) env.now
    index := Index.enqueueQuarantine r.recordId st.date
      (dirPath P ".quarantine" [recordFile r.recordId]) env.now σ.index }

/-- **What admission can do.** -/
inductive AdmitStep (P : Pipeline) (env : Env) (r : ActionRecord) (body : Text) (σ : Store) :
    Except Error Admission → Store → Prop
  | duplicate (dest : Path) (dest_ok : destination r = .ok dest) (taken : dest ∈ σ.records) :
      AdmitStep P env r body σ (.ok .duplicate) σ
  | refused (e : Error) (σ' : Store) (keys : OnlyKeys σ σ')
      (fresh : ∀ dest, destination r = .ok dest → dest ∉ σ.records)
      (why : (e = .subjectUnresolved ∨ ∃ c, e = .crypto c) ∨ precheck P r body ≠ .ok ()) :
      AdmitStep P env r body σ (.error e) σ'
  | held (r' : ActionRecord) (st : Stamp) (block : SealedBody) (σ₁ : Store)
      (stamp : stampOf r = .ok st) (valid : validated P r body = .ok r') (keys : OnlyKeys σ σ₁)
      (epoch : block.epoch = Epoch.containing st.ms) (some_share : block.shares ≠ []) :
      AdmitStep P env r body σ (.ok .held) (spooled P env r' st block σ₁)
  | admitted (d : Document) (st : Stamp) (σ' : Store) (as_ : Admitted P r body σ d st)
      (keys : OnlyKeys σ σ') :
      AdmitStep P env r body σ (.ok (.admitted d st)) σ'

/-- Holding a record back writes its spool copy and its register row, or nothing. -/
theorem quarantine_cases (r : ActionRecord) (st : Stamp) (body : Text) (σ : Store) :
    (∃ σ₁ block, quarantine P env r st body σ = (.ok (), spooled P env r st block σ₁) ∧
      OnlyKeys σ σ₁ ∧ block.epoch = Epoch.containing st.ms ∧ block.shares ≠ []) ∨
    ∃ e σ₁, quarantine P env r st body σ = (.error e, σ₁) ∧ OnlyKeys σ σ₁ ∧
      (e = .subjectUnresolved ∨ ∃ c, e = .crypto c) := by
  obtain ⟨q, hq⟩ := quarantineSubject_ok st.date
  have hq' : (ofExcept (liftContract (quarantineSubject st.date)) : StoreM SubjectHash) σ =
      (.ok q, σ) := by
    rw [hq]
    rfl
  have hkeys := sealUnder_onlyKeys P env env.spool r.recordId [q] (Epoch.containing st.ms) body σ
  cases hs : sealUnder P env env.spool r.recordId [q] (Epoch.containing st.ms) body σ with
  | mk res σ₁ =>
  rw [hs] at hkeys
  cases res with
  | ok block =>
    obtain ⟨h1, -, h3, -⟩ := sealUnder_ok hs
    refine .inl ⟨σ₁, block, ?_, hkeys, h1, h3⟩
    rw [quarantine, bind_of_ok hq', bind_of_ok hs]
    rfl
  | error e =>
    refine .inr ⟨e, σ₁, ?_, hkeys, sealUnder_error hs⟩
    rw [quarantine, bind_of_ok hq', bind_of_error hs]

theorem admission_step (P : Pipeline) (env : Env) (r : ActionRecord) (body : Text) (σ : Store) :
    AdmitStep P env r body σ (admission P env r body σ).1 (admission P env r body σ).2 := by
  cases hst : stampOf r with
  | error e =>
    have h : admission P env r body σ = (.error e, σ) := by rw [admission, hst]; rfl
    rw [h]
    have hdest : destination r = .error e := by rw [destination, hst]; rfl
    refine .refused e σ (OnlyKeys.refl σ) (fun dest hd => ?_) (.inr ?_)
    · rw [hdest] at hd
      cases hd
    · rw [precheck, hdest]
      intro h
      cases h
  | ok st =>
  cases hpath : publishedPath r st with
  | error e =>
    have h : admission P env r body σ = (.error e, σ) := by
      rw [admission, hst, ofExcept_ok_bind, hpath]
      rfl
    rw [h]
    have hdest : destination r = .error e := by rw [destination, hst]; exact hpath
    refine .refused e σ (OnlyKeys.refl σ) (fun dest hd => ?_) (.inr ?_)
    · rw [hdest] at hd
      cases hd
    · rw [precheck, hdest]
      intro h
      cases h
  | ok dest =>
  have hdest : destination r = .ok dest := by rw [destination, hst]; exact hpath
  by_cases hmem : dest ∈ σ.records
  · have h : admission P env r body σ = (.ok .duplicate, σ) := by
      rw [admission, hst, ofExcept_ok_bind, hpath, ofExcept_ok_bind, state_bind, if_pos hmem]
      rfl
    rw [h]
    exact .duplicate dest hdest hmem
  have hfresh : ∀ dest', destination r = .ok dest' → dest' ∉ σ.records := by
    intro dest' hd
    rw [hdest] at hd
    cases hd
    exact hmem
  cases hval : validated P r body with
  | error e =>
    have h : admission P env r body σ = (.error e, σ) := by
      rw [admission, hst, ofExcept_ok_bind, hpath, ofExcept_ok_bind, state_bind, if_neg hmem, hval]
      rfl
    rw [h]
    refine .refused e σ (OnlyKeys.refl σ) hfresh (.inr ?_)
    rw [precheck, hdest, hval]
    intro h
    cases h
  | ok r' =>
  cases hres : resolveAndSeal P env r' st body σ with
  | mk res σ₁ =>
  have hatt : attempt (resolveAndSeal P env r' st body) σ = (.ok res, σ₁) := by
    rw [attempt_apply, hres]
  rcases res with e | ⟨ss, b⟩
  · obtain ⟨hkeys, hwhy⟩ := resolveAndSeal_error hres
    by_cases he : e = .subjectUnresolved
    · subst he
      have h : admission P env r body σ =
          (quarantine P env r' st body >>= fun _ => pure Admission.held) σ₁ := by
        rw [admission, hst, ofExcept_ok_bind, hpath, ofExcept_ok_bind, state_bind, if_neg hmem, hval,
          ofExcept_ok_bind, bind_of_ok hatt]
      rw [h]
      rcases quarantine_cases r' st body σ₁ with ⟨σ₂, block, hq, hk, h1, h2⟩ |
        ⟨e, σ₂, hq, hk, he⟩
      · rw [bind_of_ok hq]
        exact .held r' st block σ₂ hst hval (hkeys.trans hk) h1 h2
      · rw [bind_of_error hq]
        exact .refused e σ₂ (hkeys.trans hk) hfresh (.inl he)
    · have h : admission P env r body σ = (.error e, σ₁) := by
        rw [admission, hst, ofExcept_ok_bind, hpath, ofExcept_ok_bind, state_bind, if_neg hmem, hval,
          ofExcept_ok_bind, bind_of_ok hatt]
        cases e <;> first | rfl | exact absurd rfl he
      rw [h]
      refine .refused e σ₁ hkeys hfresh ?_
      rcases hwhy with h | h | ⟨reason, h⟩ | ⟨ss, h, hc⟩
      · exact .inl (.inl h)
      · exact .inl (.inr h)
      · refine .inr ?_
        simp [precheck, hdest, hval, h, bind, Except.bind]
      · refine .inr ?_
        simpa [precheck, hdest, hval, h, bind, Except.bind] using hc
  · have h : admission P env r body σ =
        (.ok (.admitted ⟨{ r' with subjects := ss }, b⟩ st), σ₁) := by
      rw [admission, hst, ofExcept_ok_bind, hpath, ofExcept_ok_bind, state_bind, if_neg hmem, hval,
        ofExcept_ok_bind, bind_of_ok hatt]
      rfl
    rw [h]
    obtain ⟨k1, k2, k3, k4⟩ := resolveAndSeal_ok hres
    exact .admitted _ st σ₁ ⟨hst, ⟨dest, hpath, hmem⟩, r', ss, hval, k1, k2, rfl, k3⟩ k4

/-! ## Staging, publishing, committing -/

/-- The bytes of a document's file. -/
def fileBytes (P : Pipeline) (d : Document) : Bytes := Utf8.encode (Document.render P.yaml d)

/-- The name of a document's staged copy. -/
def stagedPath (d : Document) : Path := [recordFile d.record.recordId]

/-- The store with a document staged. -/
def stagedIn (P : Pipeline) (env : Env) (d : Document) (σ : Store) : Store :=
  { σ with staging := σ.staging.write (stagedPath d) (fileBytes P d) env.now }

/-- The store with a document staged and published at a path. -/
def placedIn (P : Pipeline) (env : Env) (d : Document) (dest : Path) (σ : Store) : Store :=
  { σ with
    staging := (σ.staging.write (stagedPath d) (fileBytes P d) env.now).erase (stagedPath d)
    records := σ.records.insert dest ⟨fileBytes P d, env.now⟩ }

theorem stage_apply (d : Document) (σ : Store) :
    stage P env d σ = (.ok (stagedPath d), stagedIn P env d σ) := rfl

theorem place_of_staged {d : Document} {staged dest : Path} {st : Stamp} {σ : Store} {f : File}
    (hdest : publishedPath d.record st = .ok dest) (hf : σ.staging.lookup staged = some f) :
    place d staged st σ = (.ok dest,
      { σ with staging := σ.staging.erase staged, records := σ.records.insert dest f }) := by
  rw [place, hdest, ofExcept_ok_bind, state_bind, Tree.rename, hf]
  rfl

theorem place_stagedIn {d : Document} {st : Stamp} {dest : Path}
    (hdest : publishedPath d.record st = .ok dest) (σ : Store) :
    place d (stagedPath d) st (stagedIn P env d σ) = (.ok dest, placedIn P env d dest σ) := by
  refine place_of_staged hdest ?_
  rw [stagedIn, Tree.write, AList.lookup_insert]

theorem commit_ok {d : Document} {row : Index.RecordRow} {ms : ℤ} {σ : Store}
    (hrow : Index.Publishable (publishInput d) row)
    (hms : Index.receivedMsOf d.record.recordId (Index.insertRecord row σ.index.records) = some ms) :
    commit d σ = (.ok (), { σ with index := Index.published (publishInput d) row ms σ.index }) := by
  have hpub : publishDocument d σ.index =
      (.ok (), Index.published (publishInput d) row ms σ.index) :=
    Index.publish_eq_ok.2 ⟨row, ms, hrow, hms, rfl⟩
  simp [commit, indexed, zoom, mapError, atomically, hpub]

/-- What committing a document can do: its rows, or nothing when the index refuses
    it. -/
theorem commit_cases (d : Document) (σ : Store) :
    (∃ row ms, Index.Publishable (publishInput d) row ∧
      Index.receivedMsOf d.record.recordId (Index.insertRecord row σ.index.records) = some ms ∧
      commit d σ = (.ok (), { σ with index := Index.published (publishInput d) row ms σ.index })) ∨
    ((∀ row, ¬ Index.Publishable (publishInput d) row) ∧ ∃ e, commit d σ = (.error (.store e), σ)) := by
  by_cases h : ∃ row, Index.Publishable (publishInput d) row
  · obtain ⟨row, hrow⟩ := h
    obtain ⟨ms, hms⟩ := Index.receivedMsOf_insertRecord row σ.index.records
    rw [(Index.recordRow_ok hrow.row).1] at hms
    exact .inl ⟨row, ms, hrow, hms, commit_ok hrow hms⟩
  · rw [not_exists] at h
    refine .inr ⟨h, ?_⟩
    cases hp : publishDocument d σ.index with
    | mk res i =>
    cases res with
    | ok u =>
      obtain ⟨row, -, hrow, -⟩ := Index.publish_eq_ok.1 hp
      exact absurd hrow (h row)
    | error e =>
      refine ⟨e, ?_⟩
      simp [commit, indexed, zoom, mapError, atomically, hp]

theorem settleQuarantine_apply (id : RecordId) (σ : Store) :
    settleQuarantine id σ = (.ok (),
      { σ with
        quarantine := σ.quarantine.erase [recordFile id]
        index := Index.dequeueQuarantine id σ.index }) := rfl

/-- The store with a document published, indexed and settled. -/
def settledIn (P : Pipeline) (env : Env) (d : Document) (dest : Path) (row : Index.RecordRow)
    (ms : ℤ) (σ : Store) : Store :=
  { placedIn P env d dest σ with
    quarantine := σ.quarantine.erase (stagedPath d)
    index := Index.dequeueQuarantine d.record.recordId
      (Index.published (publishInput d) row ms σ.index) }

theorem Admitted.dest {r : ActionRecord} {body : Text} {σ : Store} {d : Document} {st : Stamp}
    (h : Admitted P r body σ d st) :
    ∃ dest, publishedPath d.record st = .ok dest ∧ publishedPath r st = .ok dest ∧
      dest ∉ σ.records ∧ destination r = .ok dest ∧ d.record.recordId = r.recordId := by
  obtain ⟨dest, hdest, hfresh⟩ := h.fresh
  obtain ⟨r', ss, hval, -, -, hrec, -⟩ := h.record
  have hp := (validated_ok hval).place
  refine ⟨dest, ?_, hdest, hfresh, bind_ok.2 ⟨st, h.stamp, hdest⟩, ?_⟩
  · rw [hrec, ← hdest]
    simp only [publishedPath, hp.visibility, hp.agent, hp.recordId]
  · rw [hrec]
    exact hp.recordId

/-- **What accepting a record can do.** -/
inductive AcceptStep (P : Pipeline) (env : Env) (r : ActionRecord) (body : Text) (σ : Store) :
    Except Error Accepted → Store → Prop
  | duplicate (dest : Path) (dest_ok : destination r = .ok dest) (taken : dest ∈ σ.records) :
      AcceptStep P env r body σ (.ok (.duplicate r.recordId)) σ
  | refused (e : Error) (σ' : Store) (keys : OnlyKeys σ σ')
      (fresh : ∀ dest, destination r = .ok dest → dest ∉ σ.records)
      (why : (e = .subjectUnresolved ∨ ∃ c, e = .crypto c) ∨ precheck P r body ≠ .ok ()) :
      AcceptStep P env r body σ (.error e) σ'
  | held (r' : ActionRecord) (st : Stamp) (block : SealedBody) (σ₁ : Store)
      (stamp : stampOf r = .ok st) (valid : validated P r body = .ok r') (keys : OnlyKeys σ σ₁)
      (epoch : block.epoch = Epoch.containing st.ms) (some_share : block.shares ≠ []) :
      AcceptStep P env r body σ (.ok (.quarantined r.recordId)) (spooled P env r' st block σ₁)
  | unindexed (d : Document) (st : Stamp) (dest : Path) (σ₁ : Store) (e : Index.Error)
      (as_ : Admitted P r body σ d st) (keys : OnlyKeys σ σ₁)
      (dest_ok : destination r = .ok dest) (fresh : dest ∉ σ.records)
      (refused : ∀ row, ¬ Index.Publishable (publishInput d) row) :
      AcceptStep P env r body σ (.error (.store e)) (placedIn P env d dest σ₁)
  | stored (d : Document) (st : Stamp) (dest : Path) (σ₁ : Store) (row : Index.RecordRow) (ms : ℤ)
      (as_ : Admitted P r body σ d st) (keys : OnlyKeys σ σ₁)
      (dest_ok : destination r = .ok dest) (fresh : dest ∉ σ.records)
      (publishable : Index.Publishable (publishInput d) row)
      (received : Index.receivedMsOf d.record.recordId
        (Index.insertRecord row σ.index.records) = some ms) :
      AcceptStep P env r body σ (.ok (.stored r.recordId)) (settledIn P env d dest row ms σ₁)

theorem accept_step (P : Pipeline) (env : Env) (r : ActionRecord) (body : Text) (σ : Store) :
    AcceptStep P env r body σ (accept P env r body σ).1 (accept P env r body σ).2 := by
  have hstep := admission_step P env r body σ
  rw [accept]
  cases hadm : admission P env r body σ with
  | mk res σ₁ =>
  rw [hadm] at hstep
  rw [bind_apply, hadm]
  cases hstep with
  | duplicate dest h1 h2 => exact .duplicate dest h1 h2
  | refused e _ h1 h2 h3 => exact .refused e σ₁ h1 h2 h3
  | held r' st block σ₂ h1 h2 h3 h4 h5 => exact .held r' st block σ₂ h1 h2 h3 h4 h5
  | admitted d st _ h hk =>
    obtain ⟨dest, hdest, -, hfresh, hdr, hid⟩ := h.dest
    obtain ⟨t, rfl, ht⟩ := hk
    simp only [bind_of_ok (stage_apply _ _), bind_of_ok (place_stagedIn hdest _)]
    rcases commit_cases d (placedIn P env d dest { σ with keys := t }) with
      ⟨row, ms, hrow, hms, hc⟩ | ⟨hno, e, hc⟩
    · rw [bind_of_ok hc, bind_of_ok (settleQuarantine_apply _ _)]
      exact .stored d st dest _ row ms h ⟨t, rfl, ht⟩ hdr hfresh hrow hms
    · rw [bind_of_error hc]
      exact .unindexed d st dest _ e h ⟨t, rfl, ht⟩ hdr hfresh hno

end Yaam.Core
