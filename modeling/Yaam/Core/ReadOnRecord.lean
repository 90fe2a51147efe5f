/-
  No body is read without a record of the reading.

  * `readWatched` is the audited read with every key it asks for noted, each of its steps
    under a fate: `readWatched_forgets` says that it is the read when no step fails;
  * `Reached` is what such a read, cut anywhere, leaves behind;
  * `read_on_record`: every key is asked for in a store that has the audit record on
    file and in its index, what is revealed is what was sealed, and no later pass takes
    the audit record away.
-/
import Yaam.Core.Sole
import Yaam.Lib.Watch

namespace Yaam.Core

open Text Contract Crypto Md Eff

/-! ## The read, watched -/

/-- The steps of a read that a failing operation or a crash can stop. -/
inductive ReadStep where
  | inspect
  | dedupe
  | resolve
  | holdKey
  | holdFile
  | holdRow
  | stage
  | place
  | commit
  | unspool
  | dequeue
  | locate
  | fetch (i : ℕ)
  | answer
deriving DecidableEq

/-- A key asked of the key store. -/
structure Fetch where
  subject : SubjectHash
  epoch : Epoch
deriving DecidableEq

/-- A computation over the store that notes the keys it asks for. -/
abbrev WatchM := Eff (Watch Store Fetch) Error

section
variable (P : Pipeline) (O : Openers) (env : Env) (F : ReadStep → Fate Error)

/-- One step of a read. -/
def step {α : Type} (s : ReadStep) (x : StoreM α) : WatchM α := under (F s) (watched x)

/-- The keys that sealing a record's body asks for: none for an internal record. -/
def noteSealing (r : ActionRecord) (st : Stamp) : WatchM Unit :=
  match P.resolver r with
  | .resolved subjects =>
    if r.dataClass = .internal then return ()
    else forM subjects fun s => note ⟨s.hash, Epoch.containing st.ms⟩
  | _ => return ()

/-- Holds a record back, sealed, as `quarantine` does. -/
def quarantineWatched (r : ActionRecord) (st : Stamp) (body : Text) : WatchM Unit := do
  let subject ← ofExcept (liftContract (quarantineSubject st.date))
  note ⟨subject, Epoch.containing st.ms⟩
  let block ← step F .holdKey
    (sealUnder P env env.spool r.recordId [subject] (Epoch.containing st.ms) body)
  let path := [recordFile r.recordId]
  let bytes := Utf8.encode (Document.render P.yaml ⟨r, .sealed block⟩)
  step F .holdFile (change fun s => { s with quarantine := s.quarantine.write path bytes env.now })
  step F .holdRow (indexed (change (Index.enqueueQuarantine r.recordId st.date
    (dirPath P ".quarantine" path) env.now)))

/-- Whether a path is taken in the record tree. -/
def taken (dest : Path) : StoreM Bool := return decide (dest ∈ (← state).records)

/-- Resolves and seals a validated record, or holds it back. -/
def settleWatched (record : ActionRecord) (st : Stamp) (body : Text) : WatchM Admission := do
  noteSealing P record st
  match ← step F .resolve (attempt (resolveAndSeal P env record st body)) with
  | .error .subjectUnresolved => do
    quarantineWatched P env F record st body
    return .held
  | .error e => fail e
  | .ok (subjects, sealedBody) => return .admitted ⟨{ record with subjects }, sealedBody⟩ st

/-- Dedupe, validation, resolution and sealing, as `admission` does them. -/
def admissionWatched (r : ActionRecord) (body : Text) : WatchM Admission := do
  let st ← ofExcept (stampOf r)
  let dest ← ofExcept (publishedPath r st)
  if ← step F .dedupe (taken dest) then return .duplicate
  else
    let record ← ofExcept (validated P r body)
    settleWatched P env F record st body

/-- Stages, publishes, indexes and settles an admitted document. -/
def publishWatched (d : Document) (st : Stamp) : WatchM Unit := do
  let staged ← step F .stage (stage P env d)
  let _ ← step F .place (place d staged st)
  step F .commit (commit d)
  step F .unspool (change fun s =>
    { s with quarantine := s.quarantine.erase [recordFile d.record.recordId] })
  step F .dequeue (indexed (change (Index.dequeueQuarantine d.record.recordId)))

/-- The write path, as `accept` runs it. -/
def acceptWatched (r : ActionRecord) (body : Text) : WatchM Accepted := do
  match ← admissionWatched P env F r body with
  | .duplicate => return .duplicate r.recordId
  | .held => return .quarantined r.recordId
  | .admitted d st => do
    publishWatched P env F d st
    return .stored r.recordId

/-- Fetches the shares' keys one by one; a fetch that fails ends it. -/
def fetchShares (epoch : Epoch) : ℕ → List WrappedShare → WatchM (Except Error (List BareShare))
  | _, [] => return .ok []
  | i, share :: shares => do
    note ⟨share.subject, epoch⟩
    match F (.fetch i) with
    | .fails e => return .error e
    | fate => do
      match ← under fate (watched (attempt (keyed (unsealShare O (P.keys env) epoch share)))) with
      | .error e => return .error e
      | .ok b => do
        match ← fetchShares epoch (i + 1) shares with
        | .error e => return .error e
        | .ok bs => return .ok (b :: bs)

/-- What the shares open. -/
def openBody (record : RecordId) (block : SealedBody) (bare : List BareShare) : Except Error Bytes :=
  Except.mapError .crypto do
    let subjects ← canonicalSubjects (bare.map (·.subject))
    let dek ← derive P.ciphers record bare
    decrypt O dek block.nonce (associatedData P.ciphers record subjects) block.ciphertext

/-- Fetches every key and decrypts. -/
def unsealWatched (record : RecordId) (block : SealedBody) : WatchM (Except Error Bytes) := do
  match ← fetchShares P O env F block.epoch 0 block.shares with
  | .error e => return .error e
  | .ok bare => return openBody P O record block bare

def revealWatched (record audit : RecordId) : WatchM Read := do
  let d ← step F .locate (locateForRead P record)
  match d.body with
  | .plain _ => return .plain
  | .sealed block => do
    let opened ← unsealWatched P O env F record block
    step F .answer (answerUnsealed P record audit block opened)

/-- The audited read, with the keys it asks for noted and each step under its fate. -/
def readWatched (record : RecordId) (operator reason : Text) : WatchM Read := do
  let operator ← ofExcept (namedOperator operator)
  let reason ← ofExcept (statedReason reason)
  match ← step F .inspect (inspect P record) with
  | .sealed subjects epoch _ [] => do
    let audit := auditRecord P env record subjects.length epoch operator reason
    match ← acceptWatched P env F audit audit.summary with
    | .stored _ => revealWatched P O env F record audit.recordId
    | .duplicate id => fail (auditNotPublished id record)
    | .quarantined id => fail (auditNotPublished id record)
  | .sealed subjects _ _ found => return .shredded subjects found none
  | .shredded subjects found => return .shredded subjects found none
  | .plain => return .plain
  | .absent a => return .absent a

end

/-! ## Nothing fails -/

/-- Every step goes as it should. -/
def noFault : ReadStep → Fate Error := fun _ => .runs

variable {P : Pipeline} {O : Openers} {env : Env}

theorem keyed_bind {α β : Type} (x : Eff Tree Crypto.Error α) (f : α → Eff Tree Crypto.Error β) :
    keyed (x >>= f) = keyed x >>= fun a => keyed (f a) := by
  funext σ
  simp only [keyed, zoom, mapError, bind_apply]
  cases x σ.keys with
  | mk r t => cases r <;> rfl

theorem keyed_ofExcept {α : Type} (x : Except Crypto.Error α) :
    keyed (Eff.ofExcept x) = Eff.ofExcept (x.mapError Error.crypto) := by
  cases x <;> rfl

theorem ofExcept_bind_ofExcept {σ ε α β : Type} (x : Except ε α) (f : α → Except ε β) :
    (ofExcept x >>= fun a => ofExcept (f a) : Eff σ ε β) = ofExcept (x >>= f) := by
  cases x <;> rfl

theorem step_forgets {α : Type} (s : ReadStep) (x : StoreM α) : Forgets (step noFault s x) x :=
  (Forgets.watched x).under

theorem noteSealing_forgets (r : ActionRecord) (st : Stamp) :
    Forgets (noteSealing P r st) (pure ()) := by
  have hall : ∀ ss : List SubjectRef, Forgets
      (ss.forM fun s => (note ⟨s.hash, Epoch.containing st.ms⟩ : WatchM Unit)) (pure ()) := by
    intro ss
    induction ss with
    | nil => exact Forgets.pure _
    | cons s ss ih => exact Forgets.note _ ih
  unfold noteSealing
  cases P.resolver r with
  | resolved ss =>
    dsimp only
    split_ifs
    · exact Forgets.pure _
    · exact hall ss
  | unavailable reason => exact Forgets.pure _
  | refused reason => exact Forgets.pure _

theorem taken_bind {α : Type} (dest : Path) (x y : StoreM α) :
    (do if dest ∈ (← state).records then x else y) =
      taken dest >>= fun b => if b = true then x else y := by
  funext σ
  by_cases h : dest ∈ σ.records
  · simp [taken, h]
  · simp [taken, h]

theorem quarantineWatched_forgets (r : ActionRecord) (st : Stamp) (body : Text) :
    Forgets (quarantineWatched P env noFault r st body) (quarantine P env r st body) :=
  (Forgets.ofExcept _).bind fun _ => Forgets.note _ <| (step_forgets _ _).bind fun _ =>
    (step_forgets _ _).bind fun _ => step_forgets _ _

theorem admissionWatched_forgets (r : ActionRecord) (body : Text) :
    Forgets (admissionWatched P env noFault r body) (admission P env r body) := by
  refine (Forgets.ofExcept _).bind fun st => (Forgets.ofExcept _).bind fun dest => ?_
  rw [taken_bind]
  refine (step_forgets .dedupe (taken dest)).bind fun b => ?_
  cases b with
  | true => exact Forgets.pure _
  | false =>
    refine (Forgets.ofExcept _).bind fun record => ?_
    unfold settleWatched
    refine (noteSealing_forgets record st).silent ?_
    refine (step_forgets .resolve _).bind fun res => ?_
    match res with
    | .error .subjectUnresolved => exact (quarantineWatched_forgets _ _ _).bind fun _ => Forgets.pure _
    | .error (.invalid e) => exact Forgets.fail _
    | .error (.crypto e) => exact Forgets.fail _
    | .error (.store e) => exact Forgets.fail _
    | .error (.markdown e) => exact Forgets.fail _
    | .error (.held s holds) => exact Forgets.fail _
    | .error (.io e) => exact Forgets.fail _
    | .ok (subjects, sealedBody) => exact Forgets.pure _

theorem acceptWatched_forgets (r : ActionRecord) (body : Text) :
    Forgets (acceptWatched P env noFault r body) (accept P env r body) := by
  refine (admissionWatched_forgets r body).bind fun a => ?_
  cases a with
  | duplicate => exact Forgets.pure _
  | held => exact Forgets.pure _
  | admitted d st =>
    dsimp only
    rw [publishWatched]
    simp only [settleQuarantine, bind_assoc]
    refine (step_forgets .stage _).bind fun staged => (step_forgets .place _).bind fun _ => ?_
    refine (step_forgets .commit _).bind fun _ => (step_forgets .unspool _).bind fun _ => ?_
    exact (step_forgets .dequeue _).bind fun _ => Forgets.pure _

/-- Fetching and unwrapping share after share is what unsealing the shares does. -/
theorem fetchShares_forgets (epoch : Epoch) (i : ℕ) (shares : List WrappedShare) :
    Forgets (fetchShares P O env noFault epoch i shares)
      (attempt (keyed (unsealShares O (P.keys env) epoch shares))) := by
  induction shares generalizing i with
  | nil => exact Forgets.pure _
  | cons share shares ih =>
    rw [unsealShares, keyed_bind, attempt_bind]
    refine Forgets.note _ ((Forgets.watched _).under.bind fun res => ?_)
    cases res with
    | error e => exact Forgets.pure _
    | ok b =>
      dsimp only
      rw [keyed_bind, attempt_bind]
      refine (ih (i + 1)).bind fun res => ?_
      cases res with
      | error e => exact Forgets.pure _
      | ok bs => exact Forgets.pure _

theorem attempt_openBody (record : RecordId) (block : SealedBody) (bare : List BareShare) :
    attempt (keyed (do
      let subjects ← ofExcept (canonicalSubjects (bare.map (·.subject)))
      let dek ← ofExcept (derive P.ciphers record bare)
      ofExcept (decrypt O dek block.nonce (associatedData P.ciphers record subjects)
        block.ciphertext))) = pure (openBody P O record block bare) := by
  simp only [ofExcept_bind_ofExcept, keyed_ofExcept]
  rfl

theorem unsealWatched_forgets (record : RecordId) (block : SealedBody) :
    Forgets (unsealWatched P O env noFault record block)
      (attempt (keyed («unseal» P.ciphers O (P.keys env) record block))) := by
  rw [«unseal», keyed_bind, attempt_bind]
  refine (fetchShares_forgets block.epoch 0 block.shares).bind fun res => ?_
  cases res with
  | error e => exact Forgets.pure _
  | ok bare =>
    dsimp only
    rw [attempt_openBody]
    exact Forgets.pure _

/-- **When nothing fails, the watched read is the read.** -/
theorem readWatched_forgets (record : RecordId) (operator reason : Text) :
    Forgets (readWatched P O env noFault record operator reason)
      (readBody P O env record operator reason) := by
  have hreveal : ∀ audit, Forgets (revealWatched P O env noFault record audit)
      (reveal P O env record audit) := by
    intro audit
    refine (step_forgets .locate _).bind fun d => ?_
    cases d.body with
    | plain t => exact Forgets.pure _
    | «sealed» block =>
      exact (unsealWatched_forgets record block).bind fun opened => step_forgets .answer _
  refine (Forgets.ofExcept _).bind fun operator => (Forgets.ofExcept _).bind fun reason => ?_
  refine (step_forgets .inspect _).bind fun held => ?_
  match held with
  | .sealed subjects epoch _ [] =>
    refine (acceptWatched_forgets _ _).bind fun accepted => ?_
    cases accepted with
    | stored id => exact hreveal _
    | duplicate id => exact Forgets.fail _
    | quarantined id => exact Forgets.fail _
  | .sealed subjects _ _ (_ :: _) => exact Forgets.pure _
  | .shredded subjects found => exact Forgets.pure _
  | .plain => exact Forgets.pure _
  | .absent a => exact Forgets.pure _

/-! ## What a step leaves -/

variable {F : ReadStep → Fate Error} {σ : Store} {record : RecordId} {operator : Text}

/-- An operation does what it does, or stops before it or after it. -/
theorem fate_triple {α : Type} (fate : Fate Error) (x : StoreM α) (σ : Store)
    (seen : List (Fetch × Store)) :
    Triple (fun v => v = ⟨σ, seen⟩) (under fate (watched x))
      (fun a v => x σ = (.ok a, v.state) ∧ v.seen = seen)
      (fun _ v => v.seen = seen ∧ (v.state = σ ∨ v.state = (x σ).2)) := by
  have hrun : Triple (fun τ => τ = σ) x (fun a τ => x σ = (.ok a, τ)) (fun _ τ => τ = (x σ).2) := by
    refine Triple.of_cases (fun τ τ' a hτ hx => ?_) fun τ τ' e hτ hx => ?_
    · rw [← hτ, hx]
    · rw [← hτ, hx]
  refine Triple.under ((Triple.watched hrun seen).conseq ?_ (fun _ _ h => h) ?_) ?_ ?_ fate
  · rintro v rfl
    exact ⟨rfl, rfl⟩
  · rintro e v ⟨h1, h2⟩
    exact ⟨h2, .inr h1⟩
  · rintro v e rfl
    exact ⟨rfl, .inl rfl⟩
  · rintro a v e ⟨h1, h2⟩
    exact ⟨h2, .inr (by rw [h1])⟩

/-- A step that writes: a failure is in order before it and after it. -/
theorem step_writes {α : Type} (s : ReadStep) {x : StoreM α} {σ σ' : Store} {a : α}
    {seen : List (Fetch × Store)} {E : Error → Watch Store Fetch → Prop} (hx : x σ = (.ok a, σ'))
    (hbefore : ∀ e, E e ⟨σ, seen⟩) (hafter : ∀ e, E e ⟨σ', seen⟩) :
    Triple (fun v => v = ⟨σ, seen⟩) (step F s x) (fun b v => b = a ∧ v = ⟨σ', seen⟩) E := by
  refine (fate_triple (F s) x σ seen).conseq (fun _ h => h) ?_ ?_
  · rintro b ⟨τ, n⟩ ⟨h, rfl⟩
    rw [hx] at h
    obtain ⟨h1, rfl⟩ := Prod.mk.inj h
    exact ⟨(Except.ok.inj h1).symm, rfl⟩
  · rintro e ⟨τ, n⟩ ⟨rfl, h⟩
    rw [hx] at h
    rcases h with rfl | rfl
    · exact hbefore e
    · exact hafter e

/-- An operation that only reads leaves the store, whatever becomes of it. -/
theorem fate_reads {α : Type} (fate : Fate Error) {x : StoreM α} {σ : Store}
    {seen : List (Fetch × Store)} (hx : (x σ).2 = σ) :
    Triple (fun v => v = ⟨σ, seen⟩) (under fate (watched x))
      (fun a v => x σ = (.ok a, σ) ∧ v = ⟨σ, seen⟩) (fun _ v => v = ⟨σ, seen⟩) := by
  refine (fate_triple fate x σ seen).conseq (fun _ h => h) ?_ ?_
  · rintro a ⟨τ, n⟩ ⟨h1, rfl⟩
    obtain rfl : σ = τ := by rw [← hx, h1]
    exact ⟨h1, rfl⟩
  · rintro e ⟨τ, n⟩ ⟨rfl, h⟩
    rw [hx, or_self] at h
    rw [show τ = σ from h]

theorem step_reads {α : Type} (s : ReadStep) {x : StoreM α} {σ : Store} {seen : List (Fetch × Store)}
    (hx : (x σ).2 = σ) : Triple (fun v => v = ⟨σ, seen⟩) (step F s x)
      (fun a v => x σ = (.ok a, σ) ∧ v = ⟨σ, seen⟩) (fun _ v => v = ⟨σ, seen⟩) :=
  fate_reads (F s) hx

/-! ## What is found before any key is asked for -/

/-- The document a record's identifier is found at. -/
def Found (P : Pipeline) (σ : Store) (record : RecordId) (d : Document) : Prop :=
  ∃ q text, (locateRecords σ.records).lookup record.text = some q ∧
    σ.records.readToString q = .ok text ∧ Document.parse P.yaml text = .ok d

theorem locateForRead_found {d : Document} (h : Found P σ record d) :
    locateForRead P record σ = (.ok d, σ) := by
  obtain ⟨q, text, hq, hread, hd⟩ := h
  rw [locateForRead, state_bind, hq]
  dsimp only
  rw [readFile, bind_assoc, state_bind, hread]
  dsimp only
  rw [pure_bind, liftMd, hd]
  rfl

theorem erasuresIn_keeps {I : Store → Prop} (log : List Tombstone) (ss : List SubjectHash) :
    Keeps I (erasuresIn log ss) := by
  induction ss with
  | nil => exact Keeps.pure _
  | cons s ss ih =>
    refine (isTombstoned_keeps s).bind fun marked => ih.bind fun rest => ?_
    split_ifs
    · exact Keeps.pure _
    · exact Keeps.pure _

theorem erasures_keeps {I : Store → Prop} (ss : List SubjectHash) : Keeps I (erasures P ss) :=
  readLog_keeps.bind fun log => erasuresIn_keeps log ss

/-- Inspecting a record reads only. -/
theorem inspect_state (P : Pipeline) (record : RecordId) (σ : Store) :
    (inspect P record σ).2 = σ := by
  have h : Keeps (fun τ => τ = σ) (inspect P record) := by
    refine Keeps.state.bind fun u => ?_
    cases (locateRecords u.records).lookup record.text with
    | none =>
      exact (Keeps.state.bind fun _ => (coldRecords_keeps _ _ _).bind fun _ => Keeps.pure _).bind
        fun _ => Keeps.pure _
    | some q =>
      refine (readFile_keeps _ _).bind fun text => (Keeps.ofExcept _).bind fun d => ?_
      cases d.body with
      | «sealed» block => exact (erasures_keeps _).bind fun _ => Keeps.pure _
      | plain t =>
        dsimp only
        split_ifs
        · exact (erasures_keeps _).bind fun _ => Keeps.pure _
        · exact Keeps.pure _
  exact h σ rfl

/-- A body reported sealed is that of the document found. -/
theorem inspect_sealed {subjects : List SubjectHash} {epoch : Text} {bytes : ℕ}
    {found : List Erasure} {σ' : Store}
    (h : inspect P record σ = (.ok (.sealed subjects epoch bytes found), σ')) :
    ∃ d block, Found P σ record d ∧ d.body = .sealed block := by
  rw [inspect, state_bind] at h
  cases hl : (locateRecords σ.records).lookup record.text with
  | none =>
    rw [hl] at h
    obtain ⟨a, σ₁, -, h⟩ := bind_eq_ok.1 h
    obtain ⟨h, -⟩ := pure_eq_ok.1 h
    cases h
  | some q =>
    rw [hl] at h
    dsimp only at h
    obtain ⟨text, σ₁, htext, h⟩ := bind_eq_ok.1 h
    obtain ⟨d, σ₂, hd, h⟩ := bind_eq_ok.1 h
    obtain ⟨hd', rfl⟩ := ofExcept_eq_ok.1 hd
    have hread : σ.records.readToString q = .ok text := by
      rw [readFile, state_bind] at htext
      cases hr : σ.records.readToString q with
      | error e =>
        rw [hr] at htext
        exact absurd htext fail_ne_ok
      | ok t =>
        rw [hr] at htext
        rw [(pure_eq_ok.1 htext).1]
    cases hb : d.body with
    | «sealed» block => exact ⟨d, block, ⟨q, text, hl, hread, mapError_ok.1 hd'⟩, hb⟩
    | plain t =>
      rw [hb] at h
      dsimp only at h
      split_ifs at h
      · obtain ⟨a, σ₃, -, h⟩ := bind_eq_ok.1 h
        obtain ⟨h, -⟩ := pure_eq_ok.1 h
        cases h
      · obtain ⟨h, -⟩ := pure_eq_ok.1 h
        cases h

/-! ## The audit record -/

/-- A document is the record of a reading: who read which record, under which name. -/
structure AuditOf (env : Env) (record : RecordId) (operator : Text) (d : Document) : Prop where
  recordId : d.record.recordId = env.ulid
  action : d.record.action = auditAction
  visibility : d.record.visibility = .operator
  dataClass : d.record.dataClass = .internal
  agent : d.record.agent = trim operator
  body : ∃ before after, d.body = .plain (before ++ ("[[record:".toList ++ record.text ++ "]]".toList) ++ after)

theorem AuditOf.isPlain {d : Document} (h : AuditOf env record operator d) : isPlain d = true := by
  obtain ⟨before, after, hb⟩ := h.body
  simp [Core.isPlain, hb]

/-- An audit record as it is presented for a reading. -/
def IsAudit (P : Pipeline) (env : Env) (record : RecordId) (operator : Text) (r : ActionRecord) : Prop :=
  ∃ keysUsed epoch reason, r = auditRecord P env record keysUsed epoch (trim operator) reason

theorem append_around {α : Type} (a b c c' d e e' r₁ r₂ r₃ r₄ r₅ r₆ r₇ : List α) :
    a ++ b ++ (c ++ c') ++ d ++ (e ++ e') ++ r₁ ++ r₂ ++ r₃ ++ r₄ ++ r₅ ++ r₆ ++ r₇ =
      (a ++ b ++ c) ++ (c' ++ d ++ e) ++ (e' ++ r₁ ++ r₂ ++ r₃ ++ r₄ ++ r₅ ++ r₆ ++ r₇) := by
  simp only [List.append_assoc]

/-- What an audit record says names the record that was read. -/
theorem auditSummary_names (record : RecordId) (keysUsed : ℕ) (epoch operator reason : Text) :
    ∃ before after, auditSummary record keysUsed epoch operator reason =
      before ++ ("[[record:".toList ++ record.text ++ "]]".toList) ++ after := by
  have hopen : "` was granted a decrypt of [[record:".toList =
      "` was granted a decrypt of ".toList ++ "[[record:".toList := by decide
  have hclose : "]].\n\nreason: ".toList = "]]".toList ++ ".\n\nreason: ".toList := by decide
  unfold auditSummary
  generalize "` was granted a decrypt of [[record:".toList = granted at hopen ⊢
  generalize "]].\n\nreason: ".toList = stated at hclose ⊢
  subst hopen hclose
  generalize "[[record:".toList = link
  generalize "]]".toList = close
  exact ⟨_, _, append_around _ _ _ _ _ _ _ _ _ _ _ _ _ _⟩

theorem validated_action {r r' : ActionRecord} {body : Text} (h : validated P r body = .ok r') :
    r'.action = r.action := by
  obtain ⟨_, -, h⟩ := Contract.bind_ok.1 h
  obtain ⟨_, -, h⟩ := Contract.bind_ok.1 h
  obtain ⟨_, -, h⟩ := Contract.bind_ok.1 h
  obtain ⟨_, -, h⟩ := Contract.bind_ok.1 h
  obtain ⟨_, -, h⟩ := Contract.bind_ok.1 h
  obtain ⟨es, -, h⟩ := Contract.bind_ok.1 h
  obtain ⟨_, -, h⟩ := Contract.bind_ok.1 h
  obtain ⟨_, -, h⟩ := Contract.bind_ok.1 h
  cases h
  rfl

/-- The document an audit record is admitted as. -/
theorem Admitted.auditOf {r : ActionRecord} {d : Document} {st : Stamp}
    (h : Admitted P r r.summary σ d st) (hr : IsAudit P env record operator r) :
    AuditOf env record operator d := by
  obtain ⟨keysUsed, epoch, reason, rfl⟩ := hr
  obtain ⟨r', ss, hval, -, -, hrec, hbody⟩ := h.record
  have hv := validated_ok hval
  have hclass : r'.dataClass = .internal := hv.dataClass
  refine ⟨?_, ?_, ?_, ?_, ?_, ?_⟩
  · rw [hrec]
    exact hv.place.recordId
  · rw [hrec]
    exact validated_action hval
  · rw [hrec]
    exact hv.place.visibility
  · rw [hrec]
    exact hclass
  · rw [hrec]
    exact hv.place.agent
  · have hplain : d.body = .plain (auditSummary record keysUsed epoch (trim operator) reason) := by
      generalize d.body = b at hbody
      cases hbody with
      | plain => rfl
      | dropped hd => exact absurd (hclass.symm.trans hd) (by decide)
      | «sealed» hd => exact absurd (hclass.symm.trans hd) (by decide)
    obtain ⟨before, after, hsummary⟩ := auditSummary_names record keysUsed epoch (trim operator) reason
    exact ⟨before, after, by rw [hplain, hsummary]⟩

theorem auditSummary_last (record : RecordId) (keysUsed : ℕ) (epoch operator reason : Text) :
    (auditSummary record keysUsed epoch operator reason).getLast? = some '\n' := by
  have hlast : ∀ text last : Text, last.getLast? = some '\n' →
      (text ++ last).getLast? = some '\n' := by
    intro text last h
    rw [List.getLast?_append, h]
    rfl
  unfold auditSummary
  refine hlast _ _ ?_
  rw [String.toList_append]
  refine hlast _ _ ?_
  simp

theorem auditSummary_first (record : RecordId) (keysUsed : ℕ) (epoch operator reason : Text) :
    ∃ rest, auditSummary record keysUsed epoch operator reason = 'o' :: rest := by
  have hfirst : ∀ a b c d e r₁ r₂ r₃ r₄ r₅ r₆ r₇ : Text, a = 'o' :: "perator `".toList →
      ∃ rest, a ++ b ++ c ++ d ++ e ++ r₁ ++ r₂ ++ r₃ ++ r₄ ++ r₅ ++ r₆ ++ r₇ = 'o' :: rest := by
    rintro a b c d e r₁ r₂ r₃ r₄ r₅ r₆ r₇ rfl
    simp only [List.append_assoc, List.cons_append]
    exact ⟨_, rfl⟩
  unfold auditSummary
  exact hfirst _ _ _ _ _ _ _ _ _ _ _ _ (by decide)

/-- The file of an audit record reads back as it: its body ends a line, and starts with a
    word. -/
theorem IsAudit.keptBody {r : ActionRecord} (hr : IsAudit P env record operator r) :
    KeptBody r r.summary := by
  obtain ⟨keysUsed, epoch, reason, rfl⟩ := hr
  rintro -
  constructor
  · show (auditSummary record keysUsed epoch (trim operator) reason).getLast? ≠ some '\r'
    rw [auditSummary_last]
    decide
  · obtain ⟨rest, h⟩ := auditSummary_first record keysUsed epoch (trim operator) reason
    show isSealed (auditSummary record keysUsed epoch (trim operator) reason) = false
    rw [h]
    rfl

/-! ## Admission -/

/-- The resolver cannot answer for the audit record. -/
def ResolverDown (P : Pipeline) (env : Env) : Prop :=
  ∃ r reason, r.recordId = env.ulid ∧ r.action = auditAction ∧ P.resolver r = .unavailable reason

/-- A key that a held-back copy is sealed under. -/
def HoldingKey (s : SubjectHash) : Prop := ∃ date, quarantineSubject date = .ok s

/-- Nothing was published, and what keys were asked for are for holding the audit record
    back, its resolver being down. -/
structure Unpublished (P : Pipeline) (env : Env) (σ : Store) (v : Watch Store Fetch) : Prop where
  records : v.state.records = σ.records
  seen : ∀ n ∈ v.seen, HoldingKey n.1.subject ∧ ResolverDown P env

theorem Unpublished.start (P : Pipeline) (env : Env) (σ : Store) : Unpublished P env σ ⟨σ, []⟩ :=
  ⟨rfl, List.forall_mem_nil _⟩

theorem checkSubjects_error {r : ActionRecord} {ss : List SubjectRef} {e : Error}
    (h : checkSubjects r ss = .error e) : ∃ detail, e = invalid detail := by
  unfold checkSubjects refuseIf at h
  simp only [bind, Except.bind] at h
  split_ifs at h <;> exact ⟨_, (Except.error.inj h).symm⟩

/-- An internal record is sealed under nothing: its resolution reads only. -/
theorem resolveAndSeal_internal (env : Env) {r : ActionRecord} (hi : r.dataClass = .internal) (st : Stamp)
    (body : Text) (σ : Store) : (resolveAndSeal P env r st body σ).2 = σ ∧
      ((resolveAndSeal P env r st body σ).1 = .error .subjectUnresolved →
        ∃ reason, P.resolver r = .unavailable reason) := by
  unfold resolveAndSeal
  cases hres : P.resolver r with
  | unavailable reason => exact ⟨rfl, fun _ => ⟨reason, rfl⟩⟩
  | refused reason => exact ⟨rfl, fun h => by cases h⟩
  | resolved ss =>
    dsimp only
    cases hc : checkSubjects r ss with
    | error e =>
      refine ⟨rfl, fun h => ?_⟩
      rw [ofExcept_error_bind] at h
      obtain rfl : e = .subjectUnresolved := Except.error.inj h
      obtain ⟨detail, hd⟩ := checkSubjects_error hc
      cases hd
    | ok u =>
      rw [ofExcept_ok_bind, sealBody, if_pos hi, pure_bind]
      exact ⟨rfl, fun h => by cases h⟩

/-- A step that leaves the record tree publishes nothing. -/
theorem step_unpublished {α : Type} (s : ReadStep) {x : StoreM α}
    (hx : ∀ t, Keeps (fun τ => τ.records = t) x) : Keeps (Unpublished P env σ) (step F s x) := by
  have hrun : Keeps (Unpublished P env σ) (watched x) := fun v hv => ⟨hx _ v.state hv.records, hv.seen⟩
  unfold step
  cases F s with
  | runs => exact hrun
  | fails e => exact Keeps.fail e
  | cut e => exact hrun.bind fun _ => Keeps.fail e

theorem quarantineWatched_unpublished (hdown : ResolverDown P env) (r : ActionRecord) (st : Stamp)
    (body : Text) : Keeps (Unpublished P env σ) (quarantineWatched P env F r st body) := by
  obtain ⟨q, hq⟩ := quarantineSubject_ok st.date
  unfold quarantineWatched
  rw [show liftContract (quarantineSubject st.date) = .ok q by rw [hq]; rfl, ofExcept_ok_bind]
  refine Keeps.bind (fun v hv => ⟨hv.records, fun n hn => ?_⟩) fun _ => ?_
  · rcases List.mem_append.1 hn with hn | hn
    · exact hv.seen n hn
    · rw [List.mem_singleton.1 hn]
      exact ⟨⟨st.date, hq⟩, hdown⟩
  · have hkey : ∀ t, Keeps (fun τ => τ.records = t)
        (sealUnder P env env.spool r.recordId [q] (Epoch.containing st.ms) body) := fun t τ h => h
    have hfile : ∀ t q bytes, Keeps (fun τ => τ.records = t)
        (change fun s => { s with quarantine := s.quarantine.write q bytes env.now } : StoreM Unit) :=
      fun t q bytes => Keeps.change fun τ h => h
    refine (step_unpublished .holdKey hkey).bind fun block => ?_
    refine (step_unpublished .holdFile fun t => hfile t _ _).bind fun _ => ?_
    exact step_unpublished .holdRow fun t τ h => h

attribute [local irreducible] Triple

/-- What admitting an audit record comes to: it is admitted to the store as it was, or
    nothing was published. -/
def Admits (P : Pipeline) (env : Env) (r : ActionRecord) (σ : Store) :
    Admission → Watch Store Fetch → Prop
  | .admitted d st, v => v = ⟨σ, []⟩ ∧ Admitted P r r.summary σ d st
  | .held, v => Unpublished P env σ v
  | .duplicate, v => Unpublished P env σ v

theorem settleWatched_triple {r r' : ActionRecord} {st : Stamp} {dest : Path}
    (hr : IsAudit P env record operator r) (hst : stampOf r = .ok st)
    (hdest : publishedPath r st = .ok dest) (hmem : dest ∉ σ.records)
    (hval : validated P r r.summary = .ok r') :
    Triple (fun v => v = ⟨σ, []⟩) (settleWatched P env F r' st r.summary) (Admits P env r σ)
      (fun _ v => Unpublished P env σ v) := by
  have hstart : ∀ v : Watch Store Fetch, v = ⟨σ, []⟩ → Unpublished P env σ v := by
    rintro v rfl
    exact Unpublished.start P env σ
  obtain ⟨keysUsed, epoch, reason, hrec⟩ := hr
  have hi : r'.dataClass = .internal := by
    rw [(validated_ok hval).dataClass, hrec]
    rfl
  obtain ⟨hreads, hdown⟩ := resolveAndSeal_internal (P := P) env hi st r.summary σ
  have hnotes : noteSealing P r' st = pure () := by
    unfold noteSealing
    cases P.resolver r' with
    | unavailable reason => rfl
    | refused reason => rfl
    | resolved ss => simp only [hi, if_true]
  unfold settleWatched
  rw [hnotes, pure_bind]
  refine ((step_reads .resolve (x := attempt (resolveAndSeal P env r' st r.summary))
    hreads).conseq (fun _ h => h) (fun _ _ h => h) fun _ v hv => hstart v hv).bind fun res => ?_
  have hrun : ∀ {out}, attempt (resolveAndSeal P env r' st r.summary) σ = (.ok out, σ) →
      resolveAndSeal P env r' st r.summary σ = (out, σ) := fun h =>
    Prod.ext (Except.ok.inj (Prod.mk.inj h).1) hreads
  have hfail : ∀ e c : Error, Triple (fun v => attempt (resolveAndSeal P env r' st r.summary) σ =
      (.ok (.error e), σ) ∧ v = ⟨σ, []⟩) (fail c : WatchM Admission) (Admits P env r σ)
      (fun _ v => Unpublished P env σ v) := fun e c => Triple.fail fun v hv => hstart v hv.2
  match res with
  | .error .subjectUnresolved =>
    refine Triple.of_state fun v hv => ?_
    obtain ⟨hres, hv⟩ := hv
    obtain ⟨reason, hunavailable⟩ := hdown (by rw [hrun hres])
    have hd : ResolverDown P env := by
      refine ⟨r', reason, ?_, ?_, hunavailable⟩
      · rw [(validated_ok hval).place.recordId, hrec]
        rfl
      · rw [validated_action hval, hrec]
        rfl
    have hheld : Triple (Unpublished P env σ) (quarantineWatched P env F r' st r.summary >>=
        fun _ => (pure .held : WatchM Admission)) (Admits P env r σ)
        (fun _ v => Unpublished P env σ v) :=
      Triple.bind (quarantineWatched_unpublished hd r' st r.summary).triple fun _ =>
        Triple.pure fun _ h => h
    refine hheld.before fun t ht => ?_
    rw [ht]
    exact hstart v hv
  | .error (.invalid c) => exact hfail _ _
  | .error (.crypto c) => exact hfail _ _
  | .error (.store c) => exact hfail _ _
  | .error (.markdown c) => exact hfail _ _
  | .error (.held s holds) => exact hfail _ _
  | .error (.io c) => exact hfail _ _
  | .ok (ss, b) =>
    refine Triple.pure ?_
    rintro v ⟨hres, rfl⟩
    obtain ⟨k1, k2, k3, k4⟩ := resolveAndSeal_ok (hrun hres)
    exact ⟨rfl, hst, ⟨dest, hdest, hmem⟩, r', ss, hval, k1, k2, rfl, k3⟩

/-- What admitting an audit record leaves. -/
theorem admissionWatched_triple {r : ActionRecord} (hr : IsAudit P env record operator r) :
    Triple (fun v => v = ⟨σ, []⟩) (admissionWatched P env F r r.summary) (Admits P env r σ)
      (fun _ v => Unpublished P env σ v) := by
  have hstart : ∀ v : Watch Store Fetch, v = ⟨σ, []⟩ → Unpublished P env σ v := by
    rintro v rfl
    exact Unpublished.start P env σ
  unfold admissionWatched
  cases hst : stampOf r with
  | error e =>
    rw [ofExcept_error_bind]
    exact Triple.fail fun v hv => hstart v hv
  | ok st =>
  rw [ofExcept_ok_bind]
  cases hdest : publishedPath r st with
  | error e =>
    rw [ofExcept_error_bind]
    exact Triple.fail fun v hv => hstart v hv
  | ok dest =>
  rw [ofExcept_ok_bind]
  refine ((step_reads .dedupe (x := taken dest) rfl).conseq (fun _ h => h) (fun _ _ h => h)
    fun _ v hv => hstart v hv).bind fun b => ?_
  refine Triple.of_state fun v hv => ?_
  obtain ⟨hb, hv⟩ := hv
  subst hv
  by_cases hmem : dest ∈ σ.records
  · obtain rfl : true = b := by simpa [taken, hmem] using hb
    exact Triple.pure hstart
  · obtain rfl : false = b := by simpa [taken, hmem] using hb
    rw [if_neg Bool.false_ne_true]
    cases hval : validated P r r.summary with
    | error e => exact Triple.fail hstart
    | ok r' => exact settleWatched_triple hr hst hdest hmem hval

/-! ## Publication -/

/-- The audit record's file was put into the record tree, and is its one file. -/
structure Audited (P : Pipeline) (env : Env) (record : RecordId) (operator : Text) (σ : Store) (p : Path)
    (d : Document) (τ : Store) : Prop where
  audit : AuditOf env record operator d
  filed : Filed P p d
  oneFile : OneFile P p d τ
  records : ∃ f, τ.records = σ.records.insert p f

/-- The audit record is published and indexed. -/
structure OnTrail (P : Pipeline) (env : Env) (record : RecordId) (operator : Text) (σ : Store) (p : Path)
    (d : Document) (τ : Store) : Prop extends Audited P env record operator σ p d τ where
  sole : Sole P p d τ
  publishable : ∃ row, Index.Publishable (publishInput d) row

/-- **What a read leaves, wherever it stops**: nothing published; the audit record's file,
    not indexed, and no key asked for; or the audit record on the trail in every state in which a key
    was asked for. -/
inductive Reached (P : Pipeline) (env : Env) (record : RecordId) (operator : Text) (σ : Store)
    (v : Watch Store Fetch) : Prop
  | unpublished (h : Unpublished P env σ v)
  | audited (p : Path) (d : Document) (h : Audited P env record operator σ p d v.state)
      (index : v.state.index = σ.index) (seen : v.seen = [])
  | onTrail (p : Path) (d : Document) (h : OnTrail P env record operator σ p d v.state)
      (seen : ∀ n ∈ v.seen, n.2 = v.state)

/-- What a write path that stored the audit record leaves. -/
def Recorded (P : Pipeline) (env : Env) (record : RecordId) (operator : Text) (σ : Store)
    (v : Watch Store Fetch) : Prop :=
  (∃ p d, OnTrail P env record operator σ p d v.state) ∧ v.seen = []

/-- Publishing the admitted audit record puts it on the trail. -/
theorem publishWatched_triple (hY : P.yaml.Inverts) {r : ActionRecord} {d : Document} {st : Stamp}
    (hr : IsAudit P env record operator r) (hd : Admitted P r r.summary σ d st)
    (hnew : Unused P env.ulid σ) :
    Triple (fun v => v = ⟨σ, []⟩) (publishWatched P env F d st)
      (fun _ => Recorded P env record operator σ) (fun _ => Reached P env record operator σ) := by
  obtain ⟨dest, hdest, -, -, -, -⟩ := hd.dest
  have haudit := hd.auditOf hr
  have hfiled : Filed P dest d := ⟨publishedPath_ok hdest, hd.reads_back hY hr.keptBody⟩
  have hunused : Unused P d.record.recordId σ := by rwa [haudit.recordId]
  have hplaced : Audited P env record operator σ dest d (placedIn P env d dest σ) :=
    ⟨haudit, hfiled, hunused.placed hfiled, _, rfl⟩
  unfold publishWatched
  refine Triple.bind (step_writes .stage (stage_apply d σ)
    (fun _ => .unpublished (Unpublished.start P env σ))
    fun _ => .unpublished ⟨rfl, List.forall_mem_nil _⟩) fun staged => ?_
  refine Triple.of_state fun v hv => ?_
  obtain ⟨rfl, rfl⟩ := hv
  refine Triple.bind (step_writes .place (place_stagedIn hdest σ)
    (fun _ => .unpublished ⟨rfl, List.forall_mem_nil _⟩)
    fun _ => .audited dest d hplaced rfl rfl) fun placed => ?_
  refine Triple.of_state fun v hv => ?_
  obtain ⟨rfl, rfl⟩ := hv
  rcases commit_cases d (placedIn P env d placed σ) with ⟨row, ms, hrow, hms, hc⟩ | ⟨-, e, hc⟩
  · -- from the commit on, the audit record is on the trail
    have htrail : ∀ τ : Store, τ.records = (placedIn P env d placed σ).records →
        Sole P placed d τ → OnTrail P env record operator σ placed d τ := fun τ hτ hsole =>
      ⟨⟨haudit, hfiled, hsole.oneFile, _, hτ⟩, hsole, row, hrow⟩
    have hcommitted := hunused.committed env hfiled hrow hms
    have hunspooled := Standing.unspooled hcommitted (stagedPath d)
    have hsettled := Standing.dequeued hunspooled d.record.recordId
    refine Triple.bind (step_writes .commit hc (fun _ => .audited placed d hplaced rfl rfl)
      fun _ => .onTrail placed d (htrail _ rfl hcommitted) (List.forall_mem_nil _)) fun _ => ?_
    refine Triple.of_state fun v hv => ?_
    obtain ⟨-, rfl⟩ := hv
    refine Triple.bind (step_writes .unspool rfl
      (fun _ => .onTrail placed d (htrail _ rfl hcommitted) (List.forall_mem_nil _))
      fun _ => .onTrail placed d (htrail _ rfl hunspooled) (List.forall_mem_nil _)) fun _ => ?_
    refine Triple.of_state fun v hv => ?_
    obtain ⟨-, rfl⟩ := hv
    have hdequeue : indexed (change (Index.dequeueQuarantine d.record.recordId))
        { placedIn P env d placed σ with
          index := Index.published (publishInput d) row ms σ.index
          quarantine := σ.quarantine.erase (stagedPath d) } =
        (.ok (), settledIn P env d placed row ms σ) := rfl
    refine (step_writes (E := fun _ => Reached P env record operator σ) .dequeue hdequeue
      (fun _ => .onTrail placed d (htrail _ rfl hunspooled) (List.forall_mem_nil _))
      fun _ => .onTrail placed d (htrail _ rfl hsettled) (List.forall_mem_nil _)).conseq
        (fun _ h => h) ?_ fun _ _ h => h
    rintro _ _ ⟨-, rfl⟩
    exact ⟨⟨placed, d, htrail _ rfl hsettled⟩, rfl⟩
  · refine Triple.bind (Q := fun _ _ => False) ((fate_triple (F .commit) (commit d)
      (placedIn P env d placed σ) []).conseq (fun _ h => h) ?_ ?_) fun _ => Triple.of_state
        fun _ h => h.elim
    · rintro a v ⟨h, -⟩
      rw [hc] at h
      cases (Prod.mk.inj h).1
    · rintro e ⟨τ, n⟩ ⟨rfl, h⟩
      rw [hc, or_self] at h
      rw [show τ = _ from h]
      exact .audited placed d hplaced rfl rfl

/-- What the write path leaves of an audit record. -/
theorem acceptWatched_triple (hY : P.yaml.Inverts) {r : ActionRecord}
    (hr : IsAudit P env record operator r) (hnew : Unused P env.ulid σ) :
    Triple (fun v => v = ⟨σ, []⟩) (acceptWatched P env F r r.summary)
      (fun a v => (∃ id, a = .stored id) ∧ Recorded P env record operator σ v ∨
        (∀ id, a ≠ .stored id) ∧ Unpublished P env σ v)
      (fun _ => Reached P env record operator σ) := by
  unfold acceptWatched
  refine Triple.bind ((admissionWatched_triple hr).conseq (fun _ h => h) (fun _ _ h => h)
    fun _ _ h => .unpublished h) fun a => ?_
  cases a with
  | duplicate => exact Triple.pure fun v hv => .inr ⟨nofun, hv⟩
  | held => exact Triple.pure fun v hv => .inr ⟨nofun, hv⟩
  | admitted d st =>
    refine Triple.of_state fun v hv => ?_
    obtain ⟨rfl, hd⟩ := hv
    refine (publishWatched_triple hY hr hd hnew).bind fun _ => Triple.pure fun v hv => ?_
    exact .inl ⟨⟨_, rfl⟩, hv⟩

/-! ## Revelation -/

/-- The store is this one, and was when each key was asked for. -/
def Steady (τ : Store) (v : Watch Store Fetch) : Prop := v.state = τ ∧ ∀ n ∈ v.seen, n.2 = τ

theorem unsealShare_state (K : FsKeyStore) (epoch : Epoch) (share : WrappedShare) (t : Tree) :
    (unsealShare O K epoch share t).2 = t := by
  have hget := K.get_state share.subject epoch t
  rw [unsealShare, bind_apply]
  cases hg : K.get share.subject epoch t with
  | mk res t₁ =>
    rw [hg] at hget
    obtain rfl : t₁ = t := hget
    cases res with
    | error e => rfl
    | ok key =>
      cases key with
      | none => rfl
      | some kek =>
        dsimp only
        cases unwrapShare O kek share.bytes with
        | error e => rfl
        | ok bytes =>
          rw [ofExcept_ok_bind]
          split_ifs
          · rfl
          · rfl

theorem keyed_reads {α : Type} {x : Eff Tree Crypto.Error α} {τ : Store} (h : (x τ.keys).2 = τ.keys) :
    keyed x τ = ((x τ.keys).1.mapError Error.crypto, τ) := by
  unfold keyed zoom mapError
  cases hx : x τ.keys with
  | mk r t =>
    rw [hx] at h
    obtain rfl : t = τ.keys := h
    cases r with
    | ok a => rfl
    | error e => rfl

/-- Fetching the shares' keys changes nothing, and what it answers unsealing them does. -/
theorem fetchShares_triple (epoch : Epoch) (i : ℕ) (shares : List WrappedShare) (τ : Store) :
    Triple (Steady τ) (fetchShares P O env F epoch i shares)
      (fun res v => Steady τ v ∧ ∀ bs, res = .ok bs →
        unsealShares O (P.keys env) epoch shares τ.keys = (.ok bs, τ.keys))
      (fun _ => Steady τ) := by
  induction shares generalizing i with
  | nil =>
    refine Triple.pure fun v hv => ⟨hv, ?_⟩
    rintro bs h
    rw [← Except.ok.inj h]
    rfl
  | cons share shares ih =>
    let Fetched := fun (res : Except Error (List BareShare)) (v : Watch Store Fetch) =>
      Steady τ v ∧ ∀ bs, res = .ok bs →
        unsealShares O (P.keys env) epoch (share :: shares) τ.keys = (.ok bs, τ.keys)
    have hfail : ∀ e, Triple (Steady τ) (pure (.error e) : WatchM (Except Error (List BareShare)))
        Fetched (fun _ => Steady τ) := fun e => Triple.pure fun v hv => ⟨hv, nofun⟩
    -- the share at hand, and then the others
    have hshare : ∀ fate, Triple (Steady τ)
        (under fate (watched (attempt (keyed (unsealShare O (P.keys env) epoch share)))) >>= fun res =>
          match res with
          | .error e => pure (.error e)
          | .ok b => fetchShares P O env F epoch (i + 1) shares >>= fun rest => match rest with
            | .error e => pure (.error e)
            | .ok bs => pure (.ok (b :: bs))) Fetched (fun _ => Steady τ) := by
      intro fate
      refine Triple.of_state fun v hv => ?_
      obtain ⟨u, seen⟩ := v
      obtain ⟨rfl, hseen⟩ := hv
      have hkeys := unsealShare_state (O := O) (P.keys env) epoch share u.keys
      have hrun : attempt (keyed (unsealShare O (P.keys env) epoch share)) u =
          (.ok ((unsealShare O (P.keys env) epoch share u.keys).1.mapError Error.crypto), u) := by
        rw [attempt_apply, keyed_reads hkeys]
      refine Triple.bind ((fate_reads fate (by rw [hrun])).conseq (fun _ h => h) (fun _ _ h => h) ?_)
        fun res => ?_
      · rintro e _ rfl
        exact ⟨rfl, hseen⟩
      refine Triple.of_state fun v hv => ?_
      obtain ⟨hres, rfl⟩ := hv
      have hsteady : ∀ t, t = (⟨u, seen⟩ : Watch Store Fetch) → Steady u t := by
        rintro _ rfl
        exact ⟨rfl, hseen⟩
      cases res with
      | error e => exact (hfail e).before hsteady
      | ok b =>
        rw [hrun] at hres
        have hb : unsealShare O (P.keys env) epoch share u.keys = (.ok b, u.keys) :=
          Prod.ext (mapError_ok.1 (Except.ok.inj (Prod.mk.inj hres).1)) hkeys
        refine Triple.bind ((ih (i + 1)).before hsteady) fun rest => ?_
        cases rest with
        | error e => exact (hfail e).before fun t ht => ht.1
        | ok bs =>
          refine Triple.pure fun t ht => ⟨ht.1, ?_⟩
          rintro cs h
          rw [← Except.ok.inj h, unsealShares, bind_of_ok hb, bind_of_ok (ht.2 bs rfl)]
          rfl
    unfold fetchShares
    refine Triple.bind (Q := fun _ => Steady τ) ((Triple.note _).before fun v hv => ?_) fun _ => ?_
    · refine ⟨hv.1, fun n hn => ?_⟩
      rcases List.mem_append.1 hn with hn | hn
      · exact hv.2 n hn
      · rw [List.mem_singleton.1 hn]
        exact hv.1
    · cases hf : F (.fetch i) with
      | fails e => exact hfail e
      | runs => exact hshare .runs
      | cut e => exact hshare (.cut e)

theorem unsealWatched_triple (block : SealedBody) (τ : Store) :
    Triple (Steady τ) (unsealWatched P O env F record block)
      (fun res v => Steady τ v ∧ ∀ bytes, res = .ok bytes →
        «unseal» P.ciphers O (P.keys env) record block τ.keys = (.ok bytes, τ.keys))
      (fun _ => Steady τ) := by
  refine Triple.bind (fetchShares_triple block.epoch 0 block.shares τ) fun res => ?_
  cases res with
  | error e => exact Triple.pure fun v hv => ⟨hv.1, nofun⟩
  | ok bare =>
    refine Triple.pure fun v hv => ⟨hv.1, fun bytes h => ?_⟩
    obtain ⟨subjects, hsubjects, h⟩ := Contract.bind_ok.1 (mapError_ok.1 h)
    obtain ⟨dek, hdek, h⟩ := Contract.bind_ok.1 h
    rw [«unseal», bind_of_ok (hv.2 bare rfl), hsubjects, ofExcept_ok_bind, hdek, ofExcept_ok_bind, h]
    rfl

/-- An answer given once keys were asked for: what the block opens to, or that a key is
    gone, under the audit record's identifier. -/
def Answers (P : Pipeline) (O : Openers) (env : Env) (record audit : RecordId) (block : SealedBody)
    (τ : Store) : Read → Prop
  | .revealed body id => id = audit ∧ ∃ bytes, Utf8.decode bytes = some body ∧
      «unseal» P.ciphers O (P.keys env) record block τ.keys = (.ok bytes, τ.keys)
  | .shredded _ _ id => id = some audit
  | .plain => False
  | .absent _ => False

theorem answerUnsealed_state (record audit : RecordId) (block : SealedBody)
    (opened : Except Error Bytes) (τ : Store) :
    (answerUnsealed P record audit block opened τ).2 = τ := by
  have h : Keeps (fun u => u = τ) (answerUnsealed P record audit block opened) := by
    unfold answerUnsealed
    split
    · exact (Keeps.ofExcept _).bind fun _ => Keeps.pure _
    · exact (erasures_keeps _).bind fun _ => Keeps.pure _
    · exact Keeps.fail _
  exact h τ rfl

theorem answerUnsealed_ok {audit : RecordId} {block : SealedBody} {opened : Except Error Bytes}
    {τ τ' : Store} {a : Read}
    (h : answerUnsealed P record audit block opened τ = (.ok a, τ'))
    (hopened : ∀ bytes, opened = .ok bytes →
      «unseal» P.ciphers O (P.keys env) record block τ.keys = (.ok bytes, τ.keys)) :
    Answers P O env record audit block τ a := by
  unfold answerUnsealed at h
  split at h
  · rename_i plaintext
    obtain ⟨body, u, hbody, h⟩ := bind_eq_ok.1 h
    obtain ⟨hbody', -⟩ := ofExcept_eq_ok.1 hbody
    obtain ⟨rfl, -⟩ := pure_eq_ok.1 h
    refine ⟨rfl, plaintext, ?_, hopened _ rfl⟩
    unfold plaintextOf at hbody'
    cases hd : Utf8.decode plaintext with
    | none =>
      rw [hd] at hbody'
      cases hbody'
    | some t =>
      rw [hd] at hbody'
      rw [Except.ok.inj hbody']
  · obtain ⟨found, u, -, h⟩ := bind_eq_ok.1 h
    obtain ⟨rfl, -⟩ := pure_eq_ok.1 h
    rfl
  · exact absurd h fail_ne_ok

/-- What revealing a sealed body answers and leaves. -/
theorem revealWatched_triple (env : Env) {d : Document} {block : SealedBody} {τ : Store} (audit : RecordId)
    (hfound : Found P τ record d) (hbody : d.body = .sealed block) :
    Triple (fun v => v = ⟨τ, []⟩) (revealWatched P O env F record audit)
      (fun a v => Steady τ v ∧ Answers P O env record audit block τ a) (fun _ => Steady τ) := by
  have hstart : ∀ v : Watch Store Fetch, v = ⟨τ, []⟩ → Steady τ v := by
    rintro _ rfl
    exact ⟨rfl, List.forall_mem_nil _⟩
  have hlocate := locateForRead_found hfound
  unfold revealWatched
  refine Triple.bind ((step_reads .locate (by rw [hlocate])).conseq (fun _ h => h) (fun _ _ h => h)
    fun _ => hstart) fun d' => ?_
  refine Triple.of_state fun v hv => ?_
  obtain ⟨hd', rfl⟩ := hv
  rw [hlocate] at hd'
  obtain rfl : d = d' := Except.ok.inj (Prod.mk.inj hd').1
  rw [hbody]
  refine Triple.bind ((unsealWatched_triple block τ).before hstart) fun opened => ?_
  refine Triple.of_state fun v hv => ?_
  obtain ⟨u, seen⟩ := v
  obtain ⟨⟨rfl, hseen⟩, hopened⟩ := hv
  refine (step_reads .answer (answerUnsealed_state record audit block opened u)).conseq
    (fun _ h => h) ?_ ?_
  · rintro a _ ⟨ha, rfl⟩
    exact ⟨⟨rfl, hseen⟩, answerUnsealed_ok ha hopened⟩
  · rintro e _ rfl
    exact ⟨rfl, hseen⟩

/-! ## The whole read -/

/-- The record that is found stays where it is found when the audit record is published. -/
theorem Audited.found {p : Path} {d d' : Document} {τ : Store} (hnew : Unused P env.ulid σ)
    (h : Audited P env record operator σ p d τ) (hfound : Found P σ record d') : Found P τ record d' := by
  obtain ⟨q, text, hq, hread, hd⟩ := hfound
  obtain ⟨f, hrecords⟩ := h.records
  obtain ⟨hmem, hext, hstem⟩ := mem_of_located hq
  have hp : fileStem p = some env.ulid.text := by rw [h.filed.stem, h.audit.recordId]
  have hne : ∀ x, fileStem x = some record.text → x ≠ p := by
    rintro x hx rfl
    exact hnew.named q hmem hext (by rw [hstem, ← hx, hp])
  refine ⟨q, text, ?_, ?_, hd⟩
  · rw [hrecords, ← hq]
    refine locateRecords_congr fun x hx => ?_
    rw [AList.mem_insert]
    exact ⟨fun hm => hm.resolve_left (hne x hx), .inr⟩
  · obtain ⟨g, hg, hc⟩ := Tree.readToString_ok.1 hread
    rw [hrecords]
    exact Tree.readToString_ok.2 ⟨g, by rwa [AList.lookup_insert_ne (hne q hstem)], hc⟩

/-- An answer decided without keys. -/
def Read.Keyless : Read → Prop
  | .revealed _ _ => False
  | .shredded _ _ audit => audit = none
  | .plain => True
  | .absent _ => True

/-- What a read answers: without keys, in the store as it was; with them, what the sealed
    block found opens to, the audit record being on the trail. -/
def Outcome (P : Pipeline) (O : Openers) (env : Env) (record : RecordId) (operator : Text) (σ : Store)
    (a : Read) (v : Watch Store Fetch) : Prop :=
  a.Keyless ∧ v = ⟨σ, []⟩ ∨
  ∃ p d d' block, OnTrail P env record operator σ p d v.state ∧ (∀ n ∈ v.seen, n.2 = v.state) ∧
    Found P σ record d' ∧ d'.body = .sealed block ∧ Answers P O env record env.ulid block v.state a

/-- **What a read leaves and answers, whatever fails.** -/
theorem readWatched_triple (hY : P.yaml.Inverts) (hnew : Unused P env.ulid σ) (reason : Text) :
    Triple (fun v => v = ⟨σ, []⟩) (readWatched P O env F record operator reason)
      (Outcome P O env record operator σ) (fun _ => Reached P env record operator σ) := by
  have hnothing : ∀ v : Watch Store Fetch, v = ⟨σ, []⟩ → Reached P env record operator σ v := by
    rintro _ rfl
    exact .unpublished (Unpublished.start P env σ)
  have hkeyless : ∀ a : Read, a.Keyless → ∀ held, Triple
      (fun v => inspect P record σ = (.ok held, σ) ∧ v = ⟨σ, []⟩) (pure a : WatchM Read)
      (Outcome P O env record operator σ) (fun _ => Reached P env record operator σ) :=
    fun a ha held => Triple.pure fun v hv => .inl ⟨ha, hv.2⟩
  unfold readWatched
  cases hop : namedOperator operator with
  | error e =>
    rw [ofExcept_error_bind]
    exact Triple.fail hnothing
  | ok op =>
  obtain rfl : op = trim operator := by
    unfold namedOperator at hop
    split_ifs at hop
    exact (Except.ok.inj hop).symm
  rw [ofExcept_ok_bind]
  cases hreason : statedReason reason with
  | error e =>
    rw [ofExcept_error_bind]
    exact Triple.fail hnothing
  | ok stated =>
  rw [ofExcept_ok_bind]
  refine Triple.bind ((step_reads .inspect (inspect_state P record σ)).conseq (fun _ h => h)
    (fun _ _ h => h) fun _ => hnothing) fun held => ?_
  match held with
  | .sealed subjects epoch bytes [] =>
    refine Triple.of_state fun v hv => ?_
    obtain ⟨hinspect, rfl⟩ := hv
    obtain ⟨d, block, hfound, hbody⟩ := inspect_sealed hinspect
    have hr : IsAudit P env record operator
        (auditRecord P env record subjects.length epoch (trim operator) stated) := ⟨_, _, _, rfl⟩
    refine Triple.bind (acceptWatched_triple hY hr hnew) fun accepted => ?_
    refine Triple.of_state fun v hv => ?_
    obtain ⟨u, seen⟩ := v
    rcases hv with ⟨⟨id, rfl⟩, ⟨p, a, htrail⟩, rfl⟩ | ⟨hnot, hun⟩
    · have hreveal := revealWatched_triple (O := O) (F := F) env env.ulid
        (htrail.found hnew hfound) hbody
      have htrail' : ∀ v : Watch Store Fetch, Steady u v →
          OnTrail P env record operator σ p a v.state ∧ ∀ n ∈ v.seen, n.2 = v.state := by
        rintro v ⟨rfl, hseen⟩
        exact ⟨htrail, hseen⟩
      refine hreveal.conseq (fun _ h => h) (fun answer v hv => ?_) fun e v hv => ?_
      · obtain ⟨ht, hseen⟩ := htrail' v hv.1
        exact .inr ⟨p, a, d, block, ht, hseen, hfound, hbody, by rw [hv.1.1]; exact hv.2⟩
      · obtain ⟨ht, hseen⟩ := htrail' v hv
        exact .onTrail p a ht hseen
    · have hrefused : ∀ v : Watch Store Fetch, v = ⟨u, seen⟩ → Reached P env record operator σ v := by
        rintro _ rfl
        exact .unpublished hun
      cases accepted with
      | stored id => exact absurd rfl (hnot id)
      | duplicate id => exact Triple.fail hrefused
      | quarantined id => exact Triple.fail hrefused
  | .sealed subjects epoch bytes (e :: es) => exact hkeyless (.shredded subjects (e :: es) none) rfl _
  | .shredded subjects found => exact hkeyless (.shredded subjects found none) rfl _
  | .plain => exact hkeyless .plain trivial _
  | .absent archived => exact hkeyless (.absent archived) trivial _

/-- A read, whatever fails in it, that no body is read by without a record. -/
structure OnRecordRead (P : Pipeline) (O : Openers) (env : Env) (record : RecordId) (operator reason : Text)
    (F : ReadStep → Fate Error) (σ : Store) : Prop where
  /-- Before a key is asked for, the audit record stands in the tree and in the index; but
      a key for holding it back is asked for when its resolver is down, and then nothing is
      answered. -/
  fetched : ∀ n ∈ (readWatched P O env F record operator reason ⟨σ, []⟩).2.seen,
    (∃ p d, AuditOf env record operator d ∧ Filed P p d ∧ Sole P p d n.2) ∨
    HoldingKey n.1.subject ∧ ResolverDown P env ∧
      ∃ e, (readWatched P O env F record operator reason ⟨σ, []⟩).1 = .error e
  /-- What is revealed is what was sealed, under the audit record's identifier. -/
  revealed : ∀ body audit,
    (readWatched P O env F record operator reason ⟨σ, []⟩).1 = .ok (.revealed body audit) →
      audit = env.ulid ∧ ∃ d block, Found P σ record d ∧ d.body = .sealed block ∧
        ∀ K draws id ss epoch plaintext t t',
          «seal» P.ciphers K draws id ss epoch plaintext t = (.ok block, t') →
            id = record ∧ plaintext = Utf8.encode body
  /-- An answer decided without keys leaves the store as it was. -/
  keyless : (∃ a, (readWatched P O env F record operator reason ⟨σ, []⟩).1 = .ok a ∧ a.Keyless) ∨
      trim operator = [] ∨ trim reason = [] →
    (readWatched P O env F record operator reason ⟨σ, []⟩).2 = ⟨σ, []⟩
  /-- A file the read leaves in the record tree is the audit record's, and no later pass
      takes it away, or its rows, or changes what a read of it answers. -/
  kept : ∀ p ∈ (readWatched P O env F record operator reason ⟨σ, []⟩).2.state.records,
    p ∉ σ.records → ∃ d, AuditOf env record operator d ∧ ∀ ops,
      let τ := Later.runAll P (readWatched P O env F record operator reason ⟨σ, []⟩).2.state ops
      OneFile P p d τ ∧ inspect P env.ulid τ = (.ok .plain, τ) ∧
        ((readWatched P O env F record operator reason ⟨σ, []⟩).2.state.index.has env.ulid.text →
          Sole P p d τ)

/-- A read that names nobody, or no purpose, is refused before anything is done. -/
theorem readWatched_refused {reason : Text} (h : trim operator = [] ∨ trim reason = [])
    (v : Watch Store Fetch) : ∃ e, readWatched P O env F record operator reason v = (.error e, v) := by
  unfold readWatched
  by_cases ho : trim operator = []
  · rw [namedOperator, if_pos ho]
    exact ⟨_, rfl⟩
  · rw [namedOperator, if_neg ho, ofExcept_ok_bind, statedReason, if_pos (h.resolve_left ho)]
    exact ⟨_, rfl⟩

theorem Audited.not_mem {p : Path} {d : Document} {τ : Store} (hnew : Unused P env.ulid σ)
    (h : Audited P env record operator σ p d τ) : p ∉ σ.records := fun hp =>
  hnew.named p hp h.filed.extension (by rw [h.filed.stem, h.audit.recordId])

theorem Audited.only {p q : Path} {d : Document} {τ : Store} (h : Audited P env record operator σ p d τ)
    (hq : q ∈ τ.records) (hnew : q ∉ σ.records) : q = p := by
  obtain ⟨f, hrecords⟩ := h.records
  rw [hrecords, AList.mem_insert] at hq
  exact hq.resolve_right hnew

theorem Unused.not_has {id : RecordId} (h : Unused P id σ) : σ.index.has id.text = false := by
  have hrows : σ.index.records.filter (fun r => r.recordId = id) = [] :=
    congrArg Index.Entry.records h.rows
  rw [Index.Tables.has, List.any_eq_false]
  intro row hrow htext
  rw [List.filter_eq_nil_iff] at hrows
  exact hrows row hrow (by simpa using RecordId.ext_text (by simpa using htext))

/-- What every later pass leaves of the audit record's file. -/
theorem Audited.later (hY : P.yaml.Inverts) {p : Path} {d : Document} {τ : Store}
    (h : Audited P env record operator σ p d τ) (ops : List (Env × Later)) :
    OneFile P p d (Later.runAll P τ ops) ∧
      inspect P env.ulid (Later.runAll P τ ops) = (.ok .plain, Later.runAll P τ ops) := by
  obtain ⟨before, after, hbody⟩ := h.audit.body
  have hlater := h.oneFile.later hY h.filed h.audit.isPlain ops
  have hinspect := hlater.inspect h.filed hbody h.audit.dataClass
  rw [h.audit.recordId] at hinspect
  exact ⟨hlater, hinspect⟩

/-- **No body is read without a record of the reading.** -/
theorem read_on_record (P : Pipeline) (hY : P.yaml.Inverts) (O : Openers) (ideal : Ideal P.ciphers O)
    (env : Env) (record : RecordId) (operator reason : Text) (F : ReadStep → Fate Error) (σ : Store)
    (hnew : Unused P env.ulid σ) : OnRecordRead P O env record operator reason F σ := by
  have hrun : Triple (fun v => v = ⟨σ, []⟩) (readWatched P O env F record operator reason)
      (Outcome P O env record operator σ) (fun _ => Reached P env record operator σ) :=
    readWatched_triple hY hnew reason
  cases hx : readWatched P O env F record operator reason ⟨σ, []⟩ with
  | mk res v =>
  have hreached : Reached P env record operator σ v := by
    cases res with
    | error e => exact hrun.error rfl hx
    | ok a =>
      rcases hrun.ok rfl hx with ⟨-, rfl⟩ | ⟨p, d, d', block, htrail, hseen, -⟩
      · exact .unpublished (Unpublished.start P env σ)
      · exact .onTrail p d htrail hseen
  have hok : ∀ a, res = .ok a → Outcome P O env record operator σ a v := by
    rintro a rfl
    exact hrun.ok rfl hx
  constructor
  · rw [hx]
    intro n hn
    rcases hreached with h | ⟨p, d, h, hi, hseen⟩ | ⟨p, d, h, hseen⟩
    · obtain ⟨hkey, hdown⟩ := h.seen n hn
      refine .inr ⟨hkey, hdown, ?_⟩
      cases res with
      | error e => exact ⟨e, rfl⟩
      | ok a =>
        exfalso
        rcases hok a rfl with ⟨-, rfl⟩ | ⟨p, d, d', block, htrail, -⟩
        · cases hn
        · obtain ⟨f, hf, -⟩ := htrail.oneFile.file
          rw [h.records] at hf
          exact htrail.not_mem hnew (Tree.mem_iff_lookup.2 ⟨f, hf⟩)
    · rw [hseen] at hn
      cases hn
    · refine .inl ⟨p, d, h.audit, h.filed, ?_⟩
      rw [hseen n hn]
      exact h.sole
  · rw [hx]
    intro body audit hres
    rcases hok _ hres with ⟨hkeyless, -⟩ | ⟨p, d, d', block, -, -, hfound, hbody, rfl, bytes, hdec, hopen⟩
    · exact hkeyless.elim
    · refine ⟨rfl, d', block, hfound, hbody, fun K draws id ss epoch plaintext t t' hseal => ?_⟩
      obtain ⟨hid, hbytes⟩ := unseal_sealed ideal hseal hopen
      exact ⟨hid.symm, by rw [← hbytes, Utf8.decode_eq_some_iff.1 hdec]⟩
  · rw [hx]
    rintro (⟨a, rfl, ha⟩ | h)
    · rcases hok a rfl with ⟨-, rfl⟩ | ⟨p, d, d', block, -, -, -, -, hanswered⟩
      · rfl
      · cases a with
        | revealed body id => exact ha.elim
        | shredded subjects found id =>
          obtain rfl : id = none := ha
          cases hanswered
        | plain => exact hanswered.elim
        | absent archived => exact hanswered.elim
    · obtain ⟨e, he⟩ : ∃ e, readWatched P O env F record operator reason ⟨σ, []⟩ =
          (.error e, ⟨σ, []⟩) := readWatched_refused h _
      rw [he] at hx
      rw [(Prod.mk.inj hx).2]
  · rw [hx]
    intro p hp hnewp
    rcases hreached with h | ⟨q, d, h, hi, -⟩ | ⟨q, d, h, -⟩
    · rw [h.records] at hp
      exact absurd hp hnewp
    · obtain rfl : p = q := h.only hp hnewp
      refine ⟨d, h.audit, fun ops => ?_⟩
      obtain ⟨hfile, hinspect⟩ := h.later hY ops
      refine ⟨hfile, hinspect, fun hhas => ?_⟩
      rw [hi, hnew.not_has] at hhas
      cases hhas
    · obtain rfl : p = q := h.only hp hnewp
      refine ⟨d, h.audit, fun ops => ?_⟩
      obtain ⟨hfile, hinspect⟩ := h.later hY ops
      obtain ⟨row, hrow⟩ := h.publishable
      exact ⟨hfile, hinspect, fun _ => h.sole.later hY h.filed h.audit.isPlain hrow ops⟩

section
set_option maxRecDepth 4000

/-- A deployment with primitives that keep what they are given. -/
def openDeployment (resolver : ActionRecord → Resolution) : Pipeline :=
  { deployment resolver with ciphers := clearCiphers }

/-- A store that holds one sealed record. -/
def oneSealed : Store :=
  (accept (openDeployment declaredSubjects) (quietEnv 0)
    (subjectRecord (ulid 'A' isCrockfordDigit_A) "2026-01-01T00:00:00Z".toList
      ⟨"s_".toList ++ List.replicate 64 'a', isSubjectHash_as⟩) "body".toList emptyStore).2

theorem oneSealed_unused (resolver : ActionRecord → Resolution) :
    Unused (openDeployment resolver) (ulid 'Z' (by decide)) oneSealed := by
  have hclass : ∀ (id : RecordId) (t : Text) (s : SubjectHash) (body : Text),
      KeptBody (subjectRecord id t s) body := fun id t s body h => by cases h
  have h : Unused (openDeployment declaredSubjects) (ulid 'Z' (by decide)) oneSealed :=
    (Unused.empty (openDeployment declaredSubjects) _).stored reader_inverts (hclass _ _ _ _)
      (by decide) (ok_of_toOption (by decide +kernel))
  exact ⟨h.named, h.records, h.staging, h.quarantine, h.cold, h.rows⟩

theorem read_on_record_sealed :
    (readWatched (openDeployment declaredSubjects) clearOpeners (quietEnv 0) noFault
      (ulid 'A' (by decide)) "operator".toList "audit".toList ⟨oneSealed, []⟩).1 =
        .ok (.revealed "body".toList (ulid 'Z' (by decide))) ∧
    OnRecordRead (openDeployment declaredSubjects) clearOpeners (quietEnv 0) (ulid 'A' (by decide))
      "operator".toList "audit".toList noFault oneSealed :=
  ⟨ok_of_toOption (by decide +kernel), read_on_record _ reader_inverts _ clear_ideal _ _ _ _ _ _
    (oneSealed_unused _)⟩

/-- The key store cannot make the key for holding a record back. -/
def noHoldKey : ReadStep → Fate Error := fun s =>
  if s = .holdKey then .fails .subjectUnresolved else .runs

/-- **An audit record that is held back has a key asked for before it is published**: its
    resolver being down, it is sealed under the key of its day. -/
theorem held_back_audit_asks_for_key : ¬ ∀ (P : Pipeline) (O : Openers) (env : Env) (record : RecordId)
    (operator reason : Text) (F : ReadStep → Fate Error) (σ : Store), P.yaml.Inverts →
    Ideal P.ciphers O → Unused P env.ulid σ →
      ∀ n ∈ (readWatched P O env F record operator reason ⟨σ, []⟩).2.seen,
        ∃ p d, AuditOf env record operator d ∧ Filed P p d ∧ Sole P p d n.2 := by
  intro h
  have hrun : ∃ n ∈ (readWatched (openDeployment fun _ => .unavailable "down") clearOpeners (quietEnv 0)
      noHoldKey (ulid 'A' (by decide)) "operator".toList "audit".toList ⟨oneSealed, []⟩).2.seen,
      ∀ q ∈ n.2.records.keys, fileStem q ≠ some (ulid 'Z' (by decide)).text := by
    decide +kernel
  have hasked := h (openDeployment fun _ => .unavailable "down") clearOpeners (quietEnv 0)
    (ulid 'A' (by decide)) "operator".toList "audit".toList noHoldKey oneSealed reader_inverts
    clear_ideal (oneSealed_unused _)
  obtain ⟨n, hn, hstem⟩ := hrun
  obtain ⟨p, d, haudit, hfiled, hsole⟩ := hasked n hn
  have hp : fileStem p = some (quietEnv 0).ulid.text := by rw [hfiled.stem, haudit.recordId]
  exact hstem p (AList.mem_keys.1 (OneFile.mem hsole.oneFile)) hp

end

end Yaam.Core
