/-
  The derived index: its tables, and what publishing a record writes to them
  (`yaam-store`, `store.rs` and `schema.rs`).

  A record's derived rows refer to it by its identifier, which is as unique as the
  integer key the schema uses; rows stand in insertion order, which is the order of
  that key.

  * `publish` inserts a record and everything derived from it; `truncateDerived`
    empties the index;
  * `publish_eq_ok`: exactly when a publish goes through, and what it leaves;
  * `entry` is what the index holds about one record: publishing another record
    leaves it (`entry_published_of_ne`), and a first publish makes it
    (`entry_published`);
  * `Shareless`: no row of a subject carries a wrapped share.
-/
import Yaam.Lib.Effect
import Yaam.Lib.Table
import Yaam.Lib.Tree
import Yaam.Index.Unixepoch
import Yaam.Crypto.Block

namespace Yaam.Index

open Text Contract Eff Crypto

/-- Index failures. -/
inductive Error where
  | badPublishInput (record : Text) (detail : String)
  | sqlite (detail : String)

def Error.display : Error → String
  | .badPublishInput record detail =>
    s!"publish input for record `{String.ofList record}` is inconsistent: {detail}"
  | .sqlite detail => s!"sqlite: {detail}"

/-! ## Tables -/

/-- `records`.  The frontmatter is the record without its prose. -/
structure RecordRow where
  recordId : RecordId
  schemaVer : UInt32
  frontmatter : ActionRecord
  body : Text
  atMs : ℤ
  receivedMs : ℤ
deriving DecidableEq

/-- `record_attrs`. -/
structure AttrRow where
  record : RecordId
  key : Text
  value : Text
deriving DecidableEq

/-- `entity_refs`. -/
structure EntityRow where
  record : RecordId
  kind : Text
  entityId : Text
  role : EntityRole
  confidence : Confidence
  receivedMs : ℤ
deriving DecidableEq

/-- `record_subjects`. -/
structure SubjectRow where
  record : RecordId
  subject : SubjectHash
  role : Role
  canonVer : UInt32
  epoch : Text
  wrappedKeyShare : Option Bytes
deriving DecidableEq

/-- `entities`: the catalog of entities seen. -/
structure CatalogRow where
  kind : Text
  entityId : Text
  firstSeenMs : ℤ
  lastSeenMs : ℤ
  refCount : ℕ
deriving DecidableEq

/-- The kinds of fan-out work. -/
inductive JobKind where
  | bundle
  | subjectLink
  | other (name : Text)
deriving DecidableEq

def JobKind.name : JobKind → Text
  | .bundle => "bundle".toList
  | .subjectLink => "subject_link".toList
  | .other name => name

/-- The state of a queued job. -/
inductive JobState where
  | pending
  | claimed
  | done
deriving DecidableEq

/-- `fanout_queue`. -/
structure JobRow where
  record : RecordId
  kind : JobKind
  state : JobState
  attempts : ℕ
  enqueuedMs : ℤ
  notBeforeMs : ℤ
  claimedMs : Option ℤ
deriving DecidableEq

/-- `timeline_mentions`. -/
structure MentionRow where
  record : RecordId
  kind : Text
  entityId : Text
deriving DecidableEq

/-- `quarantine_pending`: records held back, with the date of their spool key. -/
structure PendingRow where
  record : RecordId
  stagingPath : Path
  qkekDate : Text
  firstSeenMs : ℤ
deriving DecidableEq

/-- The index. -/
structure Tables where
  records : List RecordRow
  attrs : List AttrRow
  entityRefs : List EntityRow
  subjects : List SubjectRow
  entities : List CatalogRow
  fanoutQueue : List JobRow
  timelineMentions : List MentionRow
  quarantinePending : List PendingRow
deriving DecidableEq

def Tables.empty : Tables := ⟨[], [], [], [], [], [], [], []⟩

/-! ## Publishing -/

/-- What a publish needs: the record, the text search may index, and a wrapped
    share per subject with the epoch whose key wraps it. -/
structure PublishInput where
  record : ActionRecord
  searchableBody : Text
  subjectKeys : List (SubjectHash × Epoch × Bytes)

def attrText : AttrValue → Text
  | .text v => v
  | .int v => padInt 0 v.toInt
  | .bool v => (if v then "true" else "false").toList

/-- The record's row, when the index reads both stamps: they are `NOT NULL`. -/
def recordRow (doc : ActionRecord) (body : Text) : Except Error RecordRow :=
  match unixepochMs doc.at_, unixepochMs doc.receivedAt with
  | some atMs, some receivedMs =>
    -- CHECK (body = '' OR data_class <> 'subject_derived')
    if body ≠ [] ∧ doc.dataClass = .subjectDerived then .error (.sqlite "CHECK constraint failed")
    else .ok { recordId := doc.recordId, schemaVer := doc.schemaVer, frontmatter := doc.bare,
               body, atMs, receivedMs }
  | _, _ => .error (.sqlite "NOT NULL constraint failed")

def insertRecord (row : RecordRow) (rows : List RecordRow) : List RecordRow :=
  upsertAll (·.recordId) (fun old _ => old) [row] rows

/-- The server time of the row a record has. -/
def receivedMsOf (id : RecordId) (rows : List RecordRow) : Option ℤ :=
  (rows.find? (·.recordId = id)).map (·.receivedMs)

def attrRows (doc : ActionRecord) : List AttrRow :=
  doc.attrs.entries.map fun a => ⟨doc.recordId, a.1, attrText a.2⟩

def insertAttrs (doc : ActionRecord) (rows : List AttrRow) : List AttrRow :=
  upsertAll (fun r => (r.record, r.key)) (fun old new => { old with value := new.value })
    (attrRows doc) rows

def entityRow (doc : ActionRecord) (receivedMs : ℤ) (e : EntityRef) : EntityRow :=
  ⟨doc.recordId, e.kind, e.id, e.role, e.confidence, receivedMs⟩

def insertEntityRef (row : EntityRow) (rows : List EntityRow) : List EntityRow :=
  upsert (fun r => (r.record, r.kind, r.entityId, r.role))
    (fun old new => { old with confidence := new.confidence, receivedMs := new.receivedMs })
    row rows

/-- The catalog row of an entity, counted afresh from the references. -/
def recount (kind entityId : Text) (refs : List EntityRow) (rows : List CatalogRow) :
    List CatalogRow :=
  match (refs.filter fun r => r.kind = kind ∧ r.entityId = entityId).map (·.receivedMs) with
  | [] => rows
  | t :: ts => upsert (fun r => (r.kind, r.entityId)) (fun _ new => new)
      ⟨kind, entityId, ts.foldl min t, ts.foldl max t, ts.length + 1⟩ rows

/-- Writes the entity references, recounting the catalog row of each. -/
def insertEntities (doc : ActionRecord) (receivedMs : ℤ) (tables : List EntityRow × List CatalogRow) :
    List EntityRow × List CatalogRow :=
  doc.entities.foldl (fun ts e =>
    let refs := insertEntityRef (entityRow doc receivedMs e) ts.1
    (refs, recount e.kind e.id refs ts.2)) tables

/-- The row of one named subject, with its share when the caller has one. -/
def subjectRow (inp : PublishInput) (s : SubjectRef) : SubjectRow :=
  let keyed := inp.subjectKeys.find? (·.1 = s.hash)
  { record := inp.record.recordId, subject := s.hash, role := s.role, canonVer := s.canonVer,
    epoch := keyed.elim [] (·.2.1.text), wrappedKeyShare := keyed.map (·.2.2) }

/-- A publish without a share keeps the share and epoch that stand. -/
def mergeSubject (old new : SubjectRow) : SubjectRow :=
  { old with
    role := new.role
    canonVer := new.canonVer
    epoch := if new.wrappedKeyShare = none then old.epoch else new.epoch
    wrappedKeyShare := new.wrappedKeyShare.or old.wrappedKeyShare }

def badInput {α : Type} (doc : ActionRecord) (detail : String) : Except Error α :=
  .error (.badPublishInput doc.recordId.text detail)

/-- The first subject that a list holds a second time. -/
def firstRepeated : List SubjectHash → Option SubjectHash
  | [] => none
  | s :: ss => if s ∈ ss then some s else firstRepeated ss

/-- The first keyed subject, in order, that the record does not name. -/
def firstUnnamed (inp : PublishInput) : Option SubjectHash :=
  (((inp.subjectKeys.map (·.1)).filter fun s => ¬ inp.record.names s).insertionSort
    fun a b => a.text ≤ b.text).head?

/-- Whether the shares fit the record: none for a subject twice, none for a subject
    it does not name. -/
def checkKeys (inp : PublishInput) : Except Error Unit :=
  match firstRepeated (inp.subjectKeys.map (·.1)) with
  | some s => badInput inp.record s!"subject `{String.ofList s.text}` was keyed twice"
  | none => match firstUnnamed inp with
    | some s => badInput inp.record s!"no subject `{String.ofList s.text}` to key"
    | none => .ok ()

def insertSubjects (inp : PublishInput) (rows : List SubjectRow) : List SubjectRow :=
  upsertAll (fun r => (r.record, r.subject)) mergeSubject (inp.record.subjects.map (subjectRow inp))
    rows

def jobRows (doc : ActionRecord) (receivedMs : ℤ) : List JobRow :=
  let job := fun kind => ⟨doc.recordId, kind, .pending, 0, receivedMs, 0, none⟩
  if doc.subjects = [] then [job .bundle] else [job .bundle, job .subjectLink]

def enqueueFanout (doc : ActionRecord) (receivedMs : ℤ) (rows : List JobRow) : List JobRow :=
  upsertAll (fun r => (r.record, r.kind)) (fun old _ => old) (jobRows doc receivedMs) rows

/-- `SELECT received_ms FROM records`. -/
def queryReceivedMs (id : RecordId) : Eff Tables Error ℤ := do
  match receivedMsOf id (← state).records with
  | some ms => return ms
  | none => fail (.sqlite "Query returned no rows")

/-- Inserts a record and everything derived from it. -/
def publish (inp : PublishInput) : Eff Tables Error Unit := do
  let doc := inp.record
  ofExcept (refuseIf (doc.dataClass = .subjectDerived ∧ inp.searchableBody ≠ [])
    (.badPublishInput doc.recordId.text "a sealed record has no searchable body; pass \"\""))
  let row ← ofExcept (recordRow doc inp.searchableBody)
  change fun i => { i with records := insertRecord row i.records }
  let receivedMs ← queryReceivedMs doc.recordId
  change fun i => { i with attrs := insertAttrs doc i.attrs }
  change fun i =>
    let (refs, catalog) := insertEntities doc receivedMs (i.entityRefs, i.entities)
    { i with entityRefs := refs, entities := catalog }
  ofExcept (checkKeys inp)
  change fun i => { i with subjects := insertSubjects inp i.subjects }
  change fun i => { i with fanoutQueue := enqueueFanout doc receivedMs i.fanoutQueue }

/-- Drops every derived row: deleting a record cascades to what refers to it. -/
def truncateDerived (_ : Tables) : Tables := .empty

/-- Registers a held-back record, keeping the first sighting. -/
def enqueueQuarantine (id : RecordId) (qkekDate : Text) (spoolPath : Path) (now : ℤ) (i : Tables) :
    Tables :=
  { i with quarantinePending :=
      upsert (·.record) (fun old _ => old) ⟨id, spoolPath, qkekDate, now⟩ i.quarantinePending }

/-- Forgets that a record is held back. -/
def dequeueQuarantine (id : RecordId) (i : Tables) : Tables :=
  { i with quarantinePending := i.quarantinePending.filter fun r => r.record ≠ id }

/-- Whether a record has a row. -/
def Tables.has (i : Tables) (id : Text) : Bool := i.records.any fun r => r.recordId.text = id

/-! ## Fan-out -/

/-- The jobs ready at `now`, oldest first, at most `limit`. -/
def readyJobs (i : Tables) (limit : ℕ) (now : ℤ) : List JobRow :=
  ((i.fanoutQueue.filter fun j => j.state = .pending ∧ j.notBeforeMs ≤ now).insertionSort
    fun a b => a.enqueuedMs ≤ b.enqueuedMs).take limit

/-- Claims ready jobs; a job's handle is its record and its kind. -/
def claimFanout (limit : ℕ) (now : ℤ) : Eff Tables Error (List JobRow) := do
  let chosen := readyJobs (← state) limit now
  let claim := fun j : JobRow =>
    { j with state := .claimed, attempts := j.attempts + 1, claimedMs := some now }
  change fun i => { i with fanoutQueue := i.fanoutQueue.map fun j => if j ∈ chosen then claim j else j }
  return chosen.map claim

/-- Updates one job's row. -/
def updateJob (job : JobRow) (f : JobRow → JobRow) (i : Tables) : Tables :=
  { i with fanoutQueue := i.fanoutQueue.map fun j =>
      if j.record = job.record ∧ j.kind = job.kind then f j else j }

def completeFanout (job : JobRow) : Tables → Tables :=
  updateJob job fun j => { j with state := .done, claimedMs := none }

def failFanout (job : JobRow) (notBeforeMs : ℤ) : Tables → Tables :=
  updateJob job fun j =>
    if j.state = .claimed then { j with state := .pending, claimedMs := none, notBeforeMs } else j

/-- A claim nobody has renewed since the cutoff. -/
def JobRow.stale (cutoff : ℤ) (j : JobRow) : Bool :=
  j.state = .claimed && j.claimedMs.any fun c => c ≤ cutoff

/-- A stale claim goes back to the queue. -/
def JobRow.reclaim (cutoff : ℤ) (j : JobRow) : JobRow :=
  if j.stale cutoff then { j with state := .pending, claimedMs := none } else j

def reclaimStaleFanout (cutoff : ℤ) : Eff Tables Error ℕ := do
  let stale := (← state).fanoutQueue.filter (·.stale cutoff)
  change fun i => { i with fanoutQueue := i.fanoutQueue.map (·.reclaim cutoff) }
  return stale.length

/-- Claims the line naming a record in an entity's timeline; `false` when it is
    already written.  The row refers to the record's. -/
def claimTimelineMention (record : RecordId) (kind entityId : Text) : Eff Tables Error Bool := do
  let i ← state
  if (⟨record, kind, entityId⟩ : MentionRow) ∈ i.timelineMentions then return false
  else if i.has record.text then do
    change fun i =>
      { i with timelineMentions := i.timelineMentions ++ [⟨record, kind, entityId⟩] }
    return true
  else fail (.sqlite "FOREIGN KEY constraint failed")

/-! ## What a publish leaves -/

/-- A publish goes through with the record's row: no prose on a sealed record,
    stamps the index reads, and at most one share for each named subject. -/
structure Publishable (inp : PublishInput) (row : RecordRow) : Prop where
  body : inp.record.dataClass = .subjectDerived → inp.searchableBody = []
  row : recordRow inp.record inp.searchableBody = .ok row
  keys : checkKeys inp = .ok ()

/-- The index after a record with this row and this server time is published. -/
def published (inp : PublishInput) (row : RecordRow) (receivedMs : ℤ) (i : Tables) : Tables :=
  let doc := inp.record
  let entities := insertEntities doc receivedMs (i.entityRefs, i.entities)
  { i with
    records := insertRecord row i.records
    attrs := insertAttrs doc i.attrs
    entityRefs := entities.1
    entities := entities.2
    subjects := insertSubjects inp i.subjects
    fanoutQueue := enqueueFanout doc receivedMs i.fanoutQueue }

theorem recordRow_ok {doc : ActionRecord} {body : Text} {row : RecordRow}
    (h : recordRow doc body = .ok row) :
    row.recordId = doc.recordId ∧ row.body = body ∧ row.frontmatter = doc.bare ∧
      unixepochMs doc.at_ = some row.atMs ∧ unixepochMs doc.receivedAt = some row.receivedMs := by
  unfold recordRow at h
  split at h
  · rename_i a r ha hr
    split_ifs at h
    cases h
    exact ⟨rfl, rfl, rfl, ha, hr⟩
  · cases h

theorem receivedMsOf_insertRecord (row : RecordRow) (rows : List RecordRow) :
    ∃ ms, receivedMsOf row.recordId (insertRecord row rows) = some ms := by
  have h : ∃ y ∈ insertRecord row rows, y.recordId = row.recordId :=
    (exists_key_upsert (fun _ _ => rfl) _).2 (.inl rfl)
  unfold receivedMsOf
  cases hf : (insertRecord row rows).find? (·.recordId = row.recordId) with
  | some r => exact ⟨_, rfl⟩
  | none =>
    obtain ⟨y, hy, he⟩ := h
    exact absurd he (by simpa using List.find?_eq_none.1 hf y hy)

theorem queryReceivedMs_eq_ok {id : RecordId} {ms : ℤ} {i i' : Tables} :
    queryReceivedMs id i = (.ok ms, i') ↔ receivedMsOf id i.records = some ms ∧ i = i' := by
  unfold queryReceivedMs
  rw [state_bind]
  cases receivedMsOf id i.records with
  | none => simp
  | some m => simp

/-- **Exactly when a publish goes through, and what it leaves.** -/
theorem publish_eq_ok {inp : PublishInput} {i i' : Tables} :
    publish inp i = (.ok (), i') ↔ ∃ row ms, Publishable inp row ∧
      receivedMsOf inp.record.recordId (insertRecord row i.records) = some ms ∧
      published inp row ms i = i' := by
  constructor
  · intro h
    obtain ⟨_, i₁, h1, h⟩ := bind_eq_ok.1 h
    obtain ⟨hbody, rfl⟩ := ofExcept_eq_ok.1 h1
    obtain ⟨row, i₂, h2, h⟩ := bind_eq_ok.1 h
    obtain ⟨hrow, rfl⟩ := ofExcept_eq_ok.1 h2
    rw [change_bind] at h
    obtain ⟨ms, i₃, h3, h⟩ := bind_eq_ok.1 h
    obtain ⟨hms, rfl⟩ := queryReceivedMs_eq_ok.1 h3
    rw [change_bind, change_bind] at h
    obtain ⟨_, i₄, h4, h⟩ := bind_eq_ok.1 h
    obtain ⟨hkeys, rfl⟩ := ofExcept_eq_ok.1 h4
    refine ⟨row, ms, ⟨fun hd => ?_, hrow, hkeys⟩, hms, ?_⟩
    · by_contra hb
      exact refuseIf_ok.1 hbody ⟨hd, hb⟩
    · rw [change_bind, change_eq_ok] at h
      exact h
  · rintro ⟨row, ms, ⟨hbody, hrow, hkeys⟩, hms, rfl⟩
    have h1 : refuseIf (inp.record.dataClass = .subjectDerived ∧ inp.searchableBody ≠ [])
        (Error.badPublishInput inp.record.recordId.text
          "a sealed record has no searchable body; pass \"\"") = .ok () :=
      refuseIf_ok.2 fun h => h.2 (hbody h.1)
    simp only [publish, h1, hrow, hkeys, ofExcept_ok_bind, change_bind]
    rw [bind_of_ok (queryReceivedMs_eq_ok.2 ⟨hms, rfl⟩)]
    rfl

/-- A record of the contract has a row exactly when both its stamps are indexable
    and no prose stands on a sealed body. -/
theorem exists_recordRow_iff {doc : ActionRecord} {body : Text} (h : doc.validate = .ok ()) :
    (∃ row, recordRow doc body = .ok row) ↔
      (Indexable doc.at_ ∧ Indexable doc.receivedAt) ∧
        (doc.dataClass = .subjectDerived → body = []) := by
  obtain ⟨-, hat, hre, -⟩ := ActionRecord.validate_ok_iff.1 h
  obtain ⟨a, ha⟩ := Option.ne_none_iff_exists'.1 hat
  obtain ⟨r, hr⟩ := Option.ne_none_iff_exists'.1 hre
  obtain ⟨ha1, ha2⟩ := unixepochMs_of_parseMs ha
  obtain ⟨hr1, hr2⟩ := unixepochMs_of_parseMs hr
  constructor
  · rintro ⟨row, hrow⟩
    have hiff : Indexable doc.at_ ∧ Indexable doc.receivedAt := by
      obtain ⟨-, -, -, hat', hre'⟩ := recordRow_ok hrow
      constructor
      · by_contra hn
        rw [ha2 hn] at hat'
        cases hat'
      · by_contra hn
        rw [hr2 hn] at hre'
        cases hre'
    refine ⟨hiff, fun hd => ?_⟩
    by_contra hb
    simp [recordRow, ha1 hiff.1, hr1 hiff.2, hb, hd] at hrow
  · rintro ⟨⟨h1, h2⟩, hb⟩
    have hcheck : ¬(body ≠ [] ∧ doc.dataClass = .subjectDerived) := fun hn => hn.1 (hb hn.2)
    simp [recordRow, ha1 h1, hr1 h2, hcheck]

theorem insertEntities_refs (doc : ActionRecord) (ms : ℤ) (ts : List EntityRow × List CatalogRow) :
    (insertEntities doc ms ts).1 =
      upsertAll (fun r => (r.record, r.kind, r.entityId, r.role))
        (fun old new => { old with confidence := new.confidence, receivedMs := new.receivedMs })
        (doc.entities.map (entityRow doc ms)) ts.1 := by
  unfold insertEntities
  induction doc.entities generalizing ts with
  | nil => rfl
  | cons e es ih =>
    rw [List.foldl_cons, ih]
    rfl

/-! ## What the index holds about one record -/

/-- The rows of one record. -/
structure Entry where
  records : List RecordRow
  attrs : List AttrRow
  entityRefs : List EntityRow
  subjects : List SubjectRow
deriving DecidableEq

def Tables.entry (i : Tables) (id : RecordId) : Entry where
  records := i.records.filter fun r => r.recordId = id
  attrs := i.attrs.filter fun r => r.record = id
  entityRefs := i.entityRefs.filter fun r => r.record = id
  subjects := i.subjects.filter fun r => r.record = id

/-- A record the index holds nothing about. -/
def Tables.Unknown (i : Tables) (id : RecordId) : Prop := i.entry id = Tables.empty.entry id

variable {inp : PublishInput} {row : RecordRow} {ms : ℤ} {i : Tables}

section
variable {doc : ActionRecord}

theorem filter_insertAttrs (rows : List AttrRow) :
    (insertAttrs doc rows).filter (fun r => r.record = doc.recordId) =
      insertAttrs doc (rows.filter fun r => r.record = doc.recordId) :=
  filter_upsertAll (fun _ _ => rfl) (fun _ _ h => congrArg Prod.fst h) fun x hx => by
    obtain ⟨a, -, rfl⟩ := List.mem_map.1 hx
    rfl

theorem filter_insertAttrs_of_ne {id : RecordId} (hid : doc.recordId ≠ id) (rows : List AttrRow) :
    (insertAttrs doc rows).filter (fun r => r.record = id) = rows.filter fun r => r.record = id :=
  filter_upsertAll_of_ne (fun _ _ => rfl) (fun _ _ h => congrArg Prod.fst h) fun x hx => by
    obtain ⟨a, -, rfl⟩ := List.mem_map.1 hx
    exact hid

theorem filter_insertEntities (ms : ℤ) (ts : List EntityRow × List CatalogRow) :
    (insertEntities doc ms ts).1.filter (fun r => r.record = doc.recordId) =
      (insertEntities doc ms (ts.1.filter fun r => r.record = doc.recordId, [])).1 := by
  rw [insertEntities_refs, insertEntities_refs]
  exact filter_upsertAll (fun _ _ => rfl) (fun _ _ h => congrArg Prod.fst h) (by simp [entityRow])

theorem filter_insertEntities_of_ne {id : RecordId} (hid : doc.recordId ≠ id) (ms : ℤ)
    (ts : List EntityRow × List CatalogRow) :
    (insertEntities doc ms ts).1.filter (fun r => r.record = id) =
      ts.1.filter fun r => r.record = id := by
  rw [insertEntities_refs]
  exact filter_upsertAll_of_ne (fun _ _ => rfl) (fun _ _ h => congrArg Prod.fst h)
    (by simpa [entityRow] using fun _ _ => hid)

theorem filter_insertSubjects (inp : PublishInput) (rows : List SubjectRow) :
    (insertSubjects inp rows).filter (fun r => r.record = inp.record.recordId) =
      insertSubjects inp (rows.filter fun r => r.record = inp.record.recordId) :=
  filter_upsertAll (fun _ _ => rfl) (fun _ _ h => congrArg Prod.fst h) (by simp [subjectRow])

theorem filter_insertSubjects_of_ne {inp : PublishInput} {id : RecordId}
    (hid : inp.record.recordId ≠ id) (rows : List SubjectRow) :
    (insertSubjects inp rows).filter (fun r => r.record = id) = rows.filter fun r => r.record = id :=
  filter_upsertAll_of_ne (fun _ _ => rfl) (fun _ _ h => congrArg Prod.fst h)
    (by simpa [subjectRow] using fun _ _ => hid)

theorem jobRows_record (ms : ℤ) : ∀ j ∈ jobRows doc ms, j.record = doc.recordId := by
  intro j hj
  unfold jobRows at hj
  split_ifs at hj
  all_goals
    simp only [List.mem_cons, List.not_mem_nil, or_false] at hj
    rcases hj with rfl | rfl <;> rfl

theorem filter_enqueueFanout (ms : ℤ) (rows : List JobRow) :
    (enqueueFanout doc ms rows).filter (fun r => r.record = doc.recordId) =
      enqueueFanout doc ms (rows.filter fun r => r.record = doc.recordId) :=
  filter_upsertAll (fun _ _ => rfl) (fun _ _ h => congrArg Prod.fst h) (jobRows_record ms)

theorem filter_enqueueFanout_of_ne {id : RecordId} (hid : doc.recordId ≠ id) (ms : ℤ)
    (rows : List JobRow) : (enqueueFanout doc ms rows).filter (fun r => r.record = id) =
      rows.filter fun r => r.record = id :=
  filter_upsertAll_of_ne (fun _ _ => rfl) (fun _ _ h => congrArg Prod.fst h) fun j hj => by
    rw [jobRows_record ms j hj]
    exact hid

end

/-- Publishing a record leaves what the index holds about the others. -/
theorem entry_published_of_ne (hrow : row.recordId = inp.record.recordId) {id : RecordId}
    (hid : inp.record.recordId ≠ id) : (published inp row ms i).entry id = i.entry id := by
  have h1 : (insertRecord row i.records).filter (fun r => r.recordId = id) =
      i.records.filter fun r => r.recordId = id :=
    filter_upsertAll_of_ne (fun _ _ => rfl) (fun _ _ h => h) (by simpa [hrow] using hid)
  simp only [Tables.entry, published, h1, filter_insertAttrs_of_ne hid,
    filter_insertEntities_of_ne hid, filter_insertSubjects_of_ne hid]

/-- **Publishing a record the index knows nothing about** gives it the rows it has
    when it is published alone. -/
theorem entry_published (hrow : row.recordId = inp.record.recordId)
    (hnew : i.Unknown inp.record.recordId) :
    (published inp row ms i).entry inp.record.recordId =
      (published inp row ms .empty).entry inp.record.recordId := by
  simp only [Tables.Unknown, Tables.entry, Entry.mk.injEq] at hnew
  obtain ⟨n1, n2, n3, n4⟩ := hnew
  have h1 : ∀ rows : List RecordRow, (insertRecord row rows).filter
      (fun r => r.recordId = inp.record.recordId) =
      insertRecord row (rows.filter fun r => r.recordId = inp.record.recordId) := fun rows =>
    filter_upsertAll (fun _ _ => rfl) (fun _ _ h => h) (by simpa using hrow)
  simp only [Tables.entry, published, h1, filter_insertAttrs, filter_insertEntities,
    filter_insertSubjects, n1, n2, n3, n4]

/-- The records of an index after a publish. -/
theorem has_published (hrow : row.recordId = inp.record.recordId) (t : Text) :
    (published inp row ms i).has t = true ↔ inp.record.recordId.text = t ∨ i.has t = true := by
  have hkey : ∀ id, (∃ r ∈ insertRecord row i.records, r.recordId = id) ↔
      id = row.recordId ∨ ∃ r ∈ i.records, r.recordId = id :=
    exists_key_upsert fun _ _ => rfl
  simp only [Tables.has, List.any_eq_true, decide_eq_true_eq, published]
  constructor
  · rintro ⟨r, hr, rfl⟩
    rcases (hkey _).1 ⟨r, hr, rfl⟩ with h | ⟨r', hr', h⟩
    · exact .inl (by rw [h, hrow])
    · exact .inr ⟨r', hr', by rw [h]⟩
  · rintro (rfl | ⟨r, hr, rfl⟩)
    · obtain ⟨r, hr, h⟩ := (hkey _).2 (.inl rfl)
      exact ⟨r, hr, by rw [h, hrow]⟩
    · obtain ⟨r', hr', h⟩ := (hkey _).2 (.inr ⟨r, hr, rfl⟩)
      exact ⟨r', hr', by rw [h]⟩

/-! ## Shares -/

/-- No row of a subject carries a wrapped share. -/
def Tables.Shareless (i : Tables) (s : SubjectHash) : Prop :=
  ∀ r ∈ i.subjects, r.subject = s → r.wrappedKeyShare = none

/-- A publish that keys other subjects brings no share of this one. -/
theorem shareless_published {s : SubjectHash} (hi : i.Shareless s)
    (hkeys : ∀ k ∈ inp.subjectKeys, k.1 ≠ s) : (published inp row ms i).Shareless s := by
  have hnone : ∀ x ∈ inp.record.subjects.map (subjectRow inp),
      x.subject = s → x.wrappedKeyShare = none := by
    intro x hx hs
    obtain ⟨n, -, rfl⟩ := List.mem_map.1 hx
    have hfind : inp.subjectKeys.find? (·.1 = n.hash) = none := by
      rw [List.find?_eq_none]
      intro k hk hke
      exact hkeys k hk ((of_decide_eq_true hke).trans hs)
    simp [subjectRow, hfind]
  refine forall_upsertAll hnone hi fun x hx y hk hy hs => ?_
  have hxs : x.subject = s := (congrArg Prod.snd hk).symm.trans hs
  simp [mergeSubject, hnone x hx hxs, hy hs]

end Yaam.Index
