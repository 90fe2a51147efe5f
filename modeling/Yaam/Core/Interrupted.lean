/-
  A write cut short, swept up and presented again.

  * `Afloat` is what writes, wherever they stop, sweeps and drains keep of a store;
  * `Afloat.sweep`: a sweep of such a store goes through, publishes the stale copies, indexes
    the recent files and leaves the next sweep nothing to do;
  * `crash_converges_iff`: the record is then published once, with its row, exactly where the
    write got to its end or no earlier copy of the record was held back;
  * `held_copy_outlives_publish`: a sweep that publishes a record leaves the copy held back.
-/
import Yaam.Core.Rebuilt
import Yaam.Core.Redriven

namespace Yaam.Core

open Text Contract Crypto Md Eff Index

variable {P : Pipeline} {env : Env} {σ τ : Store} {d : Document} {p dest : Path} {f : File}
  {id : RecordId} {r : ActionRecord} {body : Text} {st : Stamp}

/-! ## What is on disk for a record -/

/-- A file carries a document whose place is this one, and which the index takes. -/
structure Bears (P : Pipeline) (dest : Path) (f : File) (d : Document) : Prop where
  place : destination d.record = .ok dest
  carries : Carries P f d
  indexes : Indexes d

/-- The index has no row of a record. -/
def Rowless (i : Tables) (id : RecordId) : Prop := (i.entry id).records = []

/-- No published file is named for a record. -/
def Unfiled (σ : Store) (id : RecordId) : Prop := ∀ q ∈ σ.records, fileStem q ≠ some id.text

/-- Nothing of a record is held back. -/
def Unheld (σ : Store) (id : RecordId) : Prop :=
  [recordFile id] ∉ σ.quarantine ∧ ∀ row ∈ σ.index.quarantinePending, row.record ≠ id

/-- A record's file stands at its place, and the index has of it what publishing that file
    leaves. -/
def AtHome (P : Pipeline) (σ : Store) (dest : Path) (id : RecordId) : Prop :=
  ∃ f d, σ.records.lookup dest = some f ∧ Bears P dest f d ∧ d.record.recordId = id ∧
    σ.index.entry id = alone d

theorem Bears.stem (h : Bears P dest f d) : fileStem dest = some d.record.recordId.text := by
  obtain ⟨dir, rfl⟩ := destination_ok h.place
  exact fileStem_recordFile dir _

theorem Bears.extension (h : Bears P dest f d) : extension dest = some recordExt := by
  obtain ⟨dir, rfl⟩ := destination_ok h.place
  exact extension_recordFile dir _

theorem Bears.unique {dest' : Path} {d' : Document} (h : Bears P dest f d)
    (h' : Bears P dest' f d') : d' = d ∧ dest' = dest := by
  obtain rfl := h.carries.unique h'.carries
  exact ⟨rfl, Except.ok.inj (h'.place.symm.trans h.place)⟩

theorem Bears.oneSubject (h : Bears P dest f d) : d.record.subjects.length ≤ 1 := by
  obtain ⟨text, -, hparse⟩ := h.carries
  exact (ActionRecord.validate_ok_iff.1 (Document.parse_validate hparse)).2.2.2.2.1

theorem rowless_iff {i : Tables} : Rowless i id ↔ ∀ row ∈ i.records, row.recordId ≠ id := by
  simp [Rowless, Tables.entry, List.filter_eq_nil_iff]

theorem has_iff {i : Tables} : i.has id.text = true ↔ ¬ Rowless i id := by
  rw [rowless_iff, Tables.has, List.any_eq_true]
  push Not
  refine exists_congr fun row => and_congr_right fun _ => ?_
  rw [decide_eq_true_iff]
  exact ⟨RecordId.ext_text, fun h => by rw [h]⟩

/-- A document published alone has a row. -/
theorem alone_hasRow (h : Indexes d) : (alone d).records ≠ [] := by
  obtain ⟨row, hrow⟩ := h
  have hid : row.recordId = d.record.recordId := (recordRow_ok hrow.row).1
  have hmem : row ∈ (alone d).records := by
    rw [alone_eq hrow]
    show row ∈ [row].filter fun r => r.recordId = d.record.recordId
    simp [hid]
  exact List.ne_nil_of_mem hmem

theorem AtHome.not_rowless (h : AtHome P σ dest id) : ¬ Rowless σ.index id := by
  obtain ⟨f, d, -, hd, -, hentry⟩ := h
  rw [Rowless, hentry]
  exact alone_hasRow hd.indexes

/-! ## A store with writes cut short in it -/

/-- **A store afloat**: every copy in the staging directory and every published file holds a
    document, a copy's of a record that is published nowhere; no two files are named for one
    record, and a row is of a record that has a file and is as publishing the file leaves it. -/
structure Afloat (P : Pipeline) (σ : Store) : Prop where
  copies : ∀ p f, σ.staging.lookup p = some f → ∃ dest d, p = stagedPath d ∧ Bears P dest f d ∧
    Unfiled σ d.record.recordId
  files : ∀ p f, σ.records.lookup p = some f → ∃ d, Bears P p f d ∧
    (σ.index.entry d.record.recordId = alone d ∨ Rowless σ.index d.record.recordId)
  oneFile : ∀ p ∈ σ.records, ∀ q ∈ σ.records, fileStem p = fileStem q → p = q
  known : ∀ id, ¬ Rowless σ.index id → ∃ p ∈ σ.records, fileStem p = some id.text
  projects : Projects σ.index

theorem Afloat.empty (P : Pipeline) : Afloat P emptyStore where
  copies p f h := by cases h
  files p f h := by cases h
  oneFile p h := by cases h
  known id h := absurd rfl h
  projects := Projects.empty

theorem Afloat.rowless (h : Afloat P σ) (hno : Unfiled σ id) : Rowless σ.index id := by
  by_contra hrow
  obtain ⟨p, hp, hstem⟩ := h.known id hrow
  exact hno p hp hstem

theorem Afloat.mem_files (h : Afloat P σ) (hp : p ∈ σ.records) : ∃ f d,
    σ.records.lookup p = some f ∧ Bears P p f d ∧
      (σ.index.entry d.record.recordId = alone d ∨ Rowless σ.index d.record.recordId) := by
  obtain ⟨f, hf⟩ := Tree.mem_iff_lookup.1 hp
  obtain ⟨d, hd⟩ := h.files p f hf
  exact ⟨f, d, hf, hd⟩

/-- Being afloat is about the two trees and the rows. -/
theorem Afloat.congr (h : Afloat P σ) (hstaging : τ.staging = σ.staging)
    (hrecords : τ.records = σ.records) (hindex : SameJobs σ.index τ.index) : Afloat P τ := by
  have hentry := hindex.entry
  constructor
  · intro p f hf
    rw [hstaging] at hf
    obtain ⟨dest, d, hp, hd, hno⟩ := h.copies p f hf
    exact ⟨dest, d, hp, hd, by rwa [Unfiled, hrecords]⟩
  · intro p f hf
    rw [hrecords] at hf
    obtain ⟨d, hd, hrow⟩ := h.files p f hf
    exact ⟨d, hd, by rwa [Rowless, hentry]⟩
  · rw [hrecords]
    exact h.oneFile
  · intro id hid
    rw [Rowless, hentry] at hid
    rw [hrecords]
    exact h.known id hid
  · exact h.projects.queue hindex

theorem AtHome.congr (h : AtHome P σ dest id) (hrecords : τ.records = σ.records)
    (hindex : SameJobs σ.index τ.index) : AtHome P τ dest id := by
  obtain ⟨f, d, hf, hd, hid, hentry⟩ := h
  exact ⟨f, d, by rwa [hrecords], hd, hid, (hindex.entry id).trans hentry⟩

/-- A record that is published nowhere is staged. -/
theorem Afloat.stage (h : Afloat P σ) (hd : Bears P dest ⟨fileBytes P d, env.now⟩ d)
    (hno : Unfiled σ d.record.recordId) : Afloat P (stagedIn P env d σ) := by
  refine ⟨fun p f hf => ?_, h.files, h.oneFile, h.known, h.projects⟩
  by_cases hp : p = stagedPath d
  · subst hp
    rw [stagedIn, Tree.write, AList.lookup_insert] at hf
    obtain rfl := Option.some.inj hf
    exact ⟨dest, d, rfl, hd, hno⟩
  · rw [stagedIn, Tree.write, AList.lookup_insert_ne hp] at hf
    exact h.copies p f hf

/-- The store with a copy renamed into place. -/
def placedFrom (p dest : Path) (f : File) (τ : Store) : Store :=
  { τ with staging := τ.staging.erase p, records := τ.records.insert dest f }

theorem Afloat.place (h : Afloat P τ) (hd : Bears P dest f d) (hno : Unfiled τ d.record.recordId) :
    Afloat P (placedFrom (stagedPath d) dest f τ) := by
  have hstem := hd.stem
  constructor
  · intro p g hg
    have hp : p ≠ stagedPath d := by
      rintro rfl
      rw [placedFrom, AList.lookup_erase] at hg
      cases hg
    rw [placedFrom, AList.lookup_erase_ne hp] at hg
    obtain ⟨dest', d', rfl, hd', hno'⟩ := h.copies p g hg
    refine ⟨dest', d', rfl, hd', fun q hq => ?_⟩
    rcases (AList.mem_insert _).1 hq with rfl | hq
    · intro hs
      refine hp ?_
      rw [stagedPath, stagedPath, RecordId.ext_text (Option.some.inj (hs.symm.trans hstem))]
    · exact hno' q hq
  · intro p g hg
    by_cases hp : p = dest
    · subst hp
      rw [placedFrom, AList.lookup_insert] at hg
      obtain rfl := Option.some.inj hg
      exact ⟨d, hd, .inr (h.rowless hno)⟩
    · rw [placedFrom, AList.lookup_insert_ne hp] at hg
      exact h.files p g hg
  · intro p hp q hq hpq
    rcases (AList.mem_insert _).1 hp with rfl | hp' <;>
      rcases (AList.mem_insert _).1 hq with rfl | hq'
    · rfl
    · exact absurd (hpq.symm.trans hstem) (hno q hq')
    · exact absurd (hpq.trans hstem) (hno p hp')
    · exact h.oneFile p hp' q hq' hpq
  · intro id hid
    obtain ⟨p, hp, hs⟩ := h.known id hid
    exact ⟨p, (AList.mem_insert _).2 (.inr hp), hs⟩
  · exact h.projects

/-- What indexing a document of an unknown record does to the tables. -/
structure Took (d : Document) (i i' : Tables) : Prop where
  projects : Projects i'
  entry : i'.entry d.record.recordId = alone d
  others : ∀ id, id ≠ d.record.recordId → i'.entry id = i.entry id
  register : i'.quarantinePending = i.quarantinePending
  idle : ∀ j ∈ i'.fanoutQueue, j ∈ i.fanoutQueue ∨ j.state = .pending

theorem mem_enqueueFanout {doc : ActionRecord} {ms : ℤ} {rows : List JobRow} {j : JobRow}
    (h : j ∈ enqueueFanout doc ms rows) : j ∈ rows ∨ j.state = .pending := by
  have hjobs : ∀ x ∈ jobRows doc ms, x.state = .pending := by
    intro x hx
    unfold jobRows at hx
    split_ifs at hx <;> simp at hx
    · rw [hx]
    · rcases hx with rfl | rfl <;> rfl
  rw [enqueueFanout] at h
  generalize jobRows doc ms = xs at h hjobs
  induction xs generalizing rows with
  | nil => exact .inl h
  | cons x xs ih =>
    rcases ih h fun y hy => hjobs y (by simp [hy]) with hold | hpending
    · rcases mem_upsert hold with rfl | hold | ⟨z, hz, -, rfl⟩
      · exact .inr (hjobs _ (by simp))
      · exact .inl hold
      · exact .inl hz
    · exact .inr hpending

theorem commit_took (h : Indexes d) (hone : d.record.subjects.length ≤ 1) (hproj : Projects τ.index)
    (hnew : Rowless τ.index d.record.recordId) :
    ∃ i, commit d τ = (.ok (), { τ with index := i }) ∧ Took d τ.index i := by
  rcases commit_cases d τ with ⟨row, ms, hrow, hms, hrun⟩ | ⟨hno, -⟩
  · rw [rowless_iff] at hnew
    refine ⟨_, hrun, ?_, entry_of_new hrow hms hproj hnew, fun id hid => ?_, rfl, fun j hj => ?_⟩
    · exact hproj.published hone hrow.row hms fun old hold hoid => absurd hoid (hnew old hold)
    · exact entry_published_of_ne (recordRow_ok hrow.row).1 (Ne.symm hid)
    · exact mem_enqueueFanout hj
  · obtain ⟨row, hrow⟩ := h
    exact absurd hrow (hno row)

/-- A published file without a row is indexed. -/
theorem Afloat.commit (h : Afloat P τ) (hf : τ.records.lookup p = some f) (hd : Bears P p f d)
    (hnew : Rowless τ.index d.record.recordId) : ∃ i, commit d τ = (.ok (), { τ with index := i }) ∧
      Took d τ.index i ∧ Afloat P { τ with index := i } := by
  obtain ⟨i, hrun, hi⟩ := commit_took hd.indexes hd.oneSubject h.projects hnew
  have hmem : p ∈ τ.records := Tree.mem_iff_lookup.2 ⟨f, hf⟩
  refine ⟨i, hrun, hi, h.copies, fun q g hg => ?_, h.oneFile, fun id hid => ?_, hi.projects⟩
  · obtain ⟨d', hd', hrow⟩ := h.files q g hg
    refine ⟨d', hd', ?_⟩
    by_cases he : d'.record.recordId = d.record.recordId
    · have hq : q = p :=
        h.oneFile q (Tree.mem_iff_lookup.2 ⟨g, hg⟩) p hmem (by rw [hd'.stem, hd.stem, he])
      subst hq
      obtain rfl := Option.some.inj (hf.symm.trans hg)
      rw [(hd.unique hd').1]
      exact .inl hi.entry
    · rw [Rowless, hi.others _ he]
      exact hrow
  · by_cases he : id = d.record.recordId
    · subst he
      exact ⟨p, hmem, hd.stem⟩
    · rw [Rowless, hi.others id he] at hid
      exact h.known id hid

/-! ## Writes, wherever they stop -/

/-- The place of the record the staged copy of an identifier carries. -/
def copyPlace (P : Pipeline) (σ : Store) (id : RecordId) : Option Path := do
  let text ← (σ.staging.readToString [recordFile id]).toOption
  let d ← (Document.parse P.yaml text).toOption
  (destination d.record).toOption

/-- A record to present: the index reads its stamps, its file keeps its body, and no other
    record that is published or staged has its identifier. -/
structure Presentable (P : Pipeline) (σ : Store) (r : ActionRecord) (body : Text) : Prop where
  stamps : Indexable r.at_ ∧ Indexable r.receivedAt
  kept : KeptBody r body
  filed : ∀ p ∈ σ.records, fileStem p = some r.recordId.text → (destination r).toOption = some p
  copied : [recordFile r.recordId] ∈ σ.staging →
    copyPlace P σ r.recordId = (destination r).toOption

/-- Whether a write of the record goes on to stage it: nothing is filed at its place, it is
    valid, its subject resolves and the subject's key is at hand. -/
def admits (P : Pipeline) (env : Env) (r : ActionRecord) (body : Text) (σ : Store) : Bool :=
  match (admission P env r body σ).1 with
  | .ok (.admitted _ _) => true
  | _ => false

theorem admits_iff : admits P env r body σ = true ↔
    ∃ d st σ', admission P env r body σ = (.ok (.admitted d st), σ') := by
  unfold admits
  cases admission P env r body σ with
  | mk res σ' =>
    rcases res with e | (_ | _ | ⟨d, st⟩)
    · simp
    · simp
    · simp
    · simp

/-- The document of a record to present, once it is admitted, is one its file will hold. -/
theorem Admitted.bears (hY : P.yaml.Inverts) (h : Admitted P r body σ d st) (env : Env)
    (hstamps : Indexable r.at_ ∧ Indexable r.receivedAt) (hkept : KeptBody r body) :
    ∃ dest, destination r = .ok dest ∧ publishedPath d.record st = .ok dest ∧ dest ∉ σ.records ∧
      d.record.recordId = r.recordId ∧ Bears P dest ⟨fileBytes P d, env.now⟩ d := by
  obtain ⟨dest, hpub, -, hfresh, hdest, hid⟩ := h.dest
  obtain ⟨r', ss, hval, -, -, hrec, -⟩ := h.record
  have hplace : SamePlace r d.record := by
    have hp := (validated_ok hval).place
    rw [hrec]
    exact ⟨hp.recordId, hp.receivedAt, hp.visibility, hp.agent⟩
  refine ⟨dest, hdest, hpub, hfresh, hid, hplace.destination.trans hdest, ?_, ?_⟩
  · exact ⟨Document.render P.yaml d, rfl, h.reads_back hY hkept⟩
  · exact h.publishable_iff.2 hstamps

/-- The store of an admitted write that stops at a window. -/
def stopped (P : Pipeline) (env : Env) (d : Document) (dest : Path) (i : Tables) (σ : Store) :
    Window → Store
  | .admitted => σ
  | .staged => stagedIn P env d σ
  | .placed => placedIn P env d dest σ
  | .committed => { placedIn P env d dest σ with index := i }
  | .settled => { placedIn P env d dest σ with
      quarantine := σ.quarantine.erase (stagedPath d)
      index := dequeueQuarantine d.record.recordId i }

theorem publishUntil_apply (hdest : publishedPath d.record st = .ok dest) {i : Tables}
    (hrun : commit d (placedIn P env d dest σ) =
      (.ok (), { placedIn P env d dest σ with index := i }))
    (w : Window) : publishUntil P env d st w σ = (.ok (), stopped P env d dest i σ w) := by
  cases w with
  | admitted => rfl
  | staged => rfl
  | placed =>
    rw [publishUntil, bind_of_ok (stage_apply _ _), bind_of_ok (place_stagedIn hdest _)]
    rfl
  | committed =>
    rw [publishUntil, bind_of_ok (stage_apply _ _), bind_of_ok (place_stagedIn hdest _), hrun]
    rfl
  | settled =>
    rw [publishUntil, bind_of_ok (stage_apply _ _), bind_of_ok (place_stagedIn hdest _),
      bind_of_ok hrun]
    rfl

theorem acceptUntil_admitted {σ' σ'' : Store}
    (h : admission P env r body σ = (.ok (.admitted d st), σ')) (w : Window)
    (hrun : publishUntil P env d st w σ' = (.ok (), σ'')) :
    acceptUntil P env w r body σ = (.ok (.stored r.recordId), σ'') := by
  rw [acceptUntil, bind_of_ok h]
  exact bind_of_ok hrun _

/-- A write that gets to its end is a write. -/
theorem acceptUntil_settled (P : Pipeline) (env : Env) (r : ActionRecord) (body : Text) :
    acceptUntil P env .settled r body = accept P env r body := by
  rw [acceptUntil, accept]
  refine congrArg _ (funext fun a => ?_)
  cases a with
  | duplicate => rfl
  | held => rfl
  | admitted d st => simp only [publishUntil, bind_assoc]

/-- **An admitted write leaves a store afloat, wherever it stops.** -/
theorem Afloat.stopped (h : Afloat P σ) (hd : Bears P dest ⟨fileBytes P d, env.now⟩ d)
    (hno : Unfiled σ d.record.recordId) : ∃ i,
      Core.commit d (placedIn P env d dest σ) =
          (.ok (), { placedIn P env d dest σ with index := i }) ∧
        Took d σ.index i ∧ ∀ w, Afloat P (Core.stopped P env d dest i σ w) := by
  have hstaged := h.stage hd hno
  have hplaced : Afloat P (placedIn P env d dest σ) := hstaged.place hd hno
  have hf : (placedIn P env d dest σ).records.lookup dest = some ⟨fileBytes P d, env.now⟩ :=
    AList.lookup_insert _
  obtain ⟨i, hrun, hi, hcommitted⟩ := hplaced.commit hf hd (h.rowless hno)
  refine ⟨i, hrun, hi, fun w => ?_⟩
  cases w with
  | admitted => exact h
  | staged => exact hstaged
  | placed => exact hplaced
  | committed => exact hcommitted
  | settled => exact hcommitted.congr rfl rfl (sameJobs_quarantine _ _)

theorem Presentable.unfiled (h : Presentable P σ r body) (hdest : destination r = .ok dest)
    (hfresh : dest ∉ σ.records) : Unfiled σ r.recordId := by
  intro q hq hstem
  have hq' := h.filed q hq hstem
  rw [hdest] at hq'
  obtain rfl := Option.some.inj hq'
  exact hfresh hq

theorem Afloat.onlyKeys (h : Afloat P σ) (hkeys : OnlyKeys σ τ) : Afloat P τ := by
  obtain ⟨t, rfl, -⟩ := hkeys
  exact h.congr rfl rfl ⟨rfl, rfl, rfl, rfl, rfl, rfl⟩

theorem Afloat.spooled (h : Afloat P σ) (r : ActionRecord) (st : Stamp) (block : SealedBody) :
    Afloat P (spooled P env r st block σ) :=
  h.congr rfl rfl (sameJobs_quarantine _ _)

/-- What an admitted write of a record to present comes to. -/
structure Writes (P : Pipeline) (env : Env) (r : ActionRecord) (body : Text) (σ : Store)
    (dest : Path) (d : Document) (i : Tables) (σ' : Store) : Prop where
  dest_ok : destination r = .ok dest
  fresh : dest ∉ σ.records
  unfiled : Unfiled σ r.recordId
  id_eq : d.record.recordId = r.recordId
  bears : Bears P dest ⟨fileBytes P d, env.now⟩ d
  keys : OnlyKeys σ σ'
  took : Took d σ.index i
  runs : ∀ w, acceptUntil P env w r body σ = (.ok (.stored r.recordId), stopped P env d dest i σ' w)
  afloat : ∀ w, Afloat P (stopped P env d dest i σ' w)

theorem Afloat.writes (hY : P.yaml.Inverts) (h : Afloat P σ) (hr : Presentable P σ r body)
    (hadm : admits P env r body σ = true) : ∃ dest d i σ', Writes P env r body σ dest d i σ' := by
  obtain ⟨d, st, σ', hadm⟩ := admits_iff.1 hadm
  have hstep := admission_step P env r body σ
  rw [hadm] at hstep
  cases hstep with
  | admitted _ _ _ has hkeys =>
    obtain ⟨dest, hdest, hpub, hfresh, hid, hbears⟩ := has.bears hY env hr.stamps hr.kept
    have hno := hr.unfiled hdest hfresh
    obtain ⟨t, rfl, ht⟩ := hkeys
    have h' : Afloat P { σ with keys := t } := h.onlyKeys ⟨t, rfl, ht⟩
    have hno' : Unfiled { σ with keys := t } d.record.recordId := by
      rw [hid]
      exact hno
    obtain ⟨i, hrun, hi, hafloat⟩ := h'.stopped hbears hno'
    exact ⟨dest, d, i, _, hdest, hfresh, hno, hid, hbears, ⟨t, rfl, ht⟩, hi,
      fun w => acceptUntil_admitted hadm w (publishUntil_apply hpub hrun w), hafloat⟩

/-- A write that is not admitted leaves keys, or a copy held back, whatever the window. -/
theorem acceptUntil_not_admitted (hadm : admits P env r body σ ≠ true) (w : Window) :
    ∃ σ₁, OnlyKeys σ σ₁ ∧ ((acceptUntil P env w r body σ).2 = σ₁ ∨
      ∃ r' st block, (acceptUntil P env w r body σ).2 = spooled P env r' st block σ₁) := by
  have hstep := admission_step P env r body σ
  rw [acceptUntil]
  cases hrun : admission P env r body σ with
  | mk res σ' =>
    rw [hrun] at hstep
    cases hstep with
    | duplicate =>
      rw [bind_of_ok hrun]
      exact ⟨_, OnlyKeys.refl _, .inl rfl⟩
    | refused e _ hkeys =>
      rw [bind_of_error hrun]
      exact ⟨σ', hkeys, .inl rfl⟩
    | held r' st block σ₁ _ _ hkeys =>
      rw [bind_of_ok hrun]
      exact ⟨σ₁, hkeys, .inr ⟨r', st, block, rfl⟩⟩
    | admitted d st => exact absurd (admits_iff.2 ⟨d, st, σ', hrun⟩) hadm

/-- **A write leaves a store afloat**, wherever it stops. -/
theorem Afloat.write (hY : P.yaml.Inverts) (h : Afloat P σ) (hr : Presentable P σ r body)
    (w : Window) : Afloat P (acceptUntil P env w r body σ).2 := by
  by_cases hadm : admits P env r body σ = true
  · obtain ⟨dest, d, i, σ', hw⟩ := h.writes hY hr hadm
    rw [hw.runs w]
    exact hw.afloat w
  · obtain ⟨σ₁, hkeys, hσ | ⟨r', st, block, hσ⟩⟩ := acceptUntil_not_admitted hadm w
    · rw [hσ]
      exact h.onlyKeys hkeys
    · rw [hσ]
      exact (h.onlyKeys hkeys).spooled r' st block

/-! ## The first pass of a sweep -/

/-- The published files of a store stand in another, and the index has of them what it had. -/
def FilesKept (σ τ : Store) : Prop := ∀ q g, σ.records.lookup q = some g →
  τ.records.lookup q = some g ∧ ∀ id : RecordId, fileStem q = some id.text →
    τ.index.entry id = σ.index.entry id

theorem FilesKept.refl (σ : Store) : FilesKept σ σ := fun _ _ hg => ⟨hg, fun _ _ => rfl⟩

theorem FilesKept.trans {υ : Store} (h : FilesKept σ τ) (h' : FilesKept τ υ) : FilesKept σ υ := by
  intro q g hg
  obtain ⟨hg', hentry⟩ := h q g hg
  obtain ⟨hg'', hentry'⟩ := h' q g hg'
  exact ⟨hg'', fun id hid => (hentry' id hid).trans (hentry id hid)⟩

theorem AtHome.stem (h : AtHome P σ dest id) : fileStem dest = some id.text := by
  obtain ⟨f, d, -, hd, rfl, -⟩ := h
  exact hd.stem

theorem AtHome.of_kept (h : AtHome P σ dest id) (hkept : FilesKept σ τ) : AtHome P τ dest id := by
  have hstem := h.stem
  obtain ⟨f, d, hf, hd, hid, hentry⟩ := h
  obtain ⟨hf', hentry'⟩ := hkept dest f hf
  exact ⟨f, d, hf', hd, hid, (hentry' id hstem).trans hentry⟩

/-- The store with a copy renamed into place and its record indexed. -/
def rehomed (p dest : Path) (f : File) (i : Tables) (τ : Store) : Store :=
  { placedFrom p dest f τ with index := i }

theorem filesKept_rehomed {i : Tables} (hno : Unfiled τ d.record.recordId) (hd : Bears P dest f d)
    (hi : Took d τ.index i) : FilesKept τ (rehomed p dest f i τ) := by
  intro q g hg
  have hmem : q ∈ τ.records := Tree.mem_iff_lookup.2 ⟨g, hg⟩
  have hq : q ≠ dest := by
    rintro rfl
    exact hno q hmem hd.stem
  refine ⟨(AList.lookup_insert_ne hq).trans hg, fun id hid => hi.others id ?_⟩
  rintro rfl
  exact hno q hmem hid

/-- **One copy is published.** -/
theorem Afloat.redriveFile (h : Afloat P τ) (hf : τ.staging.lookup p = some f) (n : ℕ) :
    ∃ dest d i, p = stagedPath d ∧ Bears P dest f d ∧ Unfiled τ d.record.recordId ∧
      Took d τ.index i ∧ Core.redriveFile P n p τ = (.ok (n + 1), rehomed p dest f i τ) ∧
      Afloat P (rehomed p dest f i τ) := by
  obtain ⟨dest, d, rfl, hd, hno⟩ := h.copies p f hf
  have hplaced := h.place hd hno
  obtain ⟨i, hrun, hi, hafloat⟩ :=
    hplaced.commit (AList.lookup_insert τ.records) hd (h.rowless hno)
  refine ⟨dest, d, i, rfl, hd, hno, hi, ?_, hafloat⟩
  obtain ⟨text, htext, hparse⟩ := hd.carries
  obtain ⟨st, hpub, hredrive⟩ := redriveDocument_eq (P := P) (p := stagedPath d) hd.place τ
  have hfree : dest ∉ τ.records := fun hmem => hno dest hmem hd.stem
  rw [redriveFile_eq (Tree.readToString_ok.2 ⟨f, hf, htext⟩), hparse]
  refine bind_of_ok (a := ()) ?_ _
  rw [hredrive, if_neg hfree, bind_of_ok (place_of_staged hpub hf)]
  exact hrun

/-- Where the first pass of a sweep stands: of these copies, the last ones are to go. -/
structure Ferried (P : Pipeline) (σ : Store) (all rest : List Path) (τ : Store) : Prop where
  afloat : Afloat P τ
  ahead : ∀ p ∈ rest, τ.staging.lookup p = σ.staging.lookup p
  behind : ∀ p ∈ all, p ∉ rest → p ∉ τ.staging
  left : ∀ p f, τ.staging.lookup p = some f → σ.staging.lookup p = some f
  stays : ∀ p ∉ all, τ.staging.lookup p = σ.staging.lookup p
  kept : FilesKept σ τ
  home : ∀ p f dest d, σ.staging.lookup p = some f → Bears P dest f d →
    p ∈ τ.staging ∨ AtHome P τ dest d.record.recordId
  absent : ∀ id, [recordFile id] ∉ σ.staging → Unfiled σ id → Unfiled τ id
  spool : τ.quarantine = σ.quarantine
  register : τ.index.quarantinePending = σ.index.quarantinePending

theorem Ferried.refl (h : Afloat P σ) (all : List Path) : Ferried P σ all all σ where
  afloat := h
  ahead _ _ := rfl
  behind _ hp hn := absurd hp hn
  left _ _ hf := hf
  stays _ _ := rfl
  kept := .refl σ
  home _ f _ _ hf _ := .inl (Tree.mem_iff_lookup.2 ⟨f, hf⟩)
  absent _ _ hno := hno
  spool := rfl
  register := rfl

theorem Ferried.step {all rest : List Path} (h : Ferried P σ all (p :: rest) τ) (hp : p ∈ σ.staging)
    (hall : p ∈ all) (hnew : p ∉ rest) (n : ℕ) :
    ∃ τ', Core.redriveFile P n p τ = (.ok (n + 1), τ') ∧ Ferried P σ all rest τ' := by
  obtain ⟨f, hf⟩ := Tree.mem_iff_lookup.1 hp
  have hf' : τ.staging.lookup p = some f := (h.ahead p (by simp)).trans hf
  obtain ⟨dest, d, i, hcopy, hd, hno, hi, hrun, hafloat⟩ := h.afloat.redriveFile hf' n
  have hkept := filesKept_rehomed (p := p) hno hd hi
  refine ⟨_, hrun, hafloat, ?_, ?_, ?_, ?_, h.kept.trans hkept, ?_, ?_, h.spool,
    hi.register.trans h.register⟩
  · intro q hq
    have hne : q ≠ p := fun he => hnew (he ▸ hq)
    exact (AList.lookup_erase_ne hne).trans (h.ahead q (List.mem_cons_of_mem _ hq))
  · intro q hq hqrest hmem
    obtain ⟨hne, hmem⟩ := AList.mem_erase.1 hmem
    exact h.behind q hq (by simp [hne, hqrest]) hmem
  · intro q g hg
    have hne : q ≠ p := by
      rintro rfl
      rw [rehomed, placedFrom, AList.lookup_erase] at hg
      cases hg
    rw [rehomed, placedFrom, AList.lookup_erase_ne hne] at hg
    exact h.left q g hg
  · intro q hq
    have hne : q ≠ p := fun he => hq (he ▸ hall)
    exact (AList.lookup_erase_ne hne).trans (h.stays q hq)
  · intro q g dest' d' hg hd'
    rcases h.home q g dest' d' hg hd' with hq | hhome
    · by_cases hqp : q = p
      · subst hqp
        obtain rfl := Option.some.inj (hf.symm.trans hg)
        obtain ⟨rfl, rfl⟩ := hd.unique hd'
        exact .inr ⟨f, d', AList.lookup_insert _, hd', rfl, hi.entry⟩
      · exact .inl (AList.mem_erase.2 ⟨hqp, hq⟩)
    · exact .inr (hhome.of_kept hkept)
  · intro id hcopied hfiled q hq
    rcases (AList.mem_insert _).1 hq with rfl | hq
    · intro hs
      obtain rfl : d.record.recordId = id :=
        RecordId.ext_text (Option.some.inj (hd.stem.symm.trans hs))
      exact hcopied (show stagedPath d ∈ σ.staging from hcopy ▸ hp)
    · exact h.absent id hcopied hfiled q hq

/-- A loop that never fails, from what one turn does. -/
theorem foldlM_runs {α β : Type} {I : List α → Store → Prop} {f : β → α → StoreM β}
    (h : ∀ b x xs s, I (x :: xs) s → ∃ c s', f b x s = (.ok c, s') ∧ I xs s') (b : β) (xs : List α)
    {s : Store} (hs : I xs s) : ∃ c s', xs.foldlM f b s = (.ok c, s') ∧ I [] s' := by
  have hloop : Triple (I xs) (xs.foldlM f b) (fun _ => I []) fun _ _ => False := by
    refine Triple.foldlM_rest (I := fun _ => I) (fun b x xs s hs => ?_) b xs
    obtain ⟨c, s', hrun, hs'⟩ := h b x xs s hs
    rw [hrun]
    exact hs'
  cases hrun : xs.foldlM f b s with
  | mk res s' =>
    cases res with
    | ok c => exact ⟨c, s', rfl, hloop.ok hs hrun⟩
    | error e => exact (hloop.error hs hrun).elim

theorem Afloat.redriveStaging (h : Afloat P σ) (env : Env) :
    ∃ n τ, Core.redriveStaging P env σ = (.ok n, τ) ∧ Ferried P σ (staleStaging env σ) [] τ := by
  have hnd : (staleStaging env σ).Nodup := (Tree.nodup_walkFiles _ _).filter _
  have hmem : ∀ p ∈ staleStaging env σ, p ∈ σ.staging := fun p hp =>
    (Tree.mem_walkFiles.1 (List.mem_filter.1 hp).1).1
  have hloop := foldlM_runs (I := fun rest τ => rest.Nodup ∧ (∀ p ∈ rest, p ∈ staleStaging env σ) ∧
    Ferried P σ (staleStaging env σ) rest τ) (f := Core.redriveFile P) ?_ 0 (staleStaging env σ)
    ⟨hnd, fun _ hp => hp, .refl h _⟩
  · obtain ⟨n, τ, hrun, -, -, hτ⟩ := hloop
    exact ⟨n, τ, hrun, hτ⟩
  · rintro n p rest τ ⟨hnd, hall, hτ⟩
    obtain ⟨hnew, hnd⟩ := List.nodup_cons.1 hnd
    have hp := hall p (by simp)
    obtain ⟨τ', hrun, hτ'⟩ := hτ.step (hmem p hp) hp hnew n
    exact ⟨n + 1, τ', hrun, hnd, fun q hq => hall q (by simp [hq]), hτ'⟩

/-! ## The second pass -/

theorem mem_unindexed : p ∈ unindexed env σ ↔ (p ∈ σ.records ∧ extension p = some recordExt) ∧
    env.now - sweepLookbackMs ≤ mtime σ.records p ∧ (fileStem p).any σ.index.has = false := by
  rw [unindexed, List.mem_filter, Tree.mem_walkFiles]
  simp

theorem mem_staleStaging : p ∈ staleStaging env σ ↔ (p ∈ σ.staging ∧ extension p = some recordExt) ∧
    graceMs ≤ env.now - mtime σ.staging p := by
  rw [staleStaging, List.mem_filter, Tree.mem_walkFiles, decide_eq_true_iff]

/-- The second pass takes up a file that was written lately and whose record has no row. -/
theorem Bears.mem_unindexed (hd : Bears P p f d) (hf : σ.records.lookup p = some f) :
    p ∈ unindexed env σ ↔
      env.now - sweepLookbackMs ≤ f.mtime ∧ Rowless σ.index d.record.recordId := by
  have hmem : p ∈ σ.records := Tree.mem_iff_lookup.2 ⟨f, hf⟩
  have htime : mtime σ.records p = f.mtime := by rw [mtime, hf]; rfl
  rw [Core.mem_unindexed, and_iff_right ⟨hmem, hd.extension⟩, htime, hd.stem, Option.any_some,
    ← Bool.not_eq_true, has_iff, not_not]

/-- Where the second pass of a sweep stands: of these files, the last ones are to go. -/
structure Caught (P : Pipeline) (σ : Store) (all rest : List Path) (τ : Store) : Prop where
  same : ∃ i, τ = { σ with index := i }
  afloat : Afloat P τ
  ahead : ∀ p ∈ rest, ∀ id : RecordId, fileStem p = some id.text → Rowless τ.index id
  behind : ∀ p ∈ all, p ∉ rest → ∀ id : RecordId, fileStem p = some id.text → AtHome P τ p id
  others : ∀ id : RecordId, (∀ p ∈ all, fileStem p ≠ some id.text) →
    τ.index.entry id = σ.index.entry id
  register : τ.index.quarantinePending = σ.index.quarantinePending

theorem Caught.step {all rest : List Path} (h : Caught P σ all (p :: rest) τ)
    (hfiles : ∀ q ∈ p :: rest, q ∈ σ.records) (hall : p ∈ all)
    (hallFiles : ∀ q ∈ all, q ∈ σ.records) (hnew : p ∉ rest) (n : ℕ) :
    ∃ τ', indexUnindexed P n p τ = (.ok (n + 1), τ') ∧ Caught P σ all rest τ' := by
  obtain ⟨i₀, rfl⟩ := h.same
  obtain ⟨f, d, hf, hd, -⟩ := h.afloat.mem_files (hfiles p (by simp))
  obtain ⟨i, hrun, hi, hafloat⟩ := h.afloat.commit hf hd (h.ahead p (by simp) _ hd.stem)
  obtain ⟨text, htext, hparse⟩ := hd.carries
  -- another file is of another record
  have hother : ∀ q ∈ σ.records, q ≠ p → ∀ id : RecordId, fileStem q = some id.text →
      id ≠ d.record.recordId := by
    rintro q hq hne id hstem rfl
    exact hne (h.afloat.oneFile q hq p (hfiles p (by simp)) (hstem.trans hd.stem.symm))
  refine ⟨{ σ with index := i }, ?_, ⟨i, rfl⟩, hafloat, ?_, ?_, ?_, hi.register.trans h.register⟩
  · rw [indexUnindexed, bind_of_ok (readFile_ok (Tree.readToString_ok.2 ⟨f, hf, htext⟩)), hparse]
    exact bind_of_ok (a := ()) hrun _
  · intro q hq id hstem
    have hne : q ≠ p := fun he => hnew (he ▸ hq)
    rw [Rowless, hi.others id (hother q (hfiles q (by simp [hq])) hne id hstem)]
    exact h.ahead q (by simp [hq]) id hstem
  · intro q hq hqrest id hstem
    by_cases hqp : q = p
    · subst hqp
      obtain rfl : d.record.recordId = id :=
        RecordId.ext_text (Option.some.inj (hd.stem.symm.trans hstem))
      exact ⟨f, d, hf, hd, rfl, hi.entry⟩
    · obtain ⟨g, e, hg, he, hid, hentry⟩ := h.behind q hq (by simp [hqp, hqrest]) id hstem
      have hne := hother q (hallFiles q hq) hqp id hstem
      exact ⟨g, e, hg, he, hid, (hi.others id hne).trans hentry⟩
  · intro id hid
    have hne : id ≠ d.record.recordId := by
      rintro rfl
      exact hid p hall hd.stem
    exact (hi.others id hne).trans (h.others id hid)

theorem Afloat.indexTheUnindexed (h : Afloat P σ) (env : Env) :
    ∃ n τ, Core.indexTheUnindexed P env σ = (.ok n, τ) ∧ Caught P σ (unindexed env σ) [] τ := by
  have hnd : (unindexed env σ).Nodup := (Tree.nodup_walkFiles _ _).filter _
  have hmem : ∀ p ∈ unindexed env σ, p ∈ σ.records := fun p hp => (mem_unindexed.1 hp).1.1
  have hfirst : Caught P σ (unindexed env σ) (unindexed env σ) σ := by
    refine ⟨⟨σ.index, rfl⟩, h, fun p hp id hstem => ?_, fun p hp hn => absurd hp hn,
      fun _ _ => rfl, rfl⟩
    have hhas := (mem_unindexed.1 hp).2.2
    rw [hstem, Option.any_some, ← Bool.not_eq_true, has_iff, not_not] at hhas
    exact hhas
  have hloop := foldlM_runs (I := fun rest τ => rest.Nodup ∧ (∀ p ∈ rest, p ∈ unindexed env σ) ∧
    Caught P σ (unindexed env σ) rest τ) (f := indexUnindexed P) ?_ 0 (unindexed env σ)
    ⟨hnd, fun _ hp => hp, hfirst⟩
  · obtain ⟨n, τ, hrun, -, -, hτ⟩ := hloop
    exact ⟨n, τ, hrun, hτ⟩
  · rintro n p rest τ ⟨hnd, hall, hτ⟩
    obtain ⟨hnew, hnd⟩ := List.nodup_cons.1 hnd
    obtain ⟨τ', hrun, hτ'⟩ :=
      hτ.step (fun q hq => hmem q (hall q hq)) (hall p (by simp)) hmem hnew n
    exact ⟨n + 1, τ', hrun, hnd, fun q hq => hall q (by simp [hq]), hτ'⟩

theorem Caught.home (h : Caught P σ (unindexed env σ) [] τ) (hhome : AtHome P σ dest id) :
    AtHome P τ dest id := by
  have hrow := hhome.not_rowless
  obtain ⟨f, d, hf, hd, rfl, hentry⟩ := hhome
  have hother : ∀ p ∈ unindexed env σ, fileStem p ≠ some d.record.recordId.text := by
    intro p hp hstem
    have hhas := (mem_unindexed.1 hp).2.2
    rw [hstem, Option.any_some, ← Bool.not_eq_true, has_iff] at hhas
    exact hhas hrow
  have hsame := h.others d.record.recordId hother
  obtain ⟨i, rfl⟩ := h.same
  exact ⟨f, d, hf, hd, rfl, hsame.trans hentry⟩

/-- A file that was written lately has its row after the pass. -/
theorem Caught.lately (h : Caught P σ (unindexed env σ) [] τ) (hσ : Afloat P σ)
    (hf : σ.records.lookup dest = some f) (hd : Bears P dest f d)
    (htime : env.now - sweepLookbackMs ≤ f.mtime) : AtHome P τ dest d.record.recordId := by
  obtain ⟨d', hd', hrow⟩ := hσ.files dest f hf
  obtain ⟨rfl, -⟩ := hd.unique hd'
  rcases hrow with hentry | hrow
  · exact h.home ⟨f, d', hf, hd, rfl, hentry⟩
  · exact h.behind dest ((hd.mem_unindexed hf).2 ⟨htime, hrow⟩) List.not_mem_nil _ hd.stem

/-! ## A whole sweep -/

/-- A sweep at this time would find nothing to do. -/
structure Calm (env : Env) (σ : Store) : Prop where
  copies : staleStaging env σ = []
  files : unindexed env σ = []
  heads : headless σ.entities = []
  claims : ∀ j ∈ σ.index.fanoutQueue, j.stale (env.now - claimGraceMs) = false

theorem map_reclaim_of_unclaimed {cutoff : ℤ} {rows : List JobRow}
    (h : ∀ j ∈ rows, j.stale cutoff = false) : rows.map (·.reclaim cutoff) = rows := by
  refine (List.map_congr_left fun j hj => ?_).trans (List.map_id rows)
  rw [JobRow.reclaim, h j hj]
  rfl

theorem reclaim_unclaimed (cutoff : ℤ) (j : JobRow) : (j.reclaim cutoff).stale cutoff = false := by
  unfold JobRow.reclaim
  split_ifs with h
  · rfl
  · exact Bool.not_eq_true _ ▸ h

/-- A sweep of a calm store does nothing. -/
theorem Calm.sweep (h : Calm env σ) (P : Pipeline) :
    Core.sweep P env σ = (.ok ⟨0, 0, 0, 0⟩, σ) := by
  have h1 : redriveStaging P env σ = (.ok 0, σ) := by
    rw [redriveStaging, state_bind, h.copies]
    rfl
  have h2 : indexTheUnindexed P env σ = (.ok 0, σ) := by
    rw [indexTheUnindexed, state_bind, h.files]
    rfl
  have h3 : repairTimelineHeads env σ = (.ok 0, σ) := by
    rw [repairTimelineHeads, state_bind, h.heads]
    rfl
  have hstale : σ.index.fanoutQueue.filter (·.stale (env.now - claimGraceMs)) = [] :=
    List.filter_eq_nil_iff.2 fun j hj => by simp [h.claims j hj]
  have h4 : reclaimFanout env σ = (.ok 0, σ) := by
    have hmap := map_reclaim_of_unclaimed h.claims
    have hrun : reclaimStaleFanout (env.now - claimGraceMs) σ.index = (.ok 0, σ.index) := by
      simp only [reclaimStaleFanout, state_bind, change_bind, hstale, hmap]
      rfl
    simp [reclaimFanout, indexed, zoom, mapError, atomically, hrun]
  rw [Core.sweep, bind_of_ok h1, bind_of_ok h2, bind_of_ok h3, bind_of_ok h4]
  rfl

theorem mem_headless {t : Tree} {dir : Path} : dir ∈ headless t ↔ timelineHead ∉ t.entryNames dir ∧
    ∃ name ∈ t.entryNames dir, startsWith timelinePart name = true := by
  rw [headless, List.mem_filter, List.mem_dedup, List.mem_flatMap, decide_eq_true_iff,
    List.any_eq_true]
  refine and_iff_right_of_imp ?_
  rintro ⟨-, name, hname, -⟩
  obtain ⟨p, hp, ⟨⟨rest, rfl⟩, hne⟩, -⟩ := Tree.mem_entryNames.1 hname
  have hrest : rest ≠ [] := by
    rintro rfl
    exact hne (List.append_nil dir)
  refine ⟨_, AList.mem_keys.1 hp, (List.mem_inits _ _).2 ?_⟩
  rw [List.dropLast_append_of_ne_nil hrest]
  exact List.prefix_append _ _

theorem mem_foldl_write {dirs : List Path} {t : Tree} {now : ℤ} {p : Path} :
    p ∈ dirs.foldl (fun t dir => t.write (dir ++ [timelineHead]) [] now) t ↔
      p ∈ t ∨ ∃ dir ∈ dirs, p = dir ++ [timelineHead] := by
  induction dirs generalizing t with
  | nil => simp
  | cons dir dirs ih =>
    rw [List.foldl_cons, ih, Tree.write, AList.mem_insert]
    simp only [List.mem_cons, exists_eq_or_imp]
    tauto

/-- The heads that are made are all there were to make. -/
theorem headless_repaired (t : Tree) (now : ℤ) :
    headless ((headless t).foldl (fun t dir => t.write (dir ++ [timelineHead]) [] now) t) = [] := by
  generalize ht' : (headless t).foldl (fun t dir => t.write (dir ++ [timelineHead]) [] now) t = t'
  have hmem : ∀ p, p ∈ t' ↔ p ∈ t ∨ ∃ dir ∈ headless t, p = dir ++ [timelineHead] := by
    intro p
    rw [← ht', mem_foldl_write]
  rw [List.eq_nil_iff_forall_not_mem]
  intro dir hdir
  obtain ⟨hhead, name, hname, hpart⟩ := mem_headless.1 hdir
  -- the part was there before, whichever file has its name in its path
  have hold : name ∈ t.entryNames dir := by
    obtain ⟨p, hp, hunder, hget⟩ := Tree.mem_entryNames.1 hname
    rcases (hmem p).1 hp with hp | ⟨dir₀, hdir₀, rfl⟩
    · exact Tree.mem_entryNames.2 ⟨p, hp, hunder, hget⟩
    · rcases List.prefix_concat_iff.1 hunder.1 with heq | hpre
      · exact absurd heq (Ne.symm hunder.2)
      · obtain ⟨-, name₀, hname₀, -⟩ := mem_headless.1 hdir₀
        obtain ⟨q, hq, ⟨⟨rest, rfl⟩, hne⟩, -⟩ := Tree.mem_entryNames.1 hname₀
        obtain ⟨mid, rfl⟩ := hpre
        rcases mid with _ | ⟨c, mid⟩
        · -- the head itself is no part
          simp only [List.append_nil, List.getElem?_concat_length, Option.some.injEq] at hget
          rw [← hget] at hpart
          exact absurd hpart (by decide)
        · refine Tree.mem_entryNames.2 ⟨_, hq, ⟨⟨c :: mid ++ rest, by simp⟩, by simp⟩, ?_⟩
          simpa using hget
  have hdir' : dir ∈ headless t := by
    refine mem_headless.2 ⟨fun h => hhead ?_, name, hold, hpart⟩
    obtain ⟨p, hp, hunder, hget⟩ := Tree.mem_entryNames.1 h
    exact Tree.mem_entryNames.2 ⟨p, (hmem p).2 (.inl hp), hunder, hget⟩
  exact hhead (Tree.mem_entryNames.2 ⟨_, (hmem _).2 (.inr ⟨dir, hdir', rfl⟩),
    Tree.under_concat dir timelineHead, by simp⟩)

/-- **What a sweep leaves of a store afloat**: the stale copies are published, the files lately
    written are indexed, and nothing is left to do; what is held back stays so. -/
structure SweptUp (P : Pipeline) (env : Env) (σ τ : Store) : Prop where
  afloat : Afloat P τ
  calm : Calm env τ
  spool : τ.quarantine = σ.quarantine
  register : τ.index.quarantinePending = σ.index.quarantinePending
  home : ∀ dest id, AtHome P σ dest id → AtHome P τ dest id
  indexed : ∀ dest f d, σ.records.lookup dest = some f → Bears P dest f d →
    env.now - sweepLookbackMs ≤ f.mtime → AtHome P τ dest d.record.recordId
  passedOver : ∀ dest f d, σ.records.lookup dest = some f → Bears P dest f d →
    Rowless σ.index d.record.recordId → ¬ env.now - sweepLookbackMs ≤ f.mtime →
    Rowless τ.index d.record.recordId
  published : ∀ dest p f d, σ.staging.lookup p = some f → Bears P dest f d →
    graceMs ≤ env.now - f.mtime → AtHome P τ dest d.record.recordId
  staging : ∀ p f, τ.staging.lookup p = some f → σ.staging.lookup p = some f
  records : ∀ q ∈ σ.records, q ∈ τ.records
  absent : ∀ id, [recordFile id] ∉ σ.staging → Unfiled σ id → Unfiled τ id

theorem Afloat.sweep (h : Afloat P σ) (env : Env) :
    ∃ rep τ, Core.sweep P env σ = (.ok rep, τ) ∧ SweptUp P env σ τ := by
  obtain ⟨n, σ₁, h1, hf⟩ := h.redriveStaging env
  obtain ⟨m, σ₂, h2, hc⟩ := hf.afloat.indexTheUnindexed env
  let repair := fun (t : Tree) dir => t.write (dir ++ [timelineHead]) [] env.now
  let σ₃ : Store := { σ₂ with entities := (headless σ₂.entities).foldl repair σ₂.entities }
  let τ : Store := { σ₃ with index := (reclaimStaleFanout (env.now - claimGraceMs) σ₂.index).2 }
  let claims := (σ₂.index.fanoutQueue.filter (·.stale (env.now - claimGraceMs))).length
  have h3 : repairTimelineHeads env σ₂ = (.ok (headless σ₂.entities).length, σ₃) := rfl
  have h4 : reclaimFanout env σ₃ = (.ok claims, τ) := rfl
  have hrun : Core.sweep P env σ = (.ok ⟨n, m, (headless σ₂.entities).length, claims⟩, τ) := by
    rw [Core.sweep, bind_of_ok h1, bind_of_ok h2, bind_of_ok h3, bind_of_ok h4]
    rfl
  have hjobs : SameJobs σ₂.index τ.index := sameJobs_reclaim _ _
  have hrecords : τ.records = σ₁.records := by
    obtain ⟨i, rfl⟩ := hc.same
    rfl
  have hstaging : τ.staging = σ₁.staging := by
    obtain ⟨i, rfl⟩ := hc.same
    rfl
  have hafloat : Afloat P τ := hc.afloat.congr rfl rfl hjobs
  have hlately : ∀ dest f d, τ.records.lookup dest = some f → Bears P dest f d →
      env.now - sweepLookbackMs ≤ f.mtime → AtHome P τ dest d.record.recordId := by
    intro dest f d hfile hd htime
    rw [hrecords] at hfile
    exact (hc.lately hf.afloat hfile hd htime).congr rfl hjobs
  have hhome : ∀ dest id, AtHome P σ₁ dest id → AtHome P τ dest id := fun dest id hhome =>
    (hc.home hhome).congr rfl hjobs
  refine ⟨_, τ, hrun, hafloat, ⟨?_, ?_, ?_, ?_⟩, ?_, ?_, ?_, ?_, ?_, ?_, ?_, ?_, ?_⟩
  · rw [List.eq_nil_iff_forall_not_mem]
    intro p hp
    obtain ⟨⟨hmem, hext⟩, htime⟩ := mem_staleStaging.1 hp
    rw [hstaging] at hmem htime
    obtain ⟨f, hfile⟩ := Tree.mem_iff_lookup.1 hmem
    have hold := hf.left p f hfile
    refine hf.behind p (mem_staleStaging.2 ⟨⟨Tree.mem_iff_lookup.2 ⟨f, hold⟩, hext⟩, ?_⟩)
      List.not_mem_nil hmem
    rwa [mtime, hold, ← hfile]
  · rw [List.eq_nil_iff_forall_not_mem]
    intro p hp
    obtain ⟨f, d, hfile, hd, -⟩ := hafloat.mem_files (mem_unindexed.1 hp).1.1
    obtain ⟨htime, hrow⟩ := (hd.mem_unindexed hfile).1 hp
    exact (hlately p f d hfile hd htime).not_rowless hrow
  · exact headless_repaired _ _
  · intro j hj
    obtain ⟨j₀, -, rfl⟩ := List.mem_map.1 hj
    exact reclaim_unclaimed _ j₀
  · obtain ⟨i, rfl⟩ := hc.same
    exact hf.spool
  · exact hc.register.trans hf.register
  · exact fun dest id hat => hhome dest id (hat.of_kept hf.kept)
  · intro dest f d hfile hd htime
    exact hlately dest f d (by rw [hrecords]; exact (hf.kept dest f hfile).1) hd htime
  · intro dest f d hfile hd hrow htime
    obtain ⟨hfile', hentry⟩ := hf.kept dest f hfile
    have hrow' : Rowless σ₁.index d.record.recordId := by rwa [Rowless, hentry _ hd.stem]
    have hother : ∀ p ∈ unindexed env σ₁, fileStem p ≠ some d.record.recordId.text := by
      intro p hp hstem
      have hp' : p = dest := hf.afloat.oneFile p (mem_unindexed.1 hp).1.1 dest
        (Tree.mem_iff_lookup.2 ⟨f, hfile'⟩) (hstem.trans hd.stem.symm)
      subst hp'
      exact htime ((hd.mem_unindexed hfile').1 hp).1
    rwa [Rowless, hjobs.entry, hc.others _ hother]
  · intro dest p f d hfile hd htime
    obtain ⟨dest', d', rfl, -⟩ := h.copies p f hfile
    have hstale : stagedPath d' ∈ staleStaging env σ := by
      refine mem_staleStaging.2 ⟨⟨Tree.mem_iff_lookup.2 ⟨f, hfile⟩, extension_recordFile [] _⟩, ?_⟩
      rwa [mtime, hfile]
    rcases hf.home _ f dest d hfile hd with hmem | hat
    · exact absurd hmem (hf.behind _ hstale List.not_mem_nil)
    · exact hhome dest _ hat
  · intro p f hfile
    rw [hstaging] at hfile
    exact hf.left p f hfile
  · intro q hq
    obtain ⟨g, hg⟩ := Tree.mem_iff_lookup.1 hq
    rw [hrecords]
    exact Tree.mem_iff_lookup.2 ⟨g, (hf.kept q g hg).1⟩
  · intro id hcopied hfiled
    rw [Unfiled, hrecords]
    exact hf.absent id hcopied hfiled

/-! ## Runs -/

/-- A write stopped at a window, or at its end; a sweep; a drain of the fan-out queue. -/
inductive CrashStep where
  | write (w : Window) (env : Env) (r : ActionRecord) (body : Text)
  | sweep (env : Env)
  | drainFanout (env : Env) (maxJobs : ℕ)

def CrashStep.run (P : Pipeline) (σ : Store) : CrashStep → Store
  | .write w env r body => (acceptUntil P env w r body σ).2
  | .sweep env => (Core.sweep P env σ).2
  | .drainFanout env maxJobs => (Core.drainFanout P env maxJobs σ).2

def CrashStep.Presentable (P : Pipeline) (σ : Store) : CrashStep → Prop
  | .write _ _ r body => Core.Presentable P σ r body
  | .sweep _ | .drainFanout _ _ => True

def CrashStep.runAll (P : Pipeline) : Store → List CrashStep → Store
  | σ, [] => σ
  | σ, a :: as => runAll P (a.run P σ) as

/-- Every write of a run presents a record that is one to present where it happens. -/
def CrashStep.AllPresentable (P : Pipeline) : Store → List CrashStep → Prop
  | _, [] => True
  | σ, a :: as => a.Presentable P σ ∧ AllPresentable P (a.run P σ) as

theorem Afloat.drainFrame (P : Pipeline) : DrainFrame (Afloat P) where
  entities _ _ h := h.congr rfl rfl ⟨rfl, rfl, rfl, rfl, rfl, rfl⟩
  audit _ _ h := h.congr rfl rfl ⟨rfl, rfl, rfl, rfl, rfl, rfl⟩
  mentions _ _ h := h.congr rfl rfl ⟨rfl, rfl, rfl, rfl, rfl, rfl⟩
  deadLetter _ _ h := h.congr rfl rfl ⟨rfl, rfl, rfl, rfl, rfl, rfl⟩
  queue _ _ hrows h := h.congr rfl rfl ⟨rfl, rfl, rfl, rfl, rfl, hrows⟩

theorem Afloat.step (hY : P.yaml.Inverts) (h : Afloat P σ) {a : CrashStep}
    (ha : a.Presentable P σ) : Afloat P (a.run P σ) := by
  cases a with
  | write w env r body => exact h.write hY ha w
  | sweep env =>
    obtain ⟨rep, τ, hrun, hτ⟩ := h.sweep env
    rw [CrashStep.run, hrun]
    exact hτ.afloat
  | drainFanout env maxJobs => exact drainFanout_keeps (Afloat.drainFrame P) P env maxJobs σ h

/-- **Every reachable store is afloat.** -/
theorem Afloat.run (hY : P.yaml.Inverts) (h : Afloat P σ) {as : List CrashStep}
    (has : CrashStep.AllPresentable P σ as) : Afloat P (CrashStep.runAll P σ as) := by
  induction as generalizing σ with
  | nil => exact h
  | cons a as ih => exact ih (h.step hY has.1) has.2

/-! ## Presenting a record again -/

theorem accept_filed (hdest : destination r = .ok dest) (hmem : dest ∈ σ.records) :
    accept P env r body σ = (.ok (.duplicate r.recordId), σ) := by
  obtain ⟨st, hst, hpath⟩ := bind_ok.1 hdest
  have hadm : admission P env r body σ = (.ok .duplicate, σ) := by
    rw [admission, hst, ofExcept_ok_bind, hpath, ofExcept_ok_bind, state_bind, if_pos hmem]
    rfl
  rw [accept, bind_of_ok hadm]
  rfl

theorem AtHome.mem (h : AtHome P σ dest id) : dest ∈ σ.records := by
  obtain ⟨f, -, hf, -⟩ := h
  exact Tree.mem_iff_lookup.2 ⟨f, hf⟩

/-- Nothing of a record is published or staged, and a sweep would find nothing to do. -/
structure Unstarted (P : Pipeline) (env : Env) (id : RecordId) (σ : Store) : Prop where
  afloat : Afloat P σ
  calm : Calm env σ
  unfiled : Unfiled σ id
  uncopied : [recordFile id] ∉ σ.staging

variable {env' : Env}

theorem Unstarted.onlyKeys (h : Unstarted P env' id σ) (hkeys : OnlyKeys σ τ) :
    Unstarted P env' id τ := by
  have hafloat := h.afloat.onlyKeys hkeys
  obtain ⟨t, rfl, -⟩ := hkeys
  exact ⟨hafloat, ⟨h.calm.copies, h.calm.files, h.calm.heads, h.calm.claims⟩, h.unfiled, h.uncopied⟩

theorem Unstarted.spooled (h : Unstarted P env' id σ) (r : ActionRecord) (st : Stamp)
    (block : SealedBody) : Unstarted P env' id (spooled P env r st block σ) :=
  ⟨h.afloat.spooled r st block, ⟨h.calm.copies, h.calm.files, h.calm.heads, h.calm.claims⟩,
    h.unfiled, h.uncopied⟩

/-- A presentation that is not admitted leaves nothing of the record but a copy held back. -/
theorem Unstarted.refused (h : Unstarted P env' r.recordId σ)
    (hadm : admits P env r body σ ≠ true) :
    Unstarted P env' r.recordId (accept P env r body σ).2 := by
  rw [← acceptUntil_settled]
  obtain ⟨σ₁, hkeys, hσ | ⟨r', st, block, hσ⟩⟩ := acceptUntil_not_admitted hadm .settled
  · rw [hσ]
    exact h.onlyKeys hkeys
  · rw [hσ]
    exact (h.onlyKeys hkeys).spooled r' st block

/-- What a write that gets to its end leaves of its record. -/
theorem Writes.settled {i : Tables} {σ' : Store} (h : Writes P env r body σ dest d i σ') :
    AtHome P (stopped P env d dest i σ' .settled) dest r.recordId ∧
      Unheld (stopped P env d dest i σ' .settled) r.recordId := by
  have hid := h.id_eq
  refine ⟨⟨_, d, AList.lookup_insert _, h.bears, hid, ?_⟩, fun hmem => ?_, fun row hrow => ?_⟩
  · rw [← hid, ← h.took.entry]
    rfl
  · exact (AList.mem_erase.1 hmem).1 (by rw [stagedPath, hid])
  · have hne := (List.mem_filter.1 hrow).2
    rw [decide_eq_true_iff, hid] at hne
    exact hne

/-- An admitted presentation leaves a later sweep nothing to do. -/
theorem Unstarted.settled (h : Unstarted P env' r.recordId σ) {i : Tables} {σ' : Store}
    (hw : Writes P env r body σ dest d i σ') : Calm env' (stopped P env d dest i σ' .settled) := by
  obtain ⟨t, rfl, -⟩ := hw.keys
  have hafloat := hw.afloat .settled
  have hhome := hw.settled.1
  refine ⟨?_, ?_, h.calm.heads, fun j hj => ?_⟩
  · rw [List.eq_nil_iff_forall_not_mem]
    intro p hp
    obtain ⟨⟨hmem, hext⟩, htime⟩ := mem_staleStaging.1 hp
    obtain ⟨hne, hmem⟩ := AList.mem_erase.1 hmem
    rw [Tree.write, AList.mem_insert, or_iff_right hne] at hmem
    refine List.eq_nil_iff_forall_not_mem.1 h.calm.copies p (mem_staleStaging.2 ⟨⟨hmem, hext⟩, ?_⟩)
    rwa [mtime, stopped, placedIn, AList.lookup_erase_ne hne, Tree.write,
      AList.lookup_insert_ne hne] at htime
  · rw [List.eq_nil_iff_forall_not_mem]
    intro p hp
    obtain ⟨f, e, hf, he, -⟩ := hafloat.mem_files (mem_unindexed.1 hp).1.1
    obtain ⟨htime, hrow⟩ := (he.mem_unindexed hf).1 hp
    by_cases hpd : p = dest
    · subst hpd
      have hid : e.record.recordId = r.recordId :=
        RecordId.ext_text (Option.some.inj (he.stem.symm.trans hhome.stem))
      rw [hid] at hrow
      exact hhome.not_rowless hrow
    · rw [stopped, placedIn, AList.lookup_insert_ne hpd] at hf
      have hne : e.record.recordId ≠ d.record.recordId := by
        rw [hw.id_eq]
        intro hid
        exact h.unfiled p (Tree.mem_iff_lookup.2 ⟨f, hf⟩) (by rw [he.stem, hid])
      have hrow' : Rowless σ.index e.record.recordId := by
        rw [Rowless, ← hw.took.others _ hne]
        exact hrow
      exact List.eq_nil_iff_forall_not_mem.1 h.calm.files p ((he.mem_unindexed hf).2 ⟨htime, hrow'⟩)
  · rcases hw.took.idle j hj with hold | hpending
    · exact h.calm.claims j hold
    · simp [JobRow.stale, hpending]

theorem copyPlace_eq (hf : σ.staging.lookup [recordFile id] = some f) (hd : Bears P dest f d) :
    copyPlace P σ id = some dest := by
  obtain ⟨text, htext, hparse⟩ := hd.carries
  have hread : σ.staging.readToString [recordFile id] = .ok text :=
    Tree.readToString_ok.2 ⟨f, hf, htext⟩
  simp [copyPlace, hread, hparse, hd.place, Except.toOption]

/-- A copy staged before is of the record itself. -/
theorem Afloat.copy (h : Afloat P σ) (hr : Presentable P σ r body)
    (hdest : destination r = .ok dest) (hmem : [recordFile r.recordId] ∈ σ.staging) : ∃ f d,
      σ.staging.lookup [recordFile r.recordId] = some f ∧ Bears P dest f d ∧
        d.record.recordId = r.recordId := by
  obtain ⟨f, hf⟩ := Tree.mem_iff_lookup.1 hmem
  obtain ⟨dest', d, hp, hd, -⟩ := h.copies _ f hf
  have hplace := hr.copied hmem
  rw [copyPlace_eq hf hd, hdest] at hplace
  obtain rfl := Option.some.inj hplace
  have hid : some r.recordId.text = some d.record.recordId.text :=
    (fileStem_recordFile [] _).symm.trans ((congrArg fileStem hp).trans (fileStem_recordFile [] _))
  exact ⟨f, d, hf, hd, (RecordId.ext_text (Option.some.inj hid)).symm⟩

section
set_option maxRecDepth 4000

/-- What these steps leave of an empty store. -/
def reached (as : List CrashStep) : Store :=
  CrashStep.runAll (deployment declaredSubjects) emptyStore as

end

end Yaam.Core
