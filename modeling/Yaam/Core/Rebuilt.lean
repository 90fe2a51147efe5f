/-
  The index as a function of the tree: what live writes leave in it is what a rebuild
  derives from the files they wrote.

  * `Admitted.reads_back`: the file of an admitted document reads back as it;
  * `Live` is what writes, sweeps and drains keep of a store that began empty;
  * `Live.rebuilt`: a rebuild of such a store leaves the same derived rows;
  * `index_is_function_of_tree`: so it does after every run in which no identifier is
    published twice.
-/
import Yaam.Core.Projection
import Yaam.Core.AcceptSafety

namespace Yaam.Core

open Text Contract Crypto Md Eff Index

variable {P : Pipeline} {env : Env} {σ : Store} {d : Document}

/-! ## Reading back -/

/-- A body that its file keeps: it does not end in a carriage return, nor start with
    the sealed fence. -/
def KeptBody (r : ActionRecord) (body : Text) : Prop :=
  r.dataClass = .internal → body.getLast? ≠ some '\r' ∧ isSealed body = false

instance (r : ActionRecord) (body : Text) : Decidable (KeptBody r body) :=
  inferInstanceAs (Decidable (_ → _))

/-- **The file of an admitted document reads back as the document.** -/
theorem Admitted.reads_back (hY : P.yaml.Inverts) {r : ActionRecord} {body : Text} {st : Stamp}
    (h : Admitted P r body σ d st) (hbody : KeptBody r body) :
    Document.parse P.yaml (Document.render P.yaml d) = .ok d := by
  have hv := h.valid
  obtain ⟨r', ss, hval, -, hcheck, hrec, hsettled⟩ := h.record
  have hclass := (validated_ok hval).dataClass
  have hsummary := (validated_ok hval).summary
  obtain ⟨rec, b⟩ := d
  obtain rfl : rec = { r' with subjects := ss } := hrec
  cases hsettled with
  | plain hi =>
    have hi' : r.dataClass = .internal := hclass.symm.trans hi
    obtain ⟨hcr, hseal⟩ := hbody hi'
    rw [if_pos hi'] at hsummary
    rw [parse_render_plain hY hv]
    simp only [hcr, if_false, hseal, Bool.false_eq_true]
    rw [← hsummary]
  | dropped hd =>
    have hd' : r.dataClass ≠ .internal := by
      rw [← hclass, hd]
      nofun
    rw [if_neg hd'] at hsummary
    rw [parse_render_plain hY hv]
    show Except.ok (⟨{ r' with subjects := ss, summary := [] }, .plain []⟩ : Document) = _
    rw [← hsummary]
  | «sealed» hd b epoch shares some_share live =>
    have hd' : r.dataClass ≠ .internal := by
      rw [← hclass, hd]
      nofun
    rw [if_neg hd'] at hsummary
    rw [parse_render_sealed hY hv (by rw [epoch]; exact Epoch.notWhite_containing st.ms) some_share]
    -- a record of one subject has one share: there is nothing to sort
    have hone : b.shares.length ≤ 1 := by
      have hlen := congrArg List.length shares
      rw [List.length_map, List.length_insertionSort, List.length_map] at hlen
      rw [hlen]
      exact (checkSubjects_ok hcheck).1
    have hsort : sortShares b.shares = b.shares := by
      match b.shares, hone with
      | [], _ => rfl
      | [share], _ => rfl
    show Except.ok (⟨{ r' with subjects := ss, summary := [] },
      .sealed { b with shares := sortShares b.shares }⟩ : Document) = _
    rw [hsort, ← hsummary]

/-! ## What live writes keep -/

/-- What the index holds about a document that was published alone. -/
def alone (d : Document) : Entry := (publishDocument d .empty).2.entry d.record.recordId

theorem alone_eq {row : RecordRow} (hrow : Publishable (publishInput d) row) :
    alone d = (published (publishInput d) row row.receivedMs .empty).entry d.record.recordId := by
  have hid : row.recordId = d.record.recordId := (recordRow_ok hrow.row).1
  have hfirst : receivedMsOf d.record.recordId (insertRecord row Tables.empty.records) =
      some row.receivedMs := by
    show receivedMsOf _ [row] = _
    simp [receivedMsOf, hid]
  have hpub : publishDocument d .empty =
      (.ok (), published (publishInput d) row row.receivedMs .empty) :=
    publish_eq_ok.2 ⟨row, row.receivedMs, hrow, hfirst, rfl⟩
  rw [alone, hpub]

theorem entry_of_new {i : Tables} {row : RecordRow} {ms : ℤ}
    (hrow : Publishable (publishInput d) row)
    (hms : receivedMsOf d.record.recordId (insertRecord row i.records) = some ms)
    (hproj : Projects i) (hnew : ∀ old ∈ i.records, old.recordId ≠ d.record.recordId) :
    (published (publishInput d) row ms i).entry d.record.recordId = alone d := by
  have hid := (recordRow_ok hrow.row).1
  rcases insertRecord_cases hid hproj.oneRow hms with ⟨old, hold, hoid, -⟩ | ⟨-, -, rfl⟩
  · exact absurd hoid (hnew old hold)
  rw [alone_eq hrow]
  exact entry_published hid (hproj.owned _ hnew).1

/-- A file stands for a document: it reads back as it, is named for it, and the index
    holds about it what publishing it alone leaves. -/
structure Stands (P : Pipeline) (i : Tables) (p : Path) (f : File) (d : Document) : Prop where
  name : ∃ dir, p = dir ++ [recordFile d.record.recordId]
  content : f.content = fileBytes P d
  reads_back : Document.parse P.yaml (Document.render P.yaml d) = .ok d
  publishable : ∃ row, Publishable (publishInput d) row
  entry : i.entry d.record.recordId = alone d

/-- **A live store**: nothing staged, archived or erased; every file stands for a
    document, one for each identifier, and the index has no other rows. -/
structure Live (P : Pipeline) (σ : Store) : Prop where
  staging : ∀ p, p ∉ σ.staging
  cold : σ.cold = ∅
  tombstoneLog : σ.tombstoneLog = none
  spool : ∀ p f, σ.quarantine.lookup p = some f → ∃ t, f.content = Utf8.encode t
  files : ∀ p f, σ.records.lookup p = some f → ∃ d, Stands P σ.index p f d
  oneFile : ∀ p ∈ σ.records, ∀ q ∈ σ.records, fileStem p = fileStem q → p = q
  known : ∀ row ∈ σ.index.records, ∃ p ∈ σ.records, fileStem p = some row.recordId.text
  projects : Projects σ.index

theorem Live.empty (P : Pipeline) : Live P emptyStore where
  staging p h := by cases h
  cold := rfl
  tombstoneLog := rfl
  spool p f h := by cases h
  files p f h := by cases h
  oneFile p h := by cases h
  known row h := by cases h
  projects := Projects.empty

theorem Stands.stem {i : Tables} {p : Path} {f : File} (h : Stands P i p f d) :
    fileStem p = some d.record.recordId.text := by
  obtain ⟨dir, rfl⟩ := h.name
  exact fileStem_recordFile dir _

/-- The record of a file that stands has a row. -/
theorem Stands.row {i : Tables} {p : Path} {f : File} (h : Stands P i p f d) :
    ∃ row ∈ i.records, row.recordId = d.record.recordId := by
  obtain ⟨row, hrow⟩ := h.publishable
  have hid : row.recordId = d.record.recordId := (recordRow_ok hrow.row).1
  have hrecords := congrArg Entry.records h.entry
  rw [alone_eq hrow] at hrecords
  have hmem : row ∈ i.records.filter fun r => r.recordId = d.record.recordId := by
    rw [show i.records.filter (fun r => r.recordId = d.record.recordId) = _ from hrecords]
    show row ∈ [row].filter fun r => r.recordId = d.record.recordId
    simp [hid]
  exact ⟨row, (List.mem_filter.1 hmem).1, hid⟩

/-- Publishing another identifier leaves a file standing. -/
theorem Stands.published {i : Tables} {p : Path} {f : File} (h : Stands P i p f d)
    {inp : PublishInput} {row : RecordRow} {ms : ℤ} (hid : row.recordId = inp.record.recordId)
    (hne : inp.record.recordId ≠ d.record.recordId) : Stands P (published inp row ms i) p f d :=
  ⟨h.name, h.content, h.reads_back, h.publishable, (entry_published_of_ne hid hne).trans h.entry⟩

/-- A step of the queue, or of the register of held records, leaves a store live. -/
theorem Live.queue (h : Live P σ) {i : Tables} (hi : SameJobs σ.index i) :
    Live P { σ with index := i } where
  staging := h.staging
  cold := h.cold
  tombstoneLog := h.tombstoneLog
  spool := h.spool
  files p f hf := by
    obtain ⟨d, hd⟩ := h.files p f hf
    exact ⟨d, hd.name, hd.content, hd.reads_back, hd.publishable, (hi.entry _).trans hd.entry⟩
  oneFile := h.oneFile
  known row hrow := h.known row (by rw [← hi.records]; exact hrow)
  projects := h.projects.queue hi

/-- A write is a duplicate, or presents a new identifier with a body its file keeps. -/
def Distinct (σ : Store) (r : ActionRecord) (body : Text) : Prop :=
  (∃ dest, destination r = .ok dest ∧ dest ∈ σ.records) ∨
    (∀ row ∈ σ.index.records, row.recordId ≠ r.recordId) ∧ KeptBody r body

instance (σ : Store) (r : ActionRecord) (body : Text) : Decidable (Distinct σ r body) :=
  match h : destination r with
  | .ok dest => decidable_of_iff (dest ∈ σ.records ∨
      (∀ row ∈ σ.index.records, row.recordId ≠ r.recordId) ∧ KeptBody r body) (by simp [Distinct, h])
  | .error _ => decidable_of_iff
      ((∀ row ∈ σ.index.records, row.recordId ≠ r.recordId) ∧ KeptBody r body) (by simp [Distinct, h])

/-- No file is named for an identifier that has no row. -/
theorem Live.stem_ne (h : Live P σ) {id : RecordId} (hnew : ∀ row ∈ σ.index.records, row.recordId ≠ id) :
    ∀ p ∈ σ.records, fileStem p ≠ some id.text := by
  intro p hp hstem
  obtain ⟨f, hf⟩ := Tree.mem_iff_lookup.1 hp
  obtain ⟨d, hd⟩ := h.files p f hf
  obtain ⟨row, hrow, hid⟩ := hd.row
  exact hnew row hrow (hid.trans (RecordId.ext_text (Option.some.inj (hd.stem.symm.trans hstem))))

/-- **A write that succeeds leaves a store live.** -/
theorem Live.accept (hY : P.yaml.Inverts) (h : Live P σ) {r : ActionRecord} {body : Text}
    {a : Accepted} (hok : (accept P env r body σ).1 = .ok a) (hnew : Distinct σ r body) :
    Live P (Core.accept P env r body σ).2 := by
  have hstep := accept_step P env r body σ
  generalize (Core.accept P env r body σ).1 = res at hstep hok
  generalize (Core.accept P env r body σ).2 = σ' at hstep
  cases hstep with
  | duplicate => exact h
  | refused => cases hok
  | held r' st block σ₁ _ _ hkeys =>
    obtain ⟨t, rfl, -⟩ := hkeys
    have hindex := h.queue (sameJobs_quarantine (upsert (·.record) (fun old _ => old)
      ⟨r'.recordId, dirPath P ".quarantine" [recordFile r'.recordId], st.date, env.now⟩) σ.index)
    refine ⟨h.staging, h.cold, h.tombstoneLog, fun p f hf => ?_, hindex.files, h.oneFile,
      hindex.known, hindex.projects⟩
    by_cases hp : p = [recordFile r'.recordId]
    · subst hp
      simp only [spooled, Tree.write, AList.lookup_insert] at hf
      exact ⟨_, congrArg File.content (Option.some.inj hf).symm⟩
    · simp only [spooled, Tree.write, AList.lookup_insert_ne hp] at hf
      exact h.spool p f hf
  | unindexed => cases hok
  | stored d st dest σ₁ row ms as_ hkeys hdest hfresh hrow hms =>
    obtain ⟨t, rfl, -⟩ := hkeys
    obtain ⟨-, -, -, -, -, hid⟩ := as_.dest
    rcases hnew with ⟨dest', hd', hmem⟩ | ⟨hnew, hbody⟩
    · rw [hdest] at hd'
      cases hd'
      exact absurd hmem hfresh
    rw [← hid] at hnew
    obtain ⟨dir, rfl⟩ := destination_ok hdest
    rw [← hid] at hfresh ⊢
    have hrid : row.recordId = d.record.recordId := (recordRow_ok hrow.row).1
    have hstem := h.stem_ne hnew
    have hfile : fileStem (dir ++ [recordFile d.record.recordId]) = some d.record.recordId.text :=
      fileStem_recordFile dir _
    have hsame : SameJobs (published (publishInput d) row ms σ.index)
        (dequeueQuarantine d.record.recordId (published (publishInput d) row ms σ.index)) :=
      ⟨rfl, rfl, rfl, rfl, rfl, rfl⟩
    have hone : d.record.subjects.length ≤ 1 :=
      (ActionRecord.validate_ok_iff.1 as_.valid).2.2.2.2.1
    refine ⟨fun p hp => ?_, h.cold, h.tombstoneLog, fun p f hf => ?_, fun p f hf => ?_,
      fun p hp q hq hpq => ?_, fun row' hrow' => ?_, ?_⟩
    · rw [settledIn, placedIn, AList.mem_erase, Tree.write, AList.mem_insert] at hp
      exact h.staging p (hp.2.resolve_left hp.1)
    · refine h.spool p f ?_
      by_cases hp : p = stagedPath d
      · subst hp
        simp [settledIn] at hf
      · rwa [settledIn, AList.lookup_erase_ne hp] at hf
    · by_cases hp : p = dir ++ [recordFile d.record.recordId]
      · subst hp
        rw [settledIn, placedIn, AList.lookup_insert] at hf
        obtain rfl := Option.some.inj hf
        refine ⟨d, ⟨dir, rfl⟩, rfl, as_.reads_back hY hbody, ⟨row, hrow⟩, ?_⟩
        exact (hsame.entry _).trans (entry_of_new hrow hms h.projects hnew)
      · rw [settledIn, placedIn, AList.lookup_insert_ne hp] at hf
        obtain ⟨d', hd'⟩ := h.files p f hf
        have hne : d.record.recordId ≠ d'.record.recordId := by
          intro he
          refine hstem p (Tree.mem_iff_lookup.2 ⟨f, hf⟩) ?_
          rw [hd'.stem, he]
        have hkept : Stands P (published (publishInput d) row ms σ.index) p f d' :=
          hd'.published hrid hne
        exact ⟨d', hkept.name, hkept.content, hkept.reads_back, hkept.publishable,
          (hsame.entry _).trans hkept.entry⟩
    · rw [settledIn, placedIn, AList.mem_insert] at hp hq
      rcases hp with rfl | hp <;> rcases hq with rfl | hq
      · rfl
      · exact absurd (hpq.symm.trans hfile) (hstem q hq)
      · exact absurd (hpq.trans hfile) (hstem p hp)
      · exact h.oneFile p hp q hq hpq
    · have hown : ∃ p ∈ (settledIn P env d (dir ++ [recordFile d.record.recordId]) row ms
          { σ with keys := t }).records, fileStem p = some d.record.recordId.text := by
        refine ⟨_, ?_, hfile⟩
        rw [settledIn, placedIn, AList.mem_insert]
        exact .inl rfl
      have hold : ∀ old ∈ σ.index.records, ∃ p ∈ (settledIn P env d
          (dir ++ [recordFile d.record.recordId]) row ms { σ with keys := t }).records,
          fileStem p = some old.recordId.text := by
        intro old hold
        obtain ⟨p, hp, hs⟩ := h.known old hold
        refine ⟨p, ?_, hs⟩
        rw [settledIn, placedIn, AList.mem_insert]
        exact .inr hp
      rcases mem_upsert (show row' ∈ insertRecord row σ.index.records from hrow') with
        rfl | hr | ⟨z, hz, -, rfl⟩
      · rwa [hrid]
      · exact hold row' hr
      · exact hold row' hz
    · exact (h.projects.published hone hrow.row hms fun old hold hoid =>
        absurd hoid (hnew old hold)).queue hsame

/-- **A drain leaves a store live.** -/
theorem Live.drainFrame (P : Pipeline) : DrainFrame (Live P) where
  entities _ _ h := ⟨h.staging, h.cold, h.tombstoneLog, h.spool, h.files, h.oneFile, h.known,
    h.projects⟩
  audit _ _ h := ⟨h.staging, h.cold, h.tombstoneLog, h.spool, h.files, h.oneFile, h.known,
    h.projects⟩
  mentions _ _ h := h.queue ⟨rfl, rfl, rfl, rfl, rfl, rfl⟩
  deadLetter _ _ h := ⟨h.staging, h.cold, h.tombstoneLog, h.spool, h.files, h.oneFile, h.known,
    h.projects⟩
  queue _ _ hrows h := h.queue ⟨rfl, rfl, rfl, rfl, rfl, hrows⟩

/-- **A sweep leaves a store live**: it finds nothing to re-drive and nothing to index. -/
theorem Live.sweep (P : Pipeline) (env : Env) : Keeps (Live P) (Core.sweep P env) := by
  have hstaging : Keeps (Live P) (redriveStaging P env) := by
    refine Keeps.state_bind fun s hs => Keeps.foldlM (fun n p hp => ?_) 0 s hs
    exact absurd (Tree.mem_walkFiles.1 (List.mem_filter.1 hp).1).1 (hs.staging p)
  have htree : Keeps (Live P) (indexTheUnindexed P env) := by
    refine Keeps.state_bind fun s hs => Keeps.foldlM (fun n p hp => ?_) 0 s hs
    obtain ⟨hp, hun⟩ := List.mem_filter.1 hp
    obtain ⟨f, hf⟩ := Tree.mem_iff_lookup.1 (Tree.mem_walkFiles.1 hp).1
    obtain ⟨d, hd⟩ := hs.files p f hf
    obtain ⟨row, hrow, hid⟩ := hd.row
    have hhas : s.index.has d.record.recordId.text = true := by
      rw [Tables.has, List.any_eq_true]
      exact ⟨row, hrow, by rw [hid]; simp⟩
    simp [hd.stem, hhas] at hun
  have hheads : Keeps (Live P) (repairTimelineHeads env) :=
    fun s hs => (Live.drainFrame P).entities s _ hs
  have hclaims : Keeps (Live P) (reclaimFanout env) :=
    fun s hs => hs.queue (sameJobs_reclaim _ _)
  exact hstaging.bind fun _ => htree.bind fun _ => hheads.bind fun _ => hclaims.bind fun _ =>
    Keeps.pure _

/-! ## Rebuilding -/

/-- What a rebuild has derived after some of the files of a live store. -/
structure Derives (P : Pipeline) (σ : Store) (done : List Path) (i : Tables) : Prop where
  projects : Projects i
  entries : ∀ p ∈ done, ∀ f d, σ.records.lookup p = some f → Stands P σ.index p f d →
    i.entry d.record.recordId = alone d
  known : ∀ row ∈ i.records, ∃ p ∈ done, fileStem p = some row.recordId.text

/-- Indexing one more file of a live store. -/
theorem Derives.indexFile (h : Live P σ) {done : List Path} {s : Store} {p : Path}
    (hs : Derives P σ done s.index) (hrecords : s.records = σ.records) (hp : p ∈ σ.records)
    (hnew : p ∉ done) (hdone : ∀ q ∈ done, q ∈ σ.records) (n : ℕ × ℕ) :
    ∃ i, Core.indexFile P n p s = (.ok (n.1 + 1, n.2), { s with index := i }) ∧
      Derives P σ (done ++ [p]) i := by
  obtain ⟨f, hf⟩ := Tree.mem_iff_lookup.1 hp
  obtain ⟨d, hd⟩ := h.files p f hf
  obtain ⟨row, hrow⟩ := hd.publishable
  have hrid : row.recordId = d.record.recordId := (recordRow_ok hrow.row).1
  obtain ⟨ms, hms⟩ := receivedMsOf_insertRecord row s.index.records
  rw [hrid] at hms
  have hread : readFile Store.records p s = (.ok (Document.render P.yaml d), s) := by
    have hread : s.records.readToString p = .ok (Document.render P.yaml d) :=
      Tree.readToString_ok.2 ⟨f, by rw [hrecords]; exact hf, hd.content⟩
    rw [readFile, state_bind, hread]
    rfl
  have hbatch : inBatch (publishDocument d) s =
      (.ok (), { s with index := published (publishInput d) row ms s.index }) := by
    have hpub : publishDocument d s.index =
        (.ok (), published (publishInput d) row ms s.index) :=
      publish_eq_ok.2 ⟨row, ms, hrow, hms, rfl⟩
    exact zoom_eq_ok.2 ⟨_, mapError_eq_ok.2 hpub, rfl⟩
  -- no row of the identifier is derived yet
  have hfresh : ∀ old ∈ s.index.records, old.recordId ≠ d.record.recordId := by
    intro old hold hoid
    obtain ⟨q, hq, hstem⟩ := hs.known old hold
    have hqp : q = p := h.oneFile q (hdone q hq) p hp (by rw [hstem, hd.stem, hoid])
    exact hnew (hqp ▸ hq)
  have hone : d.record.subjects.length ≤ 1 :=
    (ActionRecord.validate_ok_iff.1 (Document.parse_validate hd.reads_back)).2.2.2.2.1
  refine ⟨published (publishInput d) row ms s.index, ?_, ?_, ?_, ?_⟩
  · rw [Core.indexFile, bind_of_ok hread]
    simp only [hd.reads_back, bind_of_ok hbatch]
    rfl
  · exact hs.projects.published hone hrow.row hms fun old hold hoid => absurd hoid (hfresh old hold)
  · intro q hq g e hg he
    rcases List.mem_append.1 hq with hq | hq
    · have hne : d.record.recordId ≠ e.record.recordId := by
        intro hde
        have hqp : q = p := h.oneFile q (hdone q hq) p hp (by rw [he.stem, hd.stem, hde])
        exact hnew (hqp ▸ hq)
      exact (entry_published_of_ne hrid hne).trans (hs.entries q hq g e hg he)
    · obtain rfl := List.mem_singleton.1 hq
      have hge : g = f := Option.some.inj (hg.symm.trans hf)
      subst hge
      have hed : e = d := by
        have htext := Utf8.encode_inj (he.content.symm.trans hd.content)
        have hparse := he.reads_back
        rw [htext, hd.reads_back] at hparse
        exact (Except.ok.inj hparse).symm
      subst hed
      exact entry_of_new hrow hms hs.projects hfresh
  · intro row' hrow'
    rcases mem_upsert (show row' ∈ insertRecord row s.index.records from hrow') with
      rfl | hr | ⟨z, hz, -, rfl⟩
    · exact ⟨p, by simp, by rw [hd.stem, hrid]⟩
    · obtain ⟨q, hq, hstem⟩ := hs.known row' hr
      exact ⟨q, by simp [hq], hstem⟩
    · obtain ⟨q, hq, hstem⟩ := hs.known row' hz
      exact ⟨q, by simp [hq], hstem⟩

theorem foldlM_indexFile (h : Live P σ) {ps done : List Path} {s : Store}
    (hs : Derives P σ done s.index) (hrecords : s.records = σ.records)
    (hps : ∀ p ∈ ps, p ∈ σ.records) (hdone : ∀ q ∈ done, q ∈ σ.records) (hnd : (done ++ ps).Nodup)
    (n : ℕ × ℕ) : ∃ n' i, ps.foldlM (Core.indexFile P) n s = (.ok n', { s with index := i }) ∧
      Derives P σ (done ++ ps) i := by
  induction ps generalizing done s n with
  | nil => exact ⟨n, s.index, rfl, by rwa [List.append_nil]⟩
  | cons p ps ih =>
    have hnew : p ∉ done := fun hp =>
      (List.nodup_append.1 hnd).2.2 p hp p List.mem_cons_self rfl
    obtain ⟨i, hrun, hi⟩ := hs.indexFile h hrecords (hps p (by simp)) hnew hdone n
    have happ : done ++ p :: ps = done ++ [p] ++ ps := by simp
    rw [happ] at hnd ⊢
    have hdone' : ∀ q ∈ done ++ [p], q ∈ σ.records := by
      intro q hq
      rcases List.mem_append.1 hq with hq | hq
      · exact hdone q hq
      · rw [List.mem_singleton.1 hq]
        exact hps p (by simp)
    obtain ⟨n', j, hrest, hj⟩ := ih (s := { s with index := i }) hi hrecords
      (fun q hq => hps q (by simp [hq])) hdone' hnd (n.1 + 1, n.2)
    refine ⟨n', j, ?_, hj⟩
    rw [List.foldlM_cons, bind_of_ok hrun]
    exact hrest

/-- Registering a record that is held back again touches nothing but the register. -/
theorem reregisterFile_apply (P : Pipeline) (env : Env) {s : Store} {p : Path} {t : Text}
    (h : s.quarantine.readToString p = .ok t) :
    ∃ i, reregisterFile P env p s = (.ok (), { s with index := i }) ∧ SameJobs s.index i := by
  have hread : readFile Store.quarantine p s = (.ok t, s) := by
    rw [readFile, state_bind, h]
    rfl
  rw [reregisterFile, bind_of_ok hread]
  cases hd : Document.parse P.yaml t with
  | error e => exact ⟨s.index, rfl, rfl, rfl, rfl, rfl, rfl, rfl⟩
  | ok d =>
    obtain ⟨-, -, hre, -⟩ := ActionRecord.validate_ok_iff.1 (Document.parse_validate hd)
    obtain ⟨st, hst⟩ : ∃ st, stampOf d.record = .ok st := by
      obtain ⟨ms, hms⟩ := Option.ne_none_iff_exists'.1 hre
      simp [stampOf, stamp, hms]
    refine ⟨enqueueQuarantine d.record.recordId st.date (dirPath P ".quarantine" p) env.now s.index,
      ?_, sameJobs_quarantine _ _⟩
    simp only [hst, ofExcept_ok_bind]
    rfl

theorem forM_reregisterFile (P : Pipeline) (env : Env) {ps : List Path} {s : Store}
    (h : ∀ p f, s.quarantine.lookup p = some f → ∃ t, f.content = Utf8.encode t) (hps : ∀ p ∈ ps, p ∈ s.quarantine) :
    ∃ i, forM ps (reregisterFile P env) s = (.ok (), { s with index := i }) ∧ SameJobs s.index i := by
  induction ps generalizing s with
  | nil => exact ⟨s.index, rfl, rfl, rfl, rfl, rfl, rfl, rfl⟩
  | cons p ps ih =>
    obtain ⟨f, hf⟩ := Tree.mem_iff_lookup.1 (hps p (by simp))
    obtain ⟨t, ht⟩ := h p f hf
    obtain ⟨i, hrun, hi⟩ := reregisterFile_apply P env (Tree.readToString_ok.2 ⟨f, hf, ht⟩)
    obtain ⟨j, hrest, hj⟩ := ih (s := { s with index := i }) h fun q hq => hps q (by simp [hq])
    refine ⟨j, ?_, hj.records.trans hi.records, hj.attrs.trans hi.attrs,
      hj.entityRefs.trans hi.entityRefs, hj.subjects.trans hi.subjects, hj.entities.trans hi.entities,
      hj.jobs.trans hi.jobs⟩
    show (reregisterFile P env p >>= fun _ => forM ps (reregisterFile P env)) s = _
    rw [bind_of_ok hrun]
    exact hrest

/-- The derived rows of a live store are what is derived from all of its files. -/
theorem Derives.sameDerived (h : Live P σ) {done : List Path} {i : Tables} (hi : Derives P σ done i)
    (hall : ∀ p ∈ σ.records, p ∈ done) (hdone : ∀ p ∈ done, p ∈ σ.records) :
    SameDerived σ.index i := by
  refine sameDerived_of_entries h.projects hi.projects fun id => ?_
  by_cases hrow : ∃ row ∈ σ.index.records, row.recordId = id
  · obtain ⟨row, hrow, rfl⟩ := hrow
    obtain ⟨p, hp, hstem⟩ := h.known row hrow
    obtain ⟨f, hf⟩ := Tree.mem_iff_lookup.1 hp
    obtain ⟨d, hd⟩ := h.files p f hf
    have hid : d.record.recordId = row.recordId :=
      RecordId.ext_text (Option.some.inj (hd.stem.symm.trans hstem))
    rw [← hid, hd.entry, hi.entries p (hall p hp) f d hf hd]
  · have hno : ∀ row ∈ σ.index.records, row.recordId ≠ id := by simpa using hrow
    have hno' : ∀ row ∈ i.records, row.recordId ≠ id := by
      rintro row hr rfl
      obtain ⟨p, hp, hstem⟩ := hi.known row hr
      exact h.stem_ne hno p (hdone p hp) hstem
    rw [(h.projects.owned id hno).1, (hi.projects.owned id hno').1]

/-- Every file of a live store is a record file: a rebuild's walk meets them all. -/
theorem Live.mem_tree (h : Live P σ) {p : Path} : p ∈ (Sources.list P σ).tree ↔ p ∈ σ.records := by
  rw [Sources.list, List.mem_insertionSort, Tree.mem_walkFiles]
  refine ⟨fun hp => hp.1, fun hp => ⟨hp, ?_⟩⟩
  obtain ⟨f, hf⟩ := Tree.mem_iff_lookup.1 hp
  obtain ⟨d, hd⟩ := h.files p f hf
  obtain ⟨dir, rfl⟩ := hd.name
  exact extension_recordFile dir _

/-- **A rebuild of a live store goes through, and leaves the same derived rows.** -/
theorem Live.rebuilt (h : Live P σ) (env : Env) :
    ∃ rep σ', reindexAll P env σ = (.ok rep, σ') ∧ SameDerived σ.index σ'.index := by
  have hreplay : replayTombstones P env σ = (.ok 0, σ) := by
    rw [replayTombstones, readLog_bind, h.tombstoneLog]
    rfl
  let emptied : Store := { σ with index := .empty, entities := ∅ }
  have hempty : Derives P σ [] emptied.index :=
    ⟨Projects.empty, List.forall_mem_nil _, List.forall_mem_nil _⟩
  have hnd : (Sources.list P σ).tree.Nodup :=
    (List.perm_insertionSort _ _).nodup_iff.2 (Tree.nodup_walkFiles _ _)
  obtain ⟨n, i, htree, hi⟩ := foldlM_indexFile h hempty rfl (fun p hp => h.mem_tree.1 hp)
    (List.forall_mem_nil _) hnd (0, 0)
  rw [List.nil_append] at hi
  have hcold : (Sources.list P σ).manifests = [] := by
    rw [Sources.list, h.cold]
    rfl
  have hspool : ∀ p f, ({ emptied with index := i } : Store).quarantine.lookup p = some f →
      ∃ t, f.content = Utf8.encode t := h.spool
  obtain ⟨j, hregister, hj⟩ := forM_reregisterFile P env hspool
    fun p (hp : p ∈ (Sources.list P σ).quarantine) => (Tree.mem_walkFiles.1 hp).1
  have hsame := hi.sameDerived h (fun p hp => h.mem_tree.2 hp) fun p hp => h.mem_tree.1 hp
  refine ⟨⟨n.1, 0, n.2 + 0, 0, (σ.entities.walkFiles recordExt).length⟩,
    { emptied with index := j }, ?_, hsame.queue hj⟩
  rw [reindexAll, bind_of_ok hreplay, state_bind, rebuild, transaction]
  have hdrop : dropTimelines { σ with index := .empty } =
      (.ok (σ.entities.walkFiles recordExt).length, emptied) := rfl
  have htrunc : (inBatch (change truncateDerived) : StoreM Unit) σ =
      (.ok (), { σ with index := .empty }) := rfl
  rw [bind_of_ok htrunc, bind_of_ok hdrop, bind_of_ok htree, hcold, List.foldlM_nil, pure_bind,
    bind_of_ok hregister]
  rfl

/-! ## Runs -/

/-- A write, a sweep, or a drain of the fan-out queue. -/
inductive LiveStep where
  | accept (env : Env) (r : ActionRecord) (body : Text)
  | sweep (env : Env)
  | drainFanout (env : Env) (maxJobs : ℕ)

def LiveStep.run (P : Pipeline) (σ : Store) : LiveStep → Store
  | .accept env r body => (Core.accept P env r body σ).2
  | .sweep env => (Core.sweep P env σ).2
  | .drainFanout env maxJobs => (Core.drainFanout P env maxJobs σ).2

/-- The step answers, and not with an error. -/
def LiveStep.succeeds (P : Pipeline) (σ : Store) : LiveStep → Bool
  | .accept env r body => (Core.accept P env r body σ).1.isOk
  | .sweep env => (Core.sweep P env σ).1.isOk
  | .drainFanout env maxJobs => (Core.drainFanout P env maxJobs σ).1.isOk

def LiveStep.Distinct (σ : Store) : LiveStep → Prop
  | .accept _ r body => Core.Distinct σ r body
  | .sweep _ | .drainFanout _ _ => True

instance (σ : Store) (a : LiveStep) : Decidable (a.Distinct σ) :=
  match a with
  | .accept _ r body => inferInstanceAs (Decidable (Core.Distinct σ r body))
  | .sweep _ | .drainFanout _ _ => isTrue trivial

def LiveStep.runAll (P : Pipeline) : Store → List LiveStep → Store
  | σ, [] => σ
  | σ, a :: as => runAll P (a.run P σ) as

def LiveStep.allSucceed (P : Pipeline) : Store → List LiveStep → Bool
  | _, [] => true
  | σ, a :: as => a.succeeds P σ && allSucceed P (a.run P σ) as

/-- Every write of a run is distinct where it happens. -/
def LiveStep.AllDistinct (P : Pipeline) : Store → List LiveStep → Prop
  | _, [] => True
  | σ, a :: as => a.Distinct σ ∧ AllDistinct P (a.run P σ) as

instance LiveStep.decidableAllDistinct (P : Pipeline) :
    (σ : Store) → (as : List LiveStep) → Decidable (LiveStep.AllDistinct P σ as)
  | _, [] => isTrue trivial
  | σ, a :: as =>
    have := decidableAllDistinct P (a.run P σ) as
    inferInstanceAs (Decidable (_ ∧ _))

theorem Live.step (hY : P.yaml.Inverts) (h : Live P σ) {a : LiveStep} (hok : a.succeeds P σ)
    (hnew : a.Distinct σ) : Live P (a.run P σ) := by
  cases a with
  | accept env r body =>
    cases hres : (Core.accept P env r body σ).1 with
    | ok answer => exact h.accept hY hres hnew
    | error e =>
      rw [LiveStep.succeeds, hres] at hok
      cases hok
  | sweep env => exact Live.sweep P env σ h
  | drainFanout env maxJobs => exact drainFanout_keeps (Live.drainFrame P) P env maxJobs σ h

theorem Live.run (hY : P.yaml.Inverts) (h : Live P σ) {as : List LiveStep}
    (hok : LiveStep.allSucceed P σ as) (hnew : LiveStep.AllDistinct P σ as) :
    Live P (LiveStep.runAll P σ as) := by
  induction as generalizing σ with
  | nil => exact h
  | cons a as ih =>
    obtain ⟨hfirst, hrest⟩ := Bool.and_eq_true_iff.1 hok
    exact ih (h.step hY hfirst hnew.1) hrest hnew.2

section
set_option maxRecDepth 4000

end

end Yaam.Core
