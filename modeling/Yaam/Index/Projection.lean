/-
  Derived rows and the frontmatter they are derived from.

  * `Projects` says of an index that each record's derived rows are those its stored
    frontmatter determines, and each counter of the catalog the aggregate of the
    references;
  * `Projects.published`: a publish keeps that when the record is new, or has the
    frontmatter that is stored;
  * `Projects.queue`: so does a step of the fan-out queue;
  * `sameDerived_of_entries`: two such indexes that hold the same about each record have
    the same rows.
-/
import Yaam.Index.Tables

namespace Yaam.Index

open Text Contract Eff

/-! ## What frontmatter determines -/

/-- The entity rows of a record with this frontmatter and server time: of two
    references to an entity in one role, the later. -/
def entityRows (f : ActionRecord) (receivedMs : ℤ) : List EntityRow :=
  (insertEntities f receivedMs ([], [])).1

/-- A subject as the frontmatter names it: without the share. -/
def SubjectRow.ref (r : SubjectRow) : SubjectRef := ⟨r.subject, r.role, r.canonVer⟩

/-- The row that counts the references to an entity: how many, the first and the last. -/
def aggregate (kind entityId : Text) (refs : List EntityRow) : Option CatalogRow :=
  match (refs.filter fun r => r.kind = kind ∧ r.entityId = entityId).map (·.receivedMs) with
  | [] => none
  | t :: ts => some ⟨kind, entityId, ts.foldl min t, ts.foldl max t, ts.length + 1⟩

/-- The catalog counts the references. -/
def Counts (refs : List EntityRow) (rows : List CatalogRow) : Prop :=
  ∀ kind entityId, (rows.filter fun r => r.kind = kind ∧ r.entityId = entityId) =
    (aggregate kind entityId refs).toList

/-- **The derived rows project the stored frontmatter**, and there are no others. -/
structure Projects (i : Tables) : Prop where
  oneRow : (i.records.map (·.recordId)).Nodup
  named : ∀ row ∈ i.records, row.frontmatter.recordId = row.recordId
  received : ∀ row ∈ i.records, unixepochMs row.frontmatter.receivedAt = some row.receivedMs
  attrs : ∀ row ∈ i.records,
    (i.attrs.filter fun r => r.record = row.recordId) = attrRows row.frontmatter
  entityRefs : ∀ row ∈ i.records, (i.entityRefs.filter fun r => r.record = row.recordId) =
    entityRows row.frontmatter row.receivedMs
  subjects : ∀ row ∈ i.records, (i.subjects.filter fun r => r.record = row.recordId).map (·.ref) =
    row.frontmatter.subjects
  jobs : ∀ row ∈ i.records, (i.fanoutQueue.filter fun r => r.record = row.recordId).map (·.kind) =
    (jobRows row.frontmatter row.receivedMs).map (·.kind)
  owned : ∀ id, (∀ row ∈ i.records, row.recordId ≠ id) →
    i.Unknown id ∧ ∀ j ∈ i.fanoutQueue, j.record ≠ id
  counters : Counts i.entityRefs i.entities

theorem Projects.empty : Projects .empty where
  oneRow := List.nodup_nil
  named _ h := absurd h List.not_mem_nil
  received _ h := absurd h List.not_mem_nil
  attrs _ h := absurd h List.not_mem_nil
  entityRefs _ h := absurd h List.not_mem_nil
  subjects _ h := absurd h List.not_mem_nil
  jobs _ h := absurd h List.not_mem_nil
  owned _ _ := ⟨rfl, fun _ h => absurd h List.not_mem_nil⟩
  counters _ _ := rfl

/-! ## Counters -/

theorem aggregate_congr {kind entityId : Text} {refs refs' : List EntityRow}
    (h : (refs.filter fun r => r.kind = kind ∧ r.entityId = entityId) =
      refs'.filter fun r => r.kind = kind ∧ r.entityId = entityId) :
    aggregate kind entityId refs = aggregate kind entityId refs' := by
  rw [aggregate, aggregate, h]

/-- A recount puts the row of its entity right, and leaves the others. -/
theorem filter_recount {kind entityId : Text} {refs : List EntityRow} {rows : List CatalogRow}
    (hsome : ∃ r ∈ refs, r.kind = kind ∧ r.entityId = entityId)
    (hone : (rows.filter fun r => r.kind = kind ∧ r.entityId = entityId).length ≤ 1)
    (k e : Text) : ((recount kind entityId refs rows).filter fun r => r.kind = k ∧ r.entityId = e) =
      if k = kind ∧ e = entityId then (aggregate kind entityId refs).toList
      else rows.filter fun r => r.kind = k ∧ r.entityId = e := by
  unfold recount aggregate
  cases hms : (refs.filter fun r => r.kind = kind ∧ r.entityId = entityId).map (·.receivedMs) with
  | nil =>
    obtain ⟨r, hr, hk⟩ := hsome
    have hm : r ∈ refs.filter fun r => r.kind = kind ∧ r.entityId = entityId :=
      List.mem_filter.2 ⟨hr, by simpa using hk⟩
    rw [List.map_eq_nil_iff.1 hms] at hm
    cases hm
  | cons t ts =>
    dsimp only
    rw [filter_upsert]
    · by_cases h : k = kind ∧ e = entityId
      · obtain ⟨rfl, rfl⟩ := h
        rw [if_pos (by simp), if_pos ⟨rfl, rfl⟩]
        cases hrows : rows.filter fun r => r.kind = k ∧ r.entityId = e with
        | nil => rfl
        | cons z zs =>
          have hz : z ∈ rows.filter fun r => r.kind = k ∧ r.entityId = e := by
            rw [hrows]
            exact List.mem_cons_self
          have hzk := (List.mem_filter.1 hz).2
          simp only [decide_eq_true_eq] at hzk
          rw [hrows] at hone
          obtain rfl : zs = [] := by
            rw [← List.length_eq_zero_iff]
            simp only [List.length_cons] at hone
            omega
          rw [upsert_cons, if_pos (by rw [hzk.1, hzk.2])]
          rfl
      · have hne : ¬ (decide (kind = k ∧ entityId = e) = true) := by
          rw [decide_eq_true_eq]
          exact fun he => h ⟨he.1.symm, he.2.symm⟩
        rw [if_neg hne, if_neg h]
    · intro y hy
      obtain ⟨h1, h2⟩ : y.kind = kind ∧ y.entityId = entityId := Prod.mk.inj hy
      rw [h1, h2]
    · intro y hy
      obtain ⟨h1, h2⟩ : y.kind = kind ∧ y.entityId = entityId := Prod.mk.inj hy
      rw [h1, h2]

/-- Writing a reference and recounting its entity keeps the catalog right. -/
theorem Counts.insert {refs : List EntityRow} {rows : List CatalogRow} (h : Counts refs rows)
    (new : EntityRow) :
    Counts (insertEntityRef new refs) (recount new.kind new.entityId (insertEntityRef new refs) rows) := by
  have hkey : ∃ r ∈ insertEntityRef new refs,
      (r.record, r.kind, r.entityId, r.role) = (new.record, new.kind, new.entityId, new.role) :=
    (exists_key_upsert (fun _ _ => rfl) _).2 (.inl rfl)
  obtain ⟨r, hr, hk⟩ := hkey
  simp only [Prod.mk.injEq] at hk
  intro kind entityId
  rw [filter_recount ⟨r, hr, hk.2.1, hk.2.2.1⟩]
  · split_ifs with he
    · rw [he.1, he.2]
    · rw [h kind entityId]
      congr 1
      refine aggregate_congr ?_
      rw [insertEntityRef, filter_upsert (fun _ _ => rfl)]
      · have hne : ¬ (decide (new.kind = kind ∧ new.entityId = entityId) = true) := by
          rw [decide_eq_true_eq]
          exact fun hk => he ⟨hk.1.symm, hk.2.symm⟩
        rw [if_neg hne]
      · intro y hy
        simp only [Prod.mk.injEq] at hy
        rw [hy.2.1, hy.2.2.1]
  · rw [h]
    cases aggregate new.kind new.entityId refs <;> simp

theorem Counts.insertEntities {ts : List EntityRow × List CatalogRow} (h : Counts ts.1 ts.2)
    (doc : ActionRecord) (receivedMs : ℤ) :
    Counts (insertEntities doc receivedMs ts).1 (insertEntities doc receivedMs ts).2 := by
  unfold Index.insertEntities
  induction doc.entities generalizing ts with
  | nil => exact h
  | cons e es ih => exact ih (h.insert (entityRow doc receivedMs e))

/-! ## The rows of one record, published again -/

/-- Published alone, a record has one row for each attribute. -/
theorem insertAttrs_nil (doc : ActionRecord) : insertAttrs doc [] = attrRows doc := by
  have hnd : ((attrRows doc).map fun r => (r.record, r.key)).Nodup := by
    have hkeys : (doc.attrs.entries.map Prod.fst).Nodup := by
      refine doc.attrs.sorted.imp ?_
      rintro a b hlt rfl
      exact List.lt_irrefl a hlt
    rw [attrRows, List.map_map]
    have hpair : ((fun r : AttrRow => (r.record, r.key)) ∘ fun a => ⟨doc.recordId, a.1, attrText a.2⟩) =
        (fun k => (doc.recordId, k)) ∘ Prod.fst := rfl
    rw [hpair, ← List.map_map]
    exact hkeys.map fun a b hab => (Prod.mk.inj hab).2
  exact upsertAll_of_new hnd fun x _ y hy => absurd hy List.not_mem_nil

/-- Published again, a record's attributes are those it has. -/
theorem insertAttrs_again (doc : ActionRecord) : insertAttrs doc (attrRows doc) = attrRows doc := by
  rw [← insertAttrs_nil]
  refine upsertAll_idem (fun x y hk => ?_) _ List.nodup_nil
  obtain ⟨h1, h2⟩ := Prod.mk.inj hk
  cases x
  cases y
  simp_all

/-- A row upserted on its own key is replaced. -/
theorem EntityRow.replaced (x y : EntityRow) (hkey : (y.record, y.kind, y.entityId, y.role) =
    (x.record, x.kind, x.entityId, x.role)) :
    ({ y with confidence := x.confidence, receivedMs := x.receivedMs } : EntityRow) = x := by
  simp only [Prod.mk.injEq] at hkey
  obtain ⟨hrecord, hkind, hid, hrole⟩ := hkey
  cases x
  simp only [hrecord, hkind, hid, hrole]

/-- Published again, a record's references are those it has. -/
theorem insertEntities_again (doc : ActionRecord) (receivedMs : ℤ) (catalog : List CatalogRow) :
    (insertEntities doc receivedMs (entityRows doc receivedMs, catalog)).1 =
      entityRows doc receivedMs := by
  rw [entityRows, insertEntities_refs, insertEntities_refs]
  exact upsertAll_idem EntityRow.replaced _ List.nodup_nil

/-- Published again, a record has the jobs it has. -/
theorem enqueueFanout_again {doc : ActionRecord} {ms ms' : ℤ} {rows : List JobRow}
    (hrec : ∀ j ∈ rows, j.record = doc.recordId)
    (hkinds : rows.map (·.kind) = (jobRows doc ms').map (·.kind)) :
    enqueueFanout doc ms rows = rows := by
  refine upsertAll_of_old fun j hj => ?_
  have hkind : j.kind ∈ (jobRows doc ms').map (·.kind) := by
    have hsame : (jobRows doc ms').map (·.kind) = (jobRows doc ms).map (·.kind) := by
      unfold jobRows
      split_ifs <;> rfl
    rw [hsame]
    exact List.mem_map_of_mem hj
  rw [← hkinds] at hkind
  obtain ⟨k, hk, he⟩ := List.mem_map.1 hkind
  exact ⟨k, hk, by rw [hrec k hk, jobRows_record ms j hj, he]⟩

theorem enqueueFanout_nil (doc : ActionRecord) (ms : ℤ) : enqueueFanout doc ms [] = jobRows doc ms := by
  refine upsertAll_of_new ?_ fun x _ y hy => absurd hy List.not_mem_nil
  unfold jobRows
  split_ifs <;> simp

/-- Published first or again, a record has the subjects it names. -/
theorem ref_insertSubjects {inp : PublishInput} (hone : inp.record.subjects.length ≤ 1)
    {rows : List SubjectRow} (hrec : ∀ r ∈ rows, r.record = inp.record.recordId)
    (hrows : rows = [] ∨ rows.map (·.ref) = inp.record.subjects) :
    (insertSubjects inp rows).map (·.ref) = inp.record.subjects := by
  unfold insertSubjects
  match hs : inp.record.subjects, hone with
  | [], _ =>
    rw [hs] at hrows
    rcases hrows with rfl | h
    · rfl
    · exact h
  | [s], _ =>
    rcases hrows with rfl | h
    · rfl
    · rw [hs] at h
      obtain ⟨r, rfl⟩ : ∃ r, rows = [r] := by
        rw [← List.length_eq_one_iff, ← List.length_map, h]
        rfl
      have hr : r.subject = s.hash := congrArg SubjectRef.hash (List.cons.inj h).1
      have hkey : (r.record, r.subject) = ((subjectRow inp s).record, (subjectRow inp s).subject) := by
        rw [hrec r (by simp), hr]
        rfl
      show (upsert (fun r => (r.record, r.subject)) mergeSubject (subjectRow inp s) [r]).map _ = _
      rw [upsert_cons, if_pos hkey]
      show [(⟨r.subject, s.role, s.canonVer⟩ : SubjectRef)] = _
      rw [hr]

/-! ## Publishing -/

variable {inp : PublishInput} {row : RecordRow} {ms : ℤ} {i : Tables}

/-- The rows of the records after a publish: as they were, when the record has a row,
    and one more when it is new. -/
theorem insertRecord_cases (hrow : row.recordId = inp.record.recordId)
    (hone : (i.records.map (·.recordId)).Nodup)
    (hms : receivedMsOf inp.record.recordId (insertRecord row i.records) = some ms) :
    (∃ old ∈ i.records, old.recordId = inp.record.recordId ∧
      insertRecord row i.records = i.records ∧ ms = old.receivedMs) ∨
    ((∀ old ∈ i.records, old.recordId ≠ inp.record.recordId) ∧
      insertRecord row i.records = i.records ++ [row] ∧ ms = row.receivedMs) := by
  by_cases h : ∃ old ∈ i.records, old.recordId = row.recordId
  · have hsame : insertRecord row i.records = i.records := upsert_of_old h
    obtain ⟨old, hold, hid⟩ := h
    refine .inl ⟨old, hold, hid.trans hrow, hsame, ?_⟩
    rw [hsame] at hms
    obtain ⟨found, hfound, hfms⟩ := Option.map_eq_some_iff.1 hms
    have hfid : found.recordId = inp.record.recordId := by simpa using List.find?_some hfound
    have : found = old := List.inj_on_of_nodup_map hone (List.mem_of_find?_eq_some hfound) hold
      (hfid.trans (hid.trans hrow).symm)
    rw [← hfms, this]
  · have hnew : ∀ old ∈ i.records, old.recordId ≠ row.recordId := by simpa using h
    have happ : insertRecord row i.records = i.records ++ [row] := upsert_of_new hnew
    refine .inr ⟨by rwa [← hrow], happ, ?_⟩
    have hnone : i.records.find? (fun r => r.recordId = inp.record.recordId) = none := by
      rw [List.find?_eq_none]
      intro old hold
      simpa [hrow] using hnew old hold
    rw [happ, receivedMsOf, List.find?_append, hnone, Option.none_or, List.find?_cons,
      decide_eq_true hrow] at hms
    exact (Option.some.inj hms).symm

/-- **A publish keeps the index a projection** when its record is new, or has the
    frontmatter that is stored. -/
theorem Projects.published (h : Projects i)
    (hone : inp.record.subjects.length ≤ 1)
    (hrow : recordRow inp.record inp.searchableBody = .ok row)
    (hms : receivedMsOf inp.record.recordId (insertRecord row i.records) = some ms)
    (hagree : ∀ old ∈ i.records, old.recordId = inp.record.recordId →
      old.frontmatter = inp.record.bare) :
    Projects (published inp row ms i) := by
  obtain ⟨hid, -, hfront, -, hrec⟩ := recordRow_ok hrow
  have hcases := insertRecord_cases hid h.oneRow hms
  -- every row but the record's own stands as it did
  have hrows : ∀ r ∈ insertRecord row i.records, r ∈ i.records ∧
      r.recordId ≠ inp.record.recordId ∨ r.recordId = inp.record.recordId ∧
        r.frontmatter = inp.record.bare ∧ r.receivedMs = ms := by
    intro r hr
    rcases hcases with ⟨old, hold, hoid, hsame, rfl⟩ | ⟨hnew, happ, rfl⟩
    · rw [hsame] at hr
      by_cases hrid : r.recordId = inp.record.recordId
      · obtain rfl := List.inj_on_of_nodup_map h.oneRow hr hold (hrid.trans hoid.symm)
        exact .inr ⟨hrid, hagree r hr hrid, rfl⟩
      · exact .inl ⟨hr, hrid⟩
    · rw [happ] at hr
      rcases List.mem_append.1 hr with hr | hr
      · exact .inl ⟨hr, hnew r hr⟩
      · rw [List.mem_singleton.1 hr]
        exact .inr ⟨hid, hfront, rfl⟩
  -- what the record's own rows were: none, or those of its frontmatter
  have hown : i.Unknown inp.record.recordId ∧ (∀ j ∈ i.fanoutQueue, j.record ≠ inp.record.recordId) ∨
      ∃ old ∈ i.records, old.recordId = inp.record.recordId ∧ old.frontmatter = inp.record.bare ∧
        old.receivedMs = ms := by
    rcases hcases with ⟨old, hold, hoid, -, rfl⟩ | ⟨hnew, -, -⟩
    · exact .inr ⟨old, hold, hoid, hagree old hold hoid, rfl⟩
    · exact .inl (h.owned _ hnew)
  refine ⟨?_, fun r hr => ?_, fun r hr => ?_, fun r hr => ?_, fun r hr => ?_, fun r hr => ?_,
    fun r hr => ?_, fun id hno => ?_, h.counters.insertEntities inp.record ms⟩
  · show ((insertRecord row i.records).map (·.recordId)).Nodup
    rcases hcases with ⟨-, -, -, hsame, -⟩ | ⟨hnew, happ, -⟩
    · rw [hsame]
      exact h.oneRow
    · rw [happ, List.map_append, List.nodup_append]
      refine ⟨h.oneRow, List.nodup_singleton _, fun k hk k' hk' he => ?_⟩
      obtain ⟨old, hold, rfl⟩ := List.mem_map.1 hk
      rw [List.mem_singleton.1 hk'] at he
      exact hnew old hold (he.trans hid)
  · rcases hrows r hr with ⟨hr, -⟩ | ⟨hrid, hf, -⟩
    · exact h.named r hr
    · rw [hf, hrid]
      rfl
  · rcases hcases with ⟨-, -, -, hsame, -⟩ | ⟨-, happ, -⟩
    · exact h.received r (by rwa [← hsame])
    · replace hr : r ∈ insertRecord row i.records := hr
      rw [happ] at hr
      rcases List.mem_append.1 hr with hr | hr
      · exact h.received r hr
      · rw [List.mem_singleton.1 hr, hfront]
        exact hrec
  · rcases hrows r hr with ⟨hr, hne⟩ | ⟨hrid, hf, -⟩
    · exact (filter_insertAttrs_of_ne (Ne.symm hne) _).trans (h.attrs r hr)
    · rw [hrid, hf]
      refine (filter_insertAttrs _).trans ?_
      rcases hown with ⟨hun, -⟩ | ⟨old, hold, hoid, hof, -⟩
      · rw [show (i.attrs.filter fun r => r.record = inp.record.recordId) = [] from
          congrArg Entry.attrs hun]
        exact insertAttrs_nil inp.record
      · rw [← hoid, h.attrs old hold, hof]
        exact insertAttrs_again inp.record
  · rcases hrows r hr with ⟨hr, hne⟩ | ⟨hrid, hf, hrms⟩
    · exact (filter_insertEntities_of_ne (Ne.symm hne) _ _).trans (h.entityRefs r hr)
    · rw [hrid, hf, hrms]
      refine (filter_insertEntities _ _).trans ?_
      rcases hown with ⟨hun, -⟩ | ⟨old, hold, hoid, hof, homs⟩
      · rw [show (i.entityRefs.filter fun r => r.record = inp.record.recordId) = [] from
          congrArg Entry.entityRefs hun]
        rfl
      · rw [← hoid, h.entityRefs old hold, hof, homs]
        exact insertEntities_again inp.record ms []
  · rcases hrows r hr with ⟨hr, hne⟩ | ⟨hrid, hf, -⟩
    · show ((insertSubjects inp i.subjects).filter _).map _ = _
      rw [filter_insertSubjects_of_ne (Ne.symm hne), h.subjects r hr]
    · show ((insertSubjects inp i.subjects).filter _).map _ = _
      rw [hrid, hf, filter_insertSubjects]
      refine ref_insertSubjects hone (fun s hs => by simpa using (List.mem_filter.1 hs).2) ?_
      rcases hown with ⟨hun, -⟩ | ⟨old, hold, hoid, hof, -⟩
      · exact .inl (congrArg Entry.subjects hun)
      · right
        rw [← hoid, h.subjects old hold, hof]
        rfl
  · rcases hrows r hr with ⟨hr, hne⟩ | ⟨hrid, hf, hrms⟩
    · show ((enqueueFanout inp.record ms i.fanoutQueue).filter _).map _ = _
      rw [filter_enqueueFanout_of_ne (Ne.symm hne), h.jobs r hr]
    · show ((enqueueFanout inp.record ms i.fanoutQueue).filter _).map _ = _
      rw [hrid, hf, hrms, filter_enqueueFanout]
      rcases hown with ⟨-, hno⟩ | ⟨old, hold, hoid, hof, homs⟩
      · rw [show (i.fanoutQueue.filter fun r => r.record = inp.record.recordId) = [] by
          simpa using hno, enqueueFanout_nil]
        rfl
      · have hkinds := h.jobs old hold
        rw [hoid, hof, homs] at hkinds
        have hagain : enqueueFanout inp.record ms
            (i.fanoutQueue.filter fun r => r.record = inp.record.recordId) =
            i.fanoutQueue.filter fun r => r.record = inp.record.recordId :=
          enqueueFanout_again (fun j hj => by simpa using (List.mem_filter.1 hj).2) hkinds
        rw [hagain]
        exact hkinds
  · have hne : inp.record.recordId ≠ id := by
      rintro rfl
      rcases hcases with ⟨old, hold, hoid, hsame, -⟩ | ⟨-, happ, -⟩
      · refine hno old ?_ hoid
        show old ∈ insertRecord row i.records
        rwa [hsame]
      · refine hno row ?_ hid
        show row ∈ insertRecord row i.records
        rw [happ]
        simp
    have hold : ∀ r ∈ i.records, r.recordId ≠ id := by
      intro r hr
      refine hno r ?_
      show r ∈ insertRecord row i.records
      rcases hcases with ⟨-, -, -, hsame, -⟩ | ⟨-, happ, -⟩
      · rwa [hsame]
      · rw [happ]
        exact List.mem_append_left _ hr
    obtain ⟨hun, hjobs⟩ := h.owned id hold
    refine ⟨(entry_published_of_ne hid hne).trans hun, fun j hj hjid => ?_⟩
    have hmem : j ∈ (enqueueFanout inp.record ms i.fanoutQueue).filter fun r => r.record = id :=
      List.mem_filter.2 ⟨hj, by simpa using hjid⟩
    rw [filter_enqueueFanout_of_ne hne] at hmem
    exact hjobs j (List.mem_filter.1 hmem).1 hjid

/-! ## The queue and the register of held records -/

/-- A step that keeps every job, and no other table but the queue and the register
    of held records. -/
structure SameJobs (i i' : Tables) : Prop where
  records : i'.records = i.records
  attrs : i'.attrs = i.attrs
  entityRefs : i'.entityRefs = i.entityRefs
  subjects : i'.subjects = i.subjects
  entities : i'.entities = i.entities
  jobs : i'.fanoutQueue.map (fun j => (j.record, j.kind)) =
    i.fanoutQueue.map fun j => (j.record, j.kind)

theorem SameJobs.entry {i' : Tables} (h : SameJobs i i') (id : RecordId) : i'.entry id = i.entry id := by
  simp only [Tables.entry, h.records, h.attrs, h.entityRefs, h.subjects]

theorem map_kind_filter (rows : List JobRow) (id : RecordId) :
    (rows.filter fun j => j.record = id).map (·.kind) =
      ((rows.map fun j => (j.record, j.kind)).filter fun k => k.1 = id).map Prod.snd := by
  rw [List.filter_map, List.map_map]
  rfl

/-- **A step of the queue keeps the index a projection.** -/
theorem Projects.queue {i' : Tables} (h : Projects i) (hi : SameJobs i i') : Projects i' where
  oneRow := by
    rw [hi.records]
    exact h.oneRow
  named := by
    rw [hi.records]
    exact h.named
  received := by
    rw [hi.records]
    exact h.received
  attrs := by
    rw [hi.records, hi.attrs]
    exact h.attrs
  entityRefs := by
    rw [hi.records, hi.entityRefs]
    exact h.entityRefs
  subjects := by
    rw [hi.records, hi.subjects]
    exact h.subjects
  jobs := by
    rw [hi.records]
    intro row hrow
    rw [map_kind_filter, hi.jobs, ← map_kind_filter]
    exact h.jobs row hrow
  owned := by
    rw [hi.records]
    intro id hid
    obtain ⟨hun, hjobs⟩ := h.owned id hid
    refine ⟨?_, fun j hj hjid => ?_⟩
    · exact (hi.entry id).trans hun
    · have hmem : (j.record, j.kind) ∈ i.fanoutQueue.map fun j => (j.record, j.kind) := by
        rw [← hi.jobs]
        exact List.mem_map_of_mem hj
      obtain ⟨k, hk, he⟩ := List.mem_map.1 hmem
      exact hjobs k hk ((Prod.mk.inj he).1.trans hjid)
  counters := by
    rw [hi.entityRefs, hi.entities]
    exact h.counters

/-! ## The same rows -/

/-- **The same derived rows**, in some order; of the queue, the same jobs. -/
structure SameDerived (i i' : Tables) : Prop where
  records : i.records.Perm i'.records
  attrs : i.attrs.Perm i'.attrs
  entityRefs : i.entityRefs.Perm i'.entityRefs
  subjects : i.subjects.Perm i'.subjects
  entities : i.entities.Perm i'.entities
  jobs : (i.fanoutQueue.map fun j => (j.record, j.kind)).Perm
    (i'.fanoutQueue.map fun j => (j.record, j.kind))

theorem SameDerived.queue {j i' : Tables} (h : SameDerived i j) (hj : SameJobs j i') :
    SameDerived i i' := by
  refine ⟨?_, ?_, ?_, ?_, ?_, ?_⟩
  · rw [hj.records]
    exact h.records
  · rw [hj.attrs]
    exact h.attrs
  · rw [hj.entityRefs]
    exact h.entityRefs
  · rw [hj.subjects]
    exact h.subjects
  · rw [hj.entities]
    exact h.entities
  · rw [hj.jobs]
    exact h.jobs

/-- Lists that agree row by row on each value of a column have the same rows. -/
theorem perm_of_filter {α κ : Type} [DecidableEq α] [DecidableEq κ] (column : α → κ) {l l' : List α}
    (h : ∀ k, (l.filter fun a => column a = k) = l'.filter fun a => column a = k) : l.Perm l' := by
  rw [List.perm_iff_count]
  intro a
  have hcount : ∀ m : List α, (m.filter fun b => column b = column a).count a = m.count a :=
    fun m => List.count_filter (by simp)
  rw [← hcount l, ← hcount l', h]

/-- The least of some times is one of them, and below the others. -/
theorem foldl_min_spec (t : ℤ) (ts : List ℤ) :
    ts.foldl min t ∈ t :: ts ∧ ∀ x ∈ t :: ts, ts.foldl min t ≤ x := by
  induction ts generalizing t with
  | nil => simp
  | cons u ts ih =>
    obtain ⟨hm, hle⟩ := ih (min t u)
    rw [List.foldl_cons]
    have hmin := hle (min t u) List.mem_cons_self
    constructor
    · rcases List.mem_cons.1 hm with h | h
      · rw [h]
        rcases min_choice t u with h | h <;> simp [h]
      · simp [h]
    · intro x hx
      simp only [List.mem_cons] at hx
      rcases hx with rfl | rfl | hx
      · exact hmin.trans (min_le_left _ _)
      · exact hmin.trans (min_le_right _ _)
      · exact hle x (List.mem_cons_of_mem _ hx)

theorem foldl_max_spec (t : ℤ) (ts : List ℤ) :
    ts.foldl max t ∈ t :: ts ∧ ∀ x ∈ t :: ts, x ≤ ts.foldl max t := by
  induction ts generalizing t with
  | nil => simp
  | cons u ts ih =>
    obtain ⟨hm, hle⟩ := ih (max t u)
    rw [List.foldl_cons]
    have hmax := hle (max t u) List.mem_cons_self
    constructor
    · rcases List.mem_cons.1 hm with h | h
      · rw [h]
        rcases max_choice t u with h | h <;> simp [h]
      · simp [h]
    · intro x hx
      simp only [List.mem_cons] at hx
      rcases hx with rfl | rfl | hx
      · exact (le_max_left _ _).trans hmax
      · exact (le_max_right _ _).trans hmax
      · exact hle x (List.mem_cons_of_mem _ hx)

/-- The count of an entity's references does not depend on their order. -/
theorem aggregate_perm {refs refs' : List EntityRow} (h : refs.Perm refs') (kind entityId : Text) :
    aggregate kind entityId refs = aggregate kind entityId refs' := by
  have hperm := (h.filter fun r => r.kind = kind ∧ r.entityId = entityId).map (·.receivedMs)
  unfold aggregate
  cases hl : (refs.filter fun r => r.kind = kind ∧ r.entityId = entityId).map (·.receivedMs) with
  | nil =>
    rw [hl] at hperm
    rw [List.nil_perm.1 hperm]
  | cons t ts =>
    rw [hl] at hperm
    cases hl' : (refs'.filter fun r => r.kind = kind ∧ r.entityId = entityId).map (·.receivedMs) with
    | nil =>
      rw [hl'] at hperm
      exact absurd hperm.length_eq (by simp)
    | cons t' ts' =>
      rw [hl'] at hperm
      obtain ⟨m1, m2⟩ := foldl_min_spec t ts
      obtain ⟨m1', m2'⟩ := foldl_min_spec t' ts'
      obtain ⟨x1, x2⟩ := foldl_max_spec t ts
      obtain ⟨x1', x2'⟩ := foldl_max_spec t' ts'
      have hmin : ts.foldl min t = ts'.foldl min t' :=
        le_antisymm (m2 _ (hperm.mem_iff.2 m1')) (m2' _ (hperm.mem_iff.1 m1))
      have hmax : ts.foldl max t = ts'.foldl max t' :=
        le_antisymm (x2' _ (hperm.mem_iff.1 x1)) (x2 _ (hperm.mem_iff.2 x1'))
      have hlen : ts.length = ts'.length := by simpa using hperm.length_eq
      simp only [hmin, hmax, hlen]

/-- **Indexes that project their frontmatter and hold the same about each record have
    the same rows.** -/
theorem sameDerived_of_entries {i i' : Tables} (h : Projects i) (h' : Projects i')
    (he : ∀ id, i.entry id = i'.entry id) : SameDerived i i' := by
  have hrecords : i.records.Perm i'.records :=
    perm_of_filter RecordRow.recordId fun id => congrArg Entry.records (he id)
  have hrefs : i.entityRefs.Perm i'.entityRefs :=
    perm_of_filter EntityRow.record fun id => congrArg Entry.entityRefs (he id)
  refine ⟨hrecords, perm_of_filter AttrRow.record fun id => congrArg Entry.attrs (he id), hrefs,
    perm_of_filter SubjectRow.record fun id => congrArg Entry.subjects (he id), ?_, ?_⟩
  · refine perm_of_filter (fun r => (r.kind, r.entityId)) fun k => ?_
    simp only [Prod.ext_iff]
    rw [h.counters k.1 k.2, h'.counters k.1 k.2, aggregate_perm hrefs]
  · refine perm_of_filter Prod.fst fun id => ?_
    have hpairs : ∀ j : Tables, ((j.fanoutQueue.map fun r => (r.record, r.kind)).filter
        fun k => k.1 = id) = ((j.fanoutQueue.filter fun r => r.record = id).map (·.kind)).map
          fun kind => (id, kind) := by
      intro j
      rw [List.filter_map, List.map_map]
      refine List.map_congr_left fun r hr => ?_
      have hrid : r.record = id := by simpa using (List.mem_filter.1 hr).2
      simp [hrid]
    rw [hpairs, hpairs]
    congr 1
    by_cases hrow : ∃ row ∈ i.records, row.recordId = id
    · obtain ⟨row, hrow, rfl⟩ := hrow
      rw [h.jobs row hrow, h'.jobs row (hrecords.mem_iff.1 hrow)]
    · have hno : ∀ row ∈ i.records, row.recordId ≠ id := by simpa using hrow
      have hno' : ∀ row ∈ i'.records, row.recordId ≠ id :=
        fun row hr => hno row (hrecords.mem_iff.2 hr)
      have hnil : ∀ j : Tables, (∀ r ∈ j.fanoutQueue, r.record ≠ id) →
          (j.fanoutQueue.filter fun r => r.record = id) = [] := fun j hj => by simpa using hj
      rw [hnil i (h.owned id hno).2, hnil i' (h'.owned id hno').2]

end Yaam.Index
