/-
  The index over runs of writes, sweeps and rebuilds: every derived row projects the
  frontmatter that is stored.

  * `Derived` says that of an index, and that each of its records is one document's;
  * `StoreStep.reads` is the documents that a step may index, `StoreStep.Unambiguous`
    that no two of them, and no stored row, differ under one identifier;
  * `rows_project_frontmatter`: a run of unambiguous steps keeps the index derived.
-/
import Yaam.Core.Documents
import Yaam.Core.Resolve
import Yaam.Index.Projection

namespace Yaam.Core

open Text Contract Crypto Md Eff Index

/-- **An index derived from documents**: its rows project the stored frontmatter, and
    the frontmatter and body of each record are those of one document. -/
structure Derived (D : Document → Prop) (i : Tables) : Prop where
  projects : Projects i
  source : ∀ row ∈ i.records, ∃ d, D d ∧ recordRow d.record d.searchableText = .ok row

/-- The stored frontmatter of each identifier is that of the documents. -/
def AgreesWith (D : Document → Prop) (i : Tables) : Prop :=
  ∀ row ∈ i.records, ∀ d, D d → d.record.recordId = row.recordId → row.frontmatter = d.record.bare

/-- No two of the documents differ in their frontmatter under one identifier. -/
def OneContent (D : Document → Prop) : Prop :=
  ∀ d d', D d → D d' → d.record.recordId = d'.record.recordId → d.record.bare = d'.record.bare

variable {P : Pipeline} {env : Env} {D : Document → Prop} {i : Tables} {d : Document}

theorem Derived.mono {D' : Document → Prop} (h : Derived D i) (hD : ∀ d, D d → D' d) :
    Derived D' i :=
  ⟨h.projects, fun row hrow => (h.source row hrow).imp fun d hd => ⟨hD d hd.1, hd.2⟩⟩

theorem Derived.queue {i' : Tables} (h : Derived D i) (hi : SameJobs i i') : Derived D i' :=
  ⟨h.projects.queue hi, by rw [hi.records]; exact h.source⟩

/-- **Indexing a document keeps the index derived**, when a row its identifier has
    stores its frontmatter. -/
theorem Derived.published {row : RecordRow} {ms : ℤ} (h : Derived D i) (hd : D d)
    (hv : d.record.validate = .ok ())
    (hagree : ∀ old ∈ i.records, old.recordId = d.record.recordId →
      old.frontmatter = d.record.bare)
    (hrow : Publishable (publishInput d) row)
    (hms : receivedMsOf d.record.recordId (insertRecord row i.records) = some ms) :
    Derived D (published (publishInput d) row ms i) := by
  have hone : d.record.subjects.length ≤ 1 := (ActionRecord.validate_ok_iff.1 hv).2.2.2.2.1
  refine ⟨h.projects.published hone hrow.row hms hagree, fun r hr => ?_⟩
  rcases insertRecord_cases (recordRow_ok hrow.row).1 h.projects.oneRow hms with
    ⟨-, -, -, hsame, -⟩ | ⟨-, happ, -⟩
  · replace hr : r ∈ insertRecord row i.records := hr
    exact h.source r (by rwa [← hsame])
  · replace hr : r ∈ insertRecord row i.records := hr
    rw [happ] at hr
    rcases List.mem_append.1 hr with hr | hr
    · exact h.source r hr
    · rw [List.mem_singleton.1 hr]
      exact ⟨d, hd, hrow.row⟩

/-- The rows of the other documents agree still. -/
theorem AgreesWith.published {row : RecordRow} {ms : ℤ} (h : AgreesWith D i)
    (hone : OneContent D) (hd : D d) (hrow : Publishable (publishInput d) row) :
    AgreesWith D (published (publishInput d) row ms i) := by
  obtain ⟨hid, -, hfront, -⟩ := recordRow_ok hrow.row
  intro r hr d' hd' hid'
  rcases mem_upsert (show r ∈ insertRecord row i.records from hr) with rfl | hr | ⟨z, hz, -, rfl⟩
  · rw [hfront]
    exact hone d d' hd hd' (hid.symm.trans hid'.symm)
  · exact h r hr d' hd' hid'
  · exact h r hz d' hd' hid'

/-! ## Steps -/

/-- A write, a sweep or a rebuild. -/
inductive StoreStep where
  | accept (env : Env) (r : ActionRecord) (body : Text)
  | sweep (env : Env)
  | reindex (env : Env)

def StoreStep.run (P : Pipeline) (σ : Store) : StoreStep → Store
  | .accept env r body => (Core.accept P env r body σ).2
  | .sweep env => (Core.sweep P env σ).2
  | .reindex env => (reindexAll P env σ).2

/-- A record of a cold manifest, which has no body. -/
def ManifestDoc (P : Pipeline) (σ : Store) (d : Document) : Prop :=
  ∃ p text l r, σ.cold.readToString p = .ok text ∧ l ∈ lines text ∧ manifestRecord P l = .ok r ∧
    d = ⟨r, .plain []⟩

/-- The documents a step may index: what the write admits; what stands in the tree and
    in staging; what a replay leaves in the tree, and the manifests. -/
def StoreStep.reads (P : Pipeline) (σ : Store) : StoreStep → Document → Prop
  | .accept _ r body => fun d => ∃ st, Admitted P r body σ d st
  | .sweep _ => fun d => FileDoc P σ.records d ∨ FileDoc P σ.staging d
  | .reindex _ => fun d => Replayable P σ d ∨ ManifestDoc P σ d

/-- The frontmatter a record is presented with: as validated, under its subjects. -/
def Presents (P : Pipeline) (r : ActionRecord) (body : Text) (f : ActionRecord) : Prop :=
  ∃ r' subjects, validated P r body = .ok r' ∧ P.resolver r' = .resolved subjects ∧
    f = ({ r' with subjects } : ActionRecord).bare

/-- **No two documents differ under one identifier** where the step could index both:
    a write is a duplicate or presents what is stored; what a sweep finds agrees with
    itself and with the stored rows; what a rebuild finds agrees with itself. -/
def StoreStep.Unambiguous (P : Pipeline) (σ : Store) : StoreStep → Prop
  | .accept _ r body => (∃ dest, destination r = .ok dest ∧ dest ∈ σ.records) ∨
      ∀ old ∈ σ.index.records, old.recordId = r.recordId →
        ∀ f, Presents P r body f → old.frontmatter = f
  | a@(.sweep _) => OneContent (a.reads P σ) ∧ AgreesWith (a.reads P σ) σ.index
  | a@(.reindex _) => OneContent (a.reads P σ)

/-! ## Writes -/

variable {σ : Store}

theorem Admitted.valid {r : ActionRecord} {body : Text} {st : Stamp}
    (h : Admitted P r body σ d st) : d.record.validate = .ok () := by
  obtain ⟨r', ss, hval, -, hcheck, hrec, -⟩ := h.record
  rw [hrec]
  exact (validated_ok hval).resolved hcheck

theorem Admitted.presents {r : ActionRecord} {body : Text} {st : Stamp}
    (h : Admitted P r body σ d st) : Presents P r body d.record.bare := by
  obtain ⟨r', ss, hval, hres, -, hrec, -⟩ := h.record
  exact ⟨r', ss, hval, hres, by rw [hrec]⟩

theorem sameJobs_quarantine (f : List PendingRow → List PendingRow) (i : Tables) :
    SameJobs i { i with quarantinePending := f i.quarantinePending } :=
  ⟨rfl, rfl, rfl, rfl, rfl, rfl⟩

/-- A sweep's reclaim keeps every job. -/
theorem sameJobs_reclaim (cutoff : ℤ) (i : Tables) :
    SameJobs i (Index.reclaimStaleFanout cutoff i).2 := by
  refine ⟨rfl, rfl, rfl, rfl, rfl, ?_⟩
  show (i.fanoutQueue.map _).map _ = _
  rw [List.map_map]
  refine List.map_congr_left fun j _ => ?_
  show ((j.reclaim _).record, (j.reclaim _).kind) = _
  unfold JobRow.reclaim
  split_ifs <;> rfl

theorem Derived.accept {env : Env} {r : ActionRecord} {body : Text} (h : Derived D σ.index)
    (hD : ∀ d, (StoreStep.accept env r body).reads P σ d → D d)
    (hone : (StoreStep.accept env r body).Unambiguous P σ) :
    Derived D (Core.accept P env r body σ).2.index := by
  have hstep := accept_step P env r body σ
  generalize (Core.accept P env r body σ).1 = res at hstep
  generalize (Core.accept P env r body σ).2 = σ' at hstep
  cases hstep with
  | duplicate => exact h
  | refused e _ hkeys =>
    obtain ⟨t, rfl, -⟩ := hkeys
    exact h
  | held r' st block σ₁ _ _ hkeys =>
    obtain ⟨t, rfl, -⟩ := hkeys
    exact h.queue (sameJobs_quarantine _ _)
  | unindexed d st dest σ₁ e as_ hkeys =>
    obtain ⟨t, rfl, -⟩ := hkeys
    exact h
  | stored d st dest σ₁ row ms as_ hkeys hdest hfresh hrow hms =>
    obtain ⟨t, rfl, -⟩ := hkeys
    obtain ⟨-, -, -, -, -, hid⟩ := as_.dest
    refine (h.published (hD d ⟨st, as_⟩) as_.valid (fun old hold hoid => ?_) hrow hms).queue
      (sameJobs_quarantine _ _)
    rcases hone with ⟨dest', hd', hmem⟩ | hrows
    · rw [hdest] at hd'
      cases hd'
      exact absurd hmem hfresh
    · exact hrows old hold (hoid.trans hid) _ as_.presents

/-! ## Sweeps -/

/-- What a sweep keeps: an index derived from what it reads, and no other documents in
    the tree or in staging. -/
structure Swept (P : Pipeline) (D reads : Document → Prop) (σ : Store) : Prop where
  derived : Derived D σ.index
  agrees : AgreesWith reads σ.index
  records : ∀ d, FileDoc P σ.records d → reads d
  staging : ∀ d, FileDoc P σ.staging d → reads d

variable {reads : Document → Prop}

theorem commit_swept (hone : OneContent reads) (hD : ∀ d, reads d → D d) (hd : reads d)
    (hv : d.record.validate = .ok ()) : Keeps (Swept P D reads) (commit d) := by
  intro s hs
  rcases commit_cases d s with ⟨row, ms, hrow, hms, hc⟩ | ⟨-, e, hc⟩
  · rw [hc]
    refine ⟨hs.derived.published (hD d hd) hv (fun old hold hid => ?_) hrow hms,
      hs.agrees.published hone hd hrow, hs.records, hs.staging⟩
    exact hs.agrees old hold d hd hid.symm
  · rw [hc]
    exact hs

theorem publishedPath_ext {r : ActionRecord} {st : Stamp} {p : Path}
    (h : publishedPath r st = .ok p) : extension p = some recordExt := by
  obtain ⟨dir, rfl⟩ := publishedPath_ok h
  exact extension_recordFile dir r.recordId

theorem redriveDocument_swept (hone : OneContent reads) (hD : ∀ d, reads d → D d) {p : Path}
    (hp : extension p = some recordExt) (hd : reads d) (hv : d.record.validate = .ok ()) :
    Keeps (Swept P D reads) (redriveDocument P p d) := by
  refine (Keeps.ofExcept _).bind fun st => ?_
  cases hdest : publishedPath d.record st with
  | error e => exact Keeps.fail _
  | ok dest =>
    rw [ofExcept_ok_bind]
    refine Keeps.state_bind fun s hs => ?_
    split_ifs with hmem
    · -- the published file is authoritative
      refine keeps_readFile_bind (fun u text hu hread => ?_) s hs
      cases hparse : Document.parse P.yaml text with
      | error e => exact hu
      | ok published =>
        have hdoc := FileDoc.of_read (publishedPath_ext hdest) hread hparse
        refine Keeps.bind (commit_swept hone hD (hu.records _ hdoc) hdoc.valid) (fun _ => ?_) u hu
        exact Keeps.change fun v hv => ⟨hv.derived, hv.agrees, hv.records,
          fun d h => hv.staging d h.erase⟩
    · have hplace : Keeps (Swept P D reads) (place d p st) := by
        unfold place
        rw [hdest, ofExcept_ok_bind]
        refine Keeps.state_bind fun u hu => ?_
        unfold Tree.rename
        cases hf : u.staging.lookup p with
        | none =>
          dsimp only
          split_ifs
          · exact hu
          · exact hu
        | some f =>
          refine ⟨hu.derived, hu.agrees, fun d' h => ?_, fun d' h => hu.staging d' h.erase⟩
          rcases h.insert with h | h
          · exact hu.records d' h
          · exact hu.staging d' ⟨p, f, hp, hf, h⟩
      exact hplace.bind (fun _ => commit_swept hone hD hd hv) s hs

theorem redriveFile_swept (hone : OneContent reads) (hD : ∀ d, reads d → D d) (n : ℕ) {p : Path}
    (hp : extension p = some recordExt) : Keeps (Swept P D reads) (redriveFile P n p) := by
  refine keeps_readFile_bind fun s text hs hread => ?_
  cases hparse : Document.parse P.yaml text with
  | error e =>
    have hset : Keeps (Swept P D reads) (setAside p) := by
      refine Keeps.state_bind fun u hu => ?_
      unfold Tree.rename
      cases u.staging.lookup p with
      | none => exact hu
      | some f => exact ⟨hu.derived, hu.agrees, hu.records, fun d h => hu.staging d h.erase⟩
    exact hset.bind (fun _ => Keeps.pure _) s hs
  | ok d =>
    have hdoc := FileDoc.of_read hp hread hparse
    exact (redriveDocument_swept hone hD hp (hs.staging d hdoc) hdoc.valid).bind
      (fun _ => Keeps.pure _) s hs

theorem indexUnindexed_swept (hone : OneContent reads) (hD : ∀ d, reads d → D d) (n : ℕ) {p : Path}
    (hp : extension p = some recordExt) : Keeps (Swept P D reads) (indexUnindexed P n p) := by
  refine keeps_readFile_bind fun s text hs hread => ?_
  cases hparse : Document.parse P.yaml text with
  | error e => exact hs
  | ok d =>
    have hdoc := FileDoc.of_read hp hread hparse
    exact (commit_swept hone hD (hs.records d hdoc) hdoc.valid).bind (fun _ => Keeps.pure _) s hs

/-- **A sweep keeps the index derived.** -/
theorem sweep_swept (hone : OneContent reads) (hD : ∀ d, reads d → D d) :
    Keeps (Swept P D reads) (sweep P env) := by
  have hstaging : Keeps (Swept P D reads) (redriveStaging P env) :=
    Keeps.state_bind fun s hs => Keeps.foldlM (fun n p hp =>
      redriveFile_swept hone hD n (Tree.mem_walkFiles.1 (List.mem_filter.1 hp).1).2) 0 s hs
  have htree : Keeps (Swept P D reads) (indexTheUnindexed P env) :=
    Keeps.state_bind fun s hs => Keeps.foldlM (fun n p hp =>
      indexUnindexed_swept hone hD n (Tree.mem_walkFiles.1 (List.mem_filter.1 hp).1).2) 0 s hs
  have hheads : Keeps (Swept P D reads) (repairTimelineHeads env) :=
    fun s hs => ⟨hs.derived, hs.agrees, hs.records, hs.staging⟩
  have hclaims : Keeps (Swept P D reads) (reclaimFanout env) := by
    intro s hs
    exact ⟨hs.derived.queue (sameJobs_reclaim _ _), hs.agrees, hs.records, hs.staging⟩
  exact hstaging.bind fun _ => htree.bind fun _ => hheads.bind fun _ => hclaims.bind fun _ =>
    Keeps.pure _

/-! ## Rebuilds -/

/-- What a rebuild's transaction keeps while it goes well. -/
structure Rebuilt (P : Pipeline) (D reads : Document → Prop) (cold : Tree) (σ : Store) : Prop where
  derived : Derived D σ.index
  agrees : AgreesWith reads σ.index
  records : ∀ d, FileDoc P σ.records d → reads d
  cold : σ.cold = cold

/-- Failure undoes a rebuild: nothing is left to keep. -/
def Undone : Error → Store → Prop := fun _ _ => True

variable {cold : Tree}

theorem inBatch_rebuilt (hone : OneContent reads) (hD : ∀ d, reads d → D d) (hd : reads d)
    (hv : d.record.validate = .ok ()) :
    Triple (Rebuilt P D reads cold) (inBatch (publishDocument d)) (fun _ => Rebuilt P D reads cold)
      Undone := by
  refine Triple.of_cases (fun s s' u hs hx => ?_) fun _ _ _ _ _ => trivial
  obtain ⟨j, hj, rfl⟩ := zoom_eq_ok.1 hx
  obtain ⟨row, ms, hrow, hms, rfl⟩ := publish_eq_ok.1 (mapError_eq_ok.1 hj)
  refine ⟨hs.derived.published (hD d hd) hv (fun old hold hid => ?_) hrow hms,
    hs.agrees.published hone hd hrow, hs.records, hs.cold⟩
  exact hs.agrees old hold d hd hid.symm

theorem readFile_triple {dir : Store → Tree} {p : Path} {I : Store → Prop} :
    Triple I (readFile dir p) (fun text s => I s ∧ (dir s).readToString p = .ok text) Undone := by
  intro s hs
  rw [readFile, state_bind]
  cases hread : (dir s).readToString p with
  | ok text => exact ⟨hs, hread⟩
  | error e => trivial

theorem indexFile_rebuilt (hone : OneContent reads) (hD : ∀ d, reads d → D d) (n : ℕ × ℕ) {p : Path}
    (hp : extension p = some recordExt) :
    Triple (Rebuilt P D reads cold) (indexFile P n p) (fun _ => Rebuilt P D reads cold) Undone := by
  refine readFile_triple.bind fun text => ?_
  cases hparse : Document.parse P.yaml text with
  | error e => exact Triple.pure fun s hs => hs.1
  | ok d =>
    rintro s ⟨hs, hread⟩
    have hdoc := FileDoc.of_read hp hread hparse
    have hpub : Triple (Rebuilt P D reads cold)
        (inBatch (publishDocument d) >>= fun _ => (Pure.pure (n.1 + 1, n.2) : StoreM (ℕ × ℕ)))
        (fun _ => Rebuilt P D reads cold) Undone :=
      (inBatch_rebuilt hone hD (hs.records d hdoc) hdoc.valid).bind fun _ => Triple.pure fun _ h => h
    exact hpub s hs

theorem indexManifest_rebuilt (hone : OneContent reads) (hD : ∀ d, reads d → D d)
    (hcold : ∀ p text l r, cold.readToString p = .ok text → l ∈ lines text →
      manifestRecord P l = .ok r → reads ⟨r, .plain []⟩) (n : ℕ × ℕ) (p : Path) :
    Triple (Rebuilt P D reads cold) (indexManifest P n p) (fun _ => Rebuilt P D reads cold)
      Undone := by
  refine readFile_triple.bind fun text => ?_
  rintro s ⟨hs, hread⟩
  have hline : ∀ (n : ℕ × ℕ), ∀ l ∈ (lines text).filter fun l => trim l ≠ [],
      Triple (Rebuilt P D reads cold) (indexLine P n l) (fun _ => Rebuilt P D reads cold) Undone := by
    intro n l hl
    unfold indexLine
    cases hr : manifestRecord P l with
    | error e => exact Triple.pure fun _ h => h
    | ok r =>
      have hv : r.validate = .ok () := by
        unfold manifestRecord at hr
        split at hr
        · cases hr
        · split at hr
          · cases hr
          · cases hr
            assumption
      have hreads : reads ⟨r, .plain []⟩ :=
        hcold p text l r (hs.cold ▸ hread) (List.mem_filter.1 hl).1 hr
      exact (inBatch_rebuilt hone hD hreads hv).bind fun _ => Triple.pure fun _ h => h
  exact Triple.foldlM hline n s hs

theorem reregisterFile_rebuilt (p : Path) :
    Triple (Rebuilt P D reads cold) (reregisterFile P env p) (fun _ => Rebuilt P D reads cold)
      Undone := by
  refine readFile_triple.bind fun text => ?_
  cases Document.parse P.yaml text with
  | error e => exact Triple.pure fun s hs => hs.1
  | ok d =>
    refine Triple.of_cases (fun s s' u hs hx => ?_) fun _ _ _ _ _ => trivial
    obtain ⟨st, s₁, h1, hx⟩ := bind_eq_ok.1 hx
    obtain ⟨-, rfl⟩ := ofExcept_eq_ok.1 h1
    obtain ⟨j, hj, rfl⟩ := zoom_eq_ok.1 hx
    obtain rfl := change_eq_ok.1 (mapError_eq_ok.1 hj)
    exact ⟨hs.1.derived.queue (sameJobs_quarantine _ _), hs.1.agrees, hs.1.records, hs.1.cold⟩

/-- **A rebuild leaves the index derived**, whether it goes through or is undone. -/
theorem rebuild_derived (hone : OneContent reads) (hD : ∀ d, reads d → D d) (n : ℕ) (σ : Store)
    (hold : Derived D σ.index) (hrecords : ∀ d, FileDoc P σ.records d → reads d)
    (hcold : ∀ d, ManifestDoc P σ d → reads d) :
    Derived D (rebuild P env n (Sources.list P σ) σ).2.index := by
  have hbody : Triple (Rebuilt P D reads σ.cold) (do
      let dropped ← dropTimelines
      let tree ← (Sources.list P σ).tree.foldlM (indexFile P) (0, 0)
      let manifests ← (Sources.list P σ).manifests.foldlM (indexManifest P) (0, 0)
      forM (Sources.list P σ).quarantine (reregisterFile P env)
      return (⟨tree.1, manifests.1, tree.2 + manifests.2, n, dropped⟩ : ReindexReport))
      (fun _ => Rebuilt P D reads σ.cold) Undone := by
    have hdrop : Triple (Rebuilt P D reads σ.cold) dropTimelines
        (fun _ => Rebuilt P D reads σ.cold) Undone :=
      fun s hs => ⟨hs.derived, hs.agrees, hs.records, hs.cold⟩
    refine hdrop.bind fun dropped => ?_
    refine (Triple.foldlM (fun n p hp => indexFile_rebuilt hone hD n ?_) (0, 0)).bind fun tree => ?_
    · exact (Tree.mem_walkFiles.1 ((List.mem_insertionSort _).1 hp)).2
    refine (Triple.foldlM (fun n p _ => indexManifest_rebuilt hone hD ?_ n p) (0, 0)).bind
      fun manifests => ?_
    · exact fun p text l r h1 h2 h3 => hcold _ ⟨p, text, l, r, h1, h2, h3, rfl⟩
    exact (Triple.forM fun p _ => reregisterFile_rebuilt p).bind fun _ => Triple.pure fun _ h => h
  have hempty : Rebuilt P D reads σ.cold { σ with index := .empty } :=
    ⟨⟨Projects.empty, fun row hrow => absurd hrow List.not_mem_nil⟩,
      fun row hrow => absurd hrow List.not_mem_nil, hrecords, rfl⟩
  have hrun := hbody _ hempty
  unfold rebuild
  have htrunc : (inBatch (change truncateDerived) : StoreM Unit) σ =
      (.ok (), { σ with index := .empty }) := rfl
  unfold transaction
  rw [bind_of_ok htrunc]
  split
  · rename_i heq
    rw [heq] at hrun
    exact hrun.derived
  · exact hold

/-- **A rebuild of the index, with the replay before it, leaves it derived.** -/
theorem Derived.reindexAll (hY : P.yaml.Inverts) {env : Env} (h : Derived D σ.index)
    (hD : ∀ d, (StoreStep.reindex env).reads P σ d → D d)
    (hone : (StoreStep.reindex env).Unambiguous P σ) :
    Derived D (Core.reindexAll P env σ).2.index := by
  have hrep := replayTombstones_replayed hY env σ
  unfold Core.reindexAll
  cases hx : replayTombstones P env σ with
  | mk res σ₁ =>
    rw [hx] at hrep
    cases res with
    | error e =>
      rw [bind_of_error hx, hrep.index]
      exact h
    | ok n =>
      rw [bind_of_ok hx, state_bind]
      refine rebuild_derived hone hD n σ₁ ?_ (fun d hd => .inl (hrep.records d hd)) fun d hd => .inr ?_
      · rw [hrep.index]
        exact h
      · obtain ⟨p, text, l, r, h1, h2, h3, h4⟩ := hd
        exact ⟨p, text, l, r, hrep.cold ▸ h1, h2, h3, h4⟩

/-! ## Runs -/

def StoreStep.runAll (P : Pipeline) : Store → List StoreStep → Store
  | σ, [] => σ
  | σ, a :: as => runAll P (a.run P σ) as

/-- Every step of a run is unambiguous where it happens. -/
def StoreStep.AllUnambiguous (P : Pipeline) : Store → List StoreStep → Prop
  | _, [] => True
  | σ, a :: as => a.Unambiguous P σ ∧ AllUnambiguous P (a.run P σ) as

/-- The documents that some step of a run may index. -/
def StoreStep.Seen (P : Pipeline) : Store → List StoreStep → Document → Prop
  | _, [], _ => False
  | σ, a :: as, d => a.reads P σ d ∨ Seen P (a.run P σ) as d

theorem Derived.step (hY : P.yaml.Inverts) (h : Derived D σ.index) {a : StoreStep}
    (hD : ∀ d, a.reads P σ d → D d) (hone : a.Unambiguous P σ) : Derived D (a.run P σ).index := by
  cases a with
  | accept env r body => exact h.accept hD hone
  | sweep env =>
    exact (sweep_swept hone.1 hD σ ⟨h, hone.2, fun d hd => .inl hd, fun d hd => .inr hd⟩).derived
  | reindex env => exact h.reindexAll hY hD hone

theorem Derived.run (hY : P.yaml.Inverts) (h : Derived D σ.index) {as : List StoreStep}
    (hone : StoreStep.AllUnambiguous P σ as) :
    Derived (fun d => D d ∨ StoreStep.Seen P σ as d) (StoreStep.runAll P σ as).index := by
  induction as generalizing σ D with
  | nil => exact h.mono fun d hd => .inl hd
  | cons a as ih =>
    have hstep := (h.mono fun d hd => Or.inl hd).step hY (fun d hd => Or.inr hd) hone.1
    refine (ih hstep hone.2).mono fun d hd => ?_
    rcases hd with (hd | hd) | hd
    · exact .inl hd
    · exact .inr (.inl hd)
    · exact .inr (.inr hd)

/-- **Every index row projects the stored frontmatter**, after any run of writes, sweeps
    and rebuilds over any tree and manifests, when no step meets two contents under one
    identifier; and each record is stored with the body of its own document. -/
theorem rows_project_frontmatter (P : Pipeline) (hY : P.yaml.Inverts) (σ : Store)
    (hempty : σ.index = .empty) (as : List StoreStep) (hone : StoreStep.AllUnambiguous P σ as) :
    Projects (StoreStep.runAll P σ as).index ∧
      ∀ row ∈ (StoreStep.runAll P σ as).index.records, ∃ d, StoreStep.Seen P σ as d ∧
        row.frontmatter = d.record.bare ∧ row.body = d.searchableText := by
  have hstart : Derived (fun _ => False) σ.index := by
    rw [hempty]
    exact ⟨Projects.empty, fun row hrow => absurd hrow List.not_mem_nil⟩
  have hrun := hstart.run hY hone
  refine ⟨hrun.projects, fun row hrow => ?_⟩
  obtain ⟨d, hd, hdoc⟩ := hrun.source row hrow
  obtain ⟨-, hbody, hfront, -⟩ := recordRow_ok hdoc
  exact ⟨d, hd.resolve_left id, hfront, hbody⟩

section
set_option maxRecDepth 4000

/-- Two notes, written one after the other. -/
def twoNotes : List StoreStep :=
  [.accept (quietEnv 0) (plainRecord (ulid 'A' isCrockfordDigit_A) "2026-01-01T00:00:00Z".toList) "a".toList,
    .accept (quietEnv 1) (plainRecord (ulid 'B' isCrockfordDigit_B) "2026-01-02T00:00:00Z".toList) "b".toList]

theorem rows_project_frontmatter_two_notes :
    Projects (StoreStep.runAll (deployment declaredSubjects) emptyStore twoNotes).index := by
  have hone : StoreStep.AllUnambiguous (deployment declaredSubjects) emptyStore twoNotes := by
    refine ⟨.inr ?_, .inr ?_, trivial⟩
    · exact fun old hold => absurd hold List.not_mem_nil
    · intro old hold hid
      have hother : ∀ old ∈ (StoreStep.run (deployment declaredSubjects) emptyStore
          (.accept (quietEnv 0) (plainRecord (ulid 'A' (by decide)) "2026-01-01T00:00:00Z".toList)
            "a".toList)).index.records,
          old.recordId ≠ ulid 'B' (by decide) := by decide +kernel
      exact absurd hid (hother old hold)
  exact (rows_project_frontmatter _ Md.reader_inverts _ rfl _ hone).1

/-- The same identifier presented first for a note and, a day later, for a record of a
    subject. -/
def reusedIdentifier : List StoreStep :=
  [.accept (quietEnv 0) (plainRecord (ulid 'A' isCrockfordDigit_A) "2026-01-01T00:00:00Z".toList) [],
    .accept (quietEnv 1)
      (subjectRecord (ulid 'A' isCrockfordDigit_A) "2026-01-02T00:00:00Z".toList someSubject) []]

/-- **A record keeps its first frontmatter and gets the second's rows**: a note that names
    no subject is left with the row of one. -/
theorem reused_identifier_mixes_rows : ¬ ∀ (P : Pipeline) (σ : Store) (as : List StoreStep),
    P.yaml.Inverts → σ.index = .empty → Projects (StoreStep.runAll P σ as).index := by
  intro h
  have hproj := (h (deployment declaredSubjects) emptyStore reusedIdentifier Md.reader_inverts
    rfl).subjects
  revert hproj
  decide +kernel

end

end Yaam.Core
