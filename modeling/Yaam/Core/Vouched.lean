/-
  What the records of a store say, and who vouches for it.

  * `asSent` is what of a record nothing in the store works out;
  * `Vouched` says that it is vouched for, of every record that a store holds: in the tree,
    staged, held back, archived or indexed;
  * `accept_vouched`, `sweep_vouched`, `drainFanout_vouched`, `eraseSubject_vouched`: a
    write puts in what it was given, and every other operation only moves, empties and
    derives what is there.
-/
import Yaam.Core.Conforms
import Yaam.Core.Documents
import Yaam.Core.Frames

namespace Yaam.Core

open Text Contract Crypto Md Eff

/-- A record without its prose, its entities and its subjects, which the store settles. -/
def asSent (r : ActionRecord) : ActionRecord := { r with entities := [], subjects := [], summary := [] }

@[simp] theorem asSent_bare (r : ActionRecord) : asSent r.bare = asSent r := rfl

/-- Every record the store holds is one that `V` vouches for. -/
structure Vouched (P : Pipeline) (V : ActionRecord → Prop) (σ : Store) : Prop where
  records : ∀ d, FileDoc P σ.records d → V (asSent d.record)
  staging : ∀ d, FileDoc P σ.staging d → V (asSent d.record)
  quarantine : ∀ d, FileDoc P σ.quarantine d → V (asSent d.record)
  cold : ∀ p text, σ.cold.readToString p = .ok text → ∀ l ∈ lines text, ∀ r,
    manifestRecord P l = .ok r → V (asSent r)
  index : ∀ row ∈ σ.index.records, V (asSent row.frontmatter)

section
variable {P : Pipeline} {env : Env} {V : ActionRecord → Prop} {σ : Store} {d : Document}

/-! ## Documents written -/

theorem Vouched.empty (P : Pipeline) (V : ActionRecord → Prop) : Vouched P V emptyStore := by
  have hno : ∀ d, ¬ FileDoc P (∅ : Tree) d := by
    rintro d ⟨p, f, -, hf, -⟩
    simp at hf
  refine ⟨fun d h => absurd h (hno d), fun d h => absurd h (hno d), fun d h => absurd h (hno d),
    fun p text h => ?_, fun row h => absurd h List.not_mem_nil⟩
  obtain ⟨f, hf, -⟩ := Tree.readToString_ok.1 h
  simp [emptyStore] at hf

theorem Vouched.imp {V' : ActionRecord → Prop} (h : Vouched P V σ) (hV : ∀ v, V v → V' v) :
    Vouched P V' σ :=
  ⟨fun d hd => hV _ (h.records d hd), fun d hd => hV _ (h.staging d hd),
    fun d hd => hV _ (h.quarantine d hd), fun p text hread l hl r hr => hV _ (h.cold p text hread l hl r hr),
    fun row hrow => hV _ (h.index row hrow)⟩

/-- A document's record is its frontmatter's, but for its prose. -/
theorem parse_ok_bare {Y : Yaml} {t : Text} (h : Document.parse Y t = .ok d) :
    ∃ yaml body record, split t = .ok (yaml, body) ∧ Md.parse Y yaml = .ok record ∧
      d.record.bare = record.bare := by
  unfold Document.parse at h
  cases hsplit : split t with
  | error e => simp [hsplit] at h
  | ok parts =>
    obtain ⟨yaml, body⟩ := parts
    simp only [hsplit] at h
    cases hparse : Md.parse Y yaml with
    | error e => simp [hparse] at h
    | ok record =>
      simp only [hparse] at h
      refine ⟨yaml, body, record, rfl, hparse, ?_⟩
      split_ifs at h
      · split at h
        · cases h
        · cases h
          rfl
      · cases h
        rfl

/-- What a file reads back as, says what the document said that was written. -/
theorem carries_asSent (hY : P.yaml.Inverts) {d' : Document} {now : ℤ}
    (h : Carries P ⟨fileBytes P d, now⟩ d') : asSent d'.record = asSent d.record := by
  obtain ⟨text, ht, hd⟩ := h
  obtain rfl := Utf8.encode_inj ht
  obtain ⟨yaml, body, record, hsplit, hparse, hbare⟩ := parse_ok_bare hd
  rw [split_render] at hsplit
  obtain ⟨rfl, -⟩ := Prod.mk.inj (Except.ok.inj hsplit)
  have hrecord : record = d.record.bare := by
    unfold Md.parse at hparse
    rw [hY d.record] at hparse
    dsimp only at hparse
    split at hparse
    · cases hparse
    · exact (Except.ok.inj hparse).symm
  rw [← asSent_bare d'.record, hbare, hrecord]
  rfl

/-- A file of a document that is vouched for joins a directory of such. -/
theorem vouched_insert (hY : P.yaml.Inverts) {t : Tree} (ht : ∀ d, FileDoc P t d → V (asSent d.record))
    (hd : V (asSent d.record)) (p : Path) (now : ℤ) :
    ∀ d', FileDoc P (t.insert p ⟨fileBytes P d, now⟩) d' → V (asSent d'.record) := by
  intro d' h
  rcases h.insert with h | h
  · exact ht d' h
  · rw [carries_asSent hY h]
    exact hd

/-! ## The index -/

/-- The rows of an index are vouched for. -/
def VouchedRows (V : ActionRecord → Prop) (i : Index.Tables) : Prop :=
  ∀ row ∈ i.records, V (asSent row.frontmatter)

theorem vouchedRows_insertRecord {rows : List Index.RecordRow} {row : Index.RecordRow}
    (h : ∀ r ∈ rows, V (asSent r.frontmatter)) (hrow : V (asSent row.frontmatter)) :
    ∀ r ∈ Index.insertRecord row rows, V (asSent r.frontmatter) := by
  intro r hr
  rcases mem_upsert (show r ∈ upsert _ _ row rows from hr) with rfl | hr | ⟨z, hz, -, rfl⟩
  · exact hrow
  · exact h r hr
  · exact h r hz

theorem publish_vouched {inp : Index.PublishInput} (hinp : V (asSent inp.record)) :
    Keeps (VouchedRows V) (Index.publish inp) := by
  unfold Index.publish
  refine (Keeps.ofExcept _).bind fun _ => ?_
  cases hrow : Index.recordRow inp.record inp.searchableBody with
  | error e => exact Keeps.fail e
  | ok row =>
    rw [ofExcept_ok_bind]
    obtain ⟨-, -, hfront, -, -⟩ := Index.recordRow_ok hrow
    have hreceived : Keeps (VouchedRows V) (Index.queryReceivedMs inp.record.recordId) := by
      refine Keeps.state_bind fun i hi => ?_
      cases Index.receivedMsOf inp.record.recordId i.records <;> exact hi
    have hrest : ∀ f : Index.Tables → Index.Tables, (∀ i, (f i).records = i.records) →
        Keeps (VouchedRows V) (change f : Eff Index.Tables Index.Error Unit) := by
      intro f hf
      refine Keeps.change fun i hi => ?_
      rw [VouchedRows, hf]
      exact hi
    refine Keeps.bind (Keeps.change fun i hi => ?_) fun _ => hreceived.bind fun ms =>
      Keeps.bind (hrest _ ?_) fun _ => Keeps.bind (hrest _ ?_) fun _ => (Keeps.ofExcept _).bind fun _ =>
        Keeps.bind (hrest _ ?_) fun _ => hrest _ ?_
    · exact vouchedRows_insertRecord hi (by rw [hfront]; exact hinp)
    all_goals exact fun i => rfl

/-- A transaction on the index keeps the store vouched for when it keeps the rows so. -/
theorem indexed_vouched {α : Type} {x : Eff Index.Tables Index.Error α} (hx : Keeps (VouchedRows V) x) :
    Keeps (Vouched P V) (indexed x) := fun s hs =>
  ⟨hs.records, hs.staging, hs.quarantine, hs.cold, hx.atomically.mapError s.index hs.index⟩

theorem inBatch_vouched {α : Type} {x : Eff Index.Tables Index.Error α} (hx : Keeps (VouchedRows V) x) :
    Keeps (Vouched P V) (inBatch x) := fun s hs =>
  ⟨hs.records, hs.staging, hs.quarantine, hs.cold, hx.mapError s.index hs.index⟩

theorem commit_vouched (hd : V (asSent d.record)) : Keeps (Vouched P V) (commit d) :=
  indexed_vouched (publish_vouched hd)

/-! ## Writes -/

theorem validated_asSent {r r' : ActionRecord} {body : Text} (h : validated P r body = .ok r') :
    asSent r' = asSent r := by
  obtain ⟨es, -, rfl⟩ := (validated_spec h).rest
  rfl

theorem Admitted.asSent {r : ActionRecord} {body : Text} {st : Stamp} (h : Admitted P r body σ d st) :
    asSent d.record = asSent r := by
  obtain ⟨r', ss, hval, -, -, hrec, -⟩ := h.record
  rw [hrec, ← validated_asSent hval]
  rfl

theorem OnlyKeys.vouched {σ σ' : Store} (h : OnlyKeys σ σ') (hσ : Vouched P V σ) : Vouched P V σ' := by
  obtain ⟨t, rfl, -⟩ := h
  exact ⟨hσ.records, hσ.staging, hσ.quarantine, hσ.cold, hσ.index⟩

theorem placedIn_vouched (hY : P.yaml.Inverts) (hσ : Vouched P V σ) (hd : V (asSent d.record)) (dest : Path) :
    Vouched P V (placedIn P env d dest σ) where
  records := vouched_insert hY hσ.records hd _ _
  staging d' h := vouched_insert hY hσ.staging hd _ _ d' h.erase
  quarantine := hσ.quarantine
  cold := hσ.cold
  index := hσ.index

/-- **A write puts in what it was given.** -/
theorem accept_vouched (hY : P.yaml.Inverts) {r : ActionRecord} (hr : V (asSent r)) (body : Text) :
    Keeps (Vouched P V) (accept P env r body) := by
  intro σ hσ
  have hstep := accept_step P env r body σ
  generalize (accept P env r body σ).1 = res at hstep
  generalize (accept P env r body σ).2 = σ' at hstep
  cases hstep with
  | duplicate dest _ _ => exact hσ
  | refused e _ keys _ _ => exact keys.vouched hσ
  | held r' st block σ₁ _ hval keys _ _ =>
    have h₁ := keys.vouched hσ
    have hr' : V (asSent r') := by rwa [validated_asSent hval]
    exact ⟨h₁.records, h₁.staging, vouched_insert hY (d := ⟨r', .sealed block⟩) h₁.quarantine hr' _ _,
      h₁.cold, h₁.index⟩
  | unindexed d st dest σ₁ e has keys _ _ _ =>
    exact placedIn_vouched hY (keys.vouched hσ) (by rwa [has.asSent]) dest
  | stored d st dest σ₁ row ms has keys _ _ hpub _ =>
    have hd : V (Core.asSent d.record) := by rwa [has.asSent]
    have h₁ : Vouched P V (placedIn P env d dest σ₁) := placedIn_vouched hY (keys.vouched hσ) hd dest
    obtain ⟨-, -, hfront, -, -⟩ := Index.recordRow_ok hpub.row
    refine ⟨h₁.records, h₁.staging, fun d' h => h₁.quarantine d' h.erase, h₁.cold, ?_⟩
    have hσindex : VouchedRows V σ.index := hσ.index
    obtain ⟨t, rfl, -⟩ := keys
    exact vouchedRows_insertRecord hσindex (by rw [hfront]; exact hd)

/-! ## The fan-out and the sweep -/

theorem Vouched.drainFrame (P : Pipeline) (V : ActionRecord → Prop) : DrainFrame (Vouched P V) where
  entities _ _ h := ⟨h.records, h.staging, h.quarantine, h.cold, h.index⟩
  audit _ _ h := ⟨h.records, h.staging, h.quarantine, h.cold, h.index⟩
  mentions _ _ h := ⟨h.records, h.staging, h.quarantine, h.cold, h.index⟩
  deadLetter _ _ h := ⟨h.records, h.staging, h.quarantine, h.cold, h.index⟩
  queue _ _ _ h := ⟨h.records, h.staging, h.quarantine, h.cold, h.index⟩

theorem drainFanout_vouched (env : Env) (maxJobs : ℕ) : Keeps (Vouched P V) (drainFanout P env maxJobs) :=
  drainFanout_keeps (Vouched.drainFrame P V) P env maxJobs

theorem setAside_vouched (p : Path) : Keeps (Vouched P V) (setAside p) := by
  refine Keeps.state_bind fun s hs => ?_
  cases hr : s.staging.rename s.deadLetter p [p.getLast?.getD []] with
  | error e => exact hs
  | ok moved =>
    have hstaging : moved.1 = s.staging.erase p := by
      unfold Tree.rename at hr
      cases hf : s.staging.lookup p <;> rw [hf] at hr <;> simp at hr
      exact (congrArg Prod.fst hr).symm
    refine ⟨hs.records, fun d h => ?_, hs.quarantine, hs.cold, hs.index⟩
    have h' : FileDoc P moved.1 d := h
    rw [hstaging] at h'
    exact hs.staging d h'.erase

/-- A staged copy of a document that is vouched for is placed. -/
theorem place_vouched {st : Stamp} {p : Path} (hp : extension p = some recordExt) :
    Keeps (Vouched P V) (place d p st) := by
  refine (Keeps.ofExcept _).bind fun dest => Keeps.state_bind fun s hs => ?_
  unfold Tree.rename
  cases hf : s.staging.lookup p with
  | none =>
    dsimp only
    split_ifs <;> exact hs
  | some f =>
    refine ⟨fun d' h => ?_, fun d' h => hs.staging d' h.erase, hs.quarantine, hs.cold, hs.index⟩
    rcases h.insert with h | h
    · exact hs.records d' h
    · exact hs.staging d' ⟨p, f, hp, hf, h⟩

theorem redriveFile_vouched (n : ℕ) {p : Path} (hp : extension p = some recordExt) :
    Keeps (Vouched P V) (redriveFile P n p) := by
  refine keeps_readFile_bind fun s text hs hread => ?_
  cases hd : Document.parse P.yaml text with
  | error e => exact (setAside_vouched p).bind (fun _ => Keeps.pure _) s hs
  | ok d =>
    have hdoc : V (asSent d.record) := hs.staging d (FileDoc.of_read hp hread hd)
    have hredrive : Keeps (Vouched P V) (redriveDocument P p d) := by
      refine (Keeps.ofExcept _).bind fun st => ?_
      cases hdest : publishedPath d.record st with
      | error e => exact Keeps.fail _
      | ok dest =>
        rw [ofExcept_ok_bind]
        refine Keeps.state_bind fun s hs => ?_
        split_ifs
        · -- the published file is authoritative
          obtain ⟨dir, rfl⟩ := publishedPath_ok hdest
          refine keeps_readFile_bind (fun s text hs hread => ?_) s hs
          cases hpublished : Document.parse P.yaml text with
          | error e => exact hs
          | ok published =>
            have hpub := hs.records _ (FileDoc.of_read (extension_recordFile dir _) hread hpublished)
            refine (commit_vouched hpub).bind (fun _ => Keeps.change fun u hu => ?_) s hs
            exact ⟨hu.records, fun d' h => hu.staging d' h.erase, hu.quarantine, hu.cold, hu.index⟩
        · exact (place_vouched hp).bind (fun _ => commit_vouched hdoc) s hs
    exact hredrive.bind (fun _ => Keeps.pure _) s hs

theorem indexUnindexed_vouched (n : ℕ) {p : Path} (hp : extension p = some recordExt) :
    Keeps (Vouched P V) (indexUnindexed P n p) := by
  refine keeps_readFile_bind fun s text hs hread => ?_
  cases hd : Document.parse P.yaml text with
  | error e => exact hs
  | ok d =>
    have hdoc : V (asSent d.record) := hs.records d (FileDoc.of_read hp hread hd)
    exact (commit_vouched hdoc).bind (fun _ => Keeps.pure _) s hs

/-- **A sweep moves and indexes what is there.** -/
theorem sweep_vouched (env : Env) : Keeps (Vouched P V) (sweep P env) := by
  have hstaging : Keeps (Vouched P V) (redriveStaging P env) := by
    refine Keeps.state_bind fun s hs => Keeps.foldlM (fun n p hp => ?_) 0 s hs
    exact redriveFile_vouched n (Tree.mem_walkFiles.1 (List.mem_filter.1 hp).1).2
  have htree : Keeps (Vouched P V) (indexTheUnindexed P env) := by
    refine Keeps.state_bind fun s hs => Keeps.foldlM (fun n p hp => ?_) 0 s hs
    exact indexUnindexed_vouched n (Tree.mem_walkFiles.1 (List.mem_filter.1 hp).1).2
  have hheads : Keeps (Vouched P V) (repairTimelineHeads env) :=
    fun s hs => (Vouched.drainFrame P V).entities s _ hs
  have hclaims : Keeps (Vouched P V) (reclaimFanout env) :=
    indexed_vouched (Keeps.state.bind fun i => Keeps.bind (Keeps.change fun i hi => hi) fun _ => Keeps.pure _)
  exact hstaging.bind fun _ => htree.bind fun _ => hheads.bind fun _ => hclaims.bind fun _ =>
    Keeps.pure _

/-! ## Erasures -/

theorem dropBodies_vouched (hY : P.yaml.Inverts) (s : SubjectHash) :
    Keeps (Vouched P V) (dropBodies P env s) := by
  refine Keeps.state_bind fun σ hσ => Keeps.foldlM (fun n p hp => ?_) 0 σ hσ
  have hext : extension p = some recordExt := (Tree.mem_walkFiles.1 hp).2
  refine keeps_readFile_bind fun u text hu hread => ?_
  cases hd : Document.parse P.yaml text with
  | error e => exact hu
  | ok d =>
    have hdoc : FileDoc P u.records d := FileDoc.of_read hext hread hd
    dsimp only
    split_ifs
    · exact hu
    · refine ⟨fun d' h => ?_, hu.staging, hu.quarantine, hu.cold, hu.index⟩
      rcases h.replaceAtomically hext with h | h
      · exact hu.records d' h
      · rw [carries_structureOf hY hdoc.valid h]
        exact hu.records d hdoc

theorem sweepQuarantine_vouched (hY : P.yaml.Inverts) (s : SubjectHash) :
    Keeps (Vouched P V) (sweepQuarantine P env s) := by
  refine Keeps.state_bind fun σ hσ => Keeps.foldlM (fun n p hp => ?_) 0 σ hσ
  refine keeps_readFile_bind fun u text hu hread => ?_
  cases hd : Document.parse P.yaml text with
  | error e => exact hu
  | ok d =>
    have hdoc : V (asSent d.record) :=
      hu.quarantine d (FileDoc.of_read (Tree.mem_walkFiles.1 hp).2 hread hd)
    have hpublish : Keeps (Vouched P V) (publishStructureOnly P env d) := by
      refine (Keeps.ofExcept _).bind fun st => ?_
      cases hdest : publishedPath (structureOf d).record st with
      | error e => exact Keeps.fail _
      | ok dest =>
        rw [ofExcept_ok_bind]
        refine Keeps.state_bind fun w hw => ?_
        split_ifs
        · exact hw
        · simp only [bind_of_ok (stage_apply _ _), bind_of_ok (place_stagedIn hdest _)]
          exact placedIn_vouched (d := structureOf d) hY hw hdoc dest
    dsimp only
    split_ifs
    · refine Keeps.bind hpublish (fun _ => Keeps.bind (Keeps.change fun w hw => ?_) fun _ =>
        Keeps.pure _) u hu
      exact ⟨hw.records, hw.staging, fun d' h => hw.quarantine d' h.erase, hw.cold, hw.index⟩
    · exact hu

theorem keyed_vouched {α : Type} (x : Eff Tree Crypto.Error α) : Keeps (Vouched P V) (keyed x) :=
  fun _ hs => ⟨hs.records, hs.staging, hs.quarantine, hs.cold, hs.index⟩

theorem replayTombstones_vouched (hY : P.yaml.Inverts) : Keeps (Vouched P V) (replayTombstones P env) := by
  have hone : ∀ e, Keeps (Vouched P V) (replayTombstone P env e) := fun e =>
    (Keeps.ofExcept _).bind fun s => (keyed_vouched _).bind fun _ => (keyed_vouched _).bind fun _ =>
      (dropBodies_vouched hY s).bind fun _ => (sweepQuarantine_vouched hY s).bind fun _ => Keeps.pure _
  exact readLog_keeps.bind fun es => (Keeps.forM fun e _ => hone e).bind fun _ => Keeps.pure _

theorem indexManifest_vouched (counts : ℕ × ℕ) (p : Path) :
    Keeps (Vouched P V) (indexManifest P counts p) := by
  refine keeps_readFile_bind fun s text hs hread => ?_
  refine Keeps.foldlM (fun b l hl => ?_) counts s hs
  have hmem : l ∈ lines text := (List.mem_filter.1 hl).1
  unfold indexLine
  cases hr : manifestRecord P l with
  | error e => exact Keeps.pure _
  | ok r =>
    have hvouched : V (asSent r) := hs.cold p text hread l hmem r hr
    have hpublish : Keeps (VouchedRows V) (Index.publish ⟨r, [], []⟩) := publish_vouched hvouched
    exact (inBatch_vouched hpublish).bind fun _ => Keeps.pure _

/-- **A rebuild indexes what is there.** -/
theorem rebuild_vouched (n : ℕ) {sources : Sources}
    (htree : ∀ p ∈ sources.tree, extension p = some recordExt) :
    Keeps (Vouched P V) (rebuild P env n sources) := by
  have hindex : ∀ b, ∀ p ∈ sources.tree, Keeps (Vouched P V) (indexFile P b p) := by
    intro b p hp
    refine keeps_readFile_bind fun s text hs hread => ?_
    cases hd : Document.parse P.yaml text with
    | error e => exact hs
    | ok d =>
      have hdoc : V (asSent d.record) := hs.records d (FileDoc.of_read (htree p hp) hread hd)
      exact (inBatch_vouched (publish_vouched hdoc)).bind (fun _ => Keeps.pure _) s hs
  have hregister : ∀ p, Keeps (Vouched P V) (reregisterFile P env p) := by
    intro p
    refine (readFile_keeps _ _).bind fun text => ?_
    cases Document.parse P.yaml text with
    | error e => exact Keeps.pure _
    | ok d =>
      exact (Keeps.ofExcept _).bind fun st => inBatch_vouched (Keeps.change fun i hi => hi)
  have htruncate : Keeps (Vouched P V) (inBatch (change Index.truncateDerived)) :=
    inBatch_vouched (Keeps.change fun i _ => fun row hrow => absurd hrow List.not_mem_nil)
  have hdrop : Keeps (Vouched P V) dropTimelines :=
    fun s hs => (Vouched.drainFrame P V).entities s _ hs
  have hbody : Keeps (Vouched P V) (do
      inBatch (change Index.truncateDerived)
      let dropped ← dropTimelines
      let tree ← sources.tree.foldlM (indexFile P) (0, 0)
      let manifests ← sources.manifests.foldlM (indexManifest P) (0, 0)
      forM sources.quarantine (reregisterFile P env)
      return (⟨tree.1, manifests.1, tree.2 + manifests.2, n, dropped⟩ : ReindexReport)) :=
    htruncate.bind fun _ => hdrop.bind fun _ => (Keeps.foldlM hindex _).bind fun _ =>
      (Keeps.foldlM (fun b p _ => indexManifest_vouched b p) _).bind fun _ =>
        (Keeps.forM fun p _ => hregister p).bind fun _ => Keeps.pure _
  intro s hs
  have hs' := hbody s hs
  unfold rebuild transaction
  split
  · rename_i heq
    rw [heq] at hs'
    exact hs'
  · rename_i heq
    rw [heq] at hs'
    exact ⟨hs'.records, hs'.staging, hs'.quarantine, hs'.cold, hs.index⟩

theorem reindexAll_vouched (hY : P.yaml.Inverts) : Keeps (Vouched P V) (reindexAll P env) := by
  refine (replayTombstones_vouched hY).bind fun n => Keeps.state.bind fun s => rebuild_vouched n ?_
  intro p hp
  rw [Sources.list, List.mem_insertionSort] at hp
  exact (Tree.mem_walkFiles.1 hp).2

/-- **An erasure moves, empties and derives what is there.** -/
theorem eraseSubject_vouched (hY : P.yaml.Inverts) (s : SubjectHash) :
    Keeps (Vouched P V) (eraseSubject P env s) := by
  have hlog : ∀ e, Keeps (Vouched P V) (appendTombstone P e) := fun e =>
    Keeps.change fun u hu => ⟨hu.records, hu.staging, hu.quarantine, hu.cold, hu.index⟩
  exact (refuseIfHeld_keeps s).bind fun _ => (affected_keeps s).bind fun records => (hlog _).bind fun _ =>
    (keyed_vouched _).bind fun _ => Keeps.state.bind fun _ => (keyed_vouched _).bind fun _ =>
      (dropBodies_vouched hY s).bind fun _ => (sweepQuarantine_vouched hY s).bind fun _ =>
        (reindexAll_vouched hY).bind fun _ => (verifyLive_keeps s).bind fun _ => Keeps.pure _

end

end Yaam.Core
