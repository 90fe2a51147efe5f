/-
  What keeps an erased subject's bodies from coming back.

  * `Emptied` is what an erasure is for: no published record that names the subject has a
    sealed body, and no index row of the subject a share;
  * `Pending` is how far an erasure has come: the files it has still to empty, and the
    copies held back it has still to settle; `dropBodies_pending` and
    `sweepQuarantine_pending` work them off;
  * `Closed` is an erasure with nothing pending: every staged copy of a sealed body of the
    subject is of a record that is published; writes, sweeps, drains and rebuilds keep it;
  * `erased_for_good`: so an erasure lasts where it leaves no other copy staged.
-/
import Yaam.Core.Attest
import Yaam.Core.Redriven
import Yaam.Core.Sole

namespace Yaam.Core

open Text Contract Crypto Md Eff Index

variable {P : Pipeline} {env : Env} {s : SubjectHash} {σ : Store} {d : Document}

/-- A document with a sealed body, of a record that names the subject. -/
def SealsFor (s : SubjectHash) (d : Document) : Prop := d.record.names s ∧ isPlain d = false

theorem not_sealsFor_of_plain (h : isPlain d = true) : ¬ SealsFor s d := fun hs => by
  rw [hs.2] at h
  cases h

/-! ## Shares -/

/-- Only the subjects that a sealed document names are keyed. -/
theorem sealsFor_of_subjectKeys {k : SubjectHash × Epoch × Bytes}
    (h : k ∈ (publishInput d).subjectKeys) : SealsFor k.1 d := by
  obtain ⟨rec, b⟩ := d
  cases b with
  | plain t => cases h
  | «sealed» b =>
    simp only [publishInput, subjectKeys, List.mem_map, List.mem_filter, decide_eq_true_eq] at h
    obtain ⟨share, ⟨-, hn⟩, rfl⟩ := h
    exact ⟨hn, rfl⟩

/-! ## How far an erasure has come -/

/-- A copy held back that lists the subject, of the record that is published at a path. -/
def HeldOver (P : Pipeline) (s : SubjectHash) (dest : Path) (t : Tree) (q : Path) : Prop :=
  ∃ f d, t.lookup q = some f ∧ Carries P f d ∧ d.record.names s ∧ destination d.record = .ok dest

/-- What is pending of an erasure: the files that may carry a sealed body of the subject
    still, and the copies that will take the place of a record staged with one. -/
structure Pending (P : Pipeline) (s : SubjectHash) (files held : List Path) (σ : Store) : Prop where
  marked : tombstonePath s ∈ σ.keys
  records : ∀ p f d, extension p = some recordExt → σ.records.lookup p = some f → Carries P f d →
    SealsFor s d → p ∈ files
  staged : ∀ d dest, FileDoc P σ.staging d → SealsFor s d → destination d.record = .ok dest →
    dest ∈ σ.records ∨ ∃ q ∈ held, HeldOver P s dest σ.quarantine q

/-- **Nothing is pending**: no published body of the subject is sealed, and every staged
    one is of a published record. -/
abbrev Closed (P : Pipeline) (s : SubjectHash) (σ : Store) : Prop := Pending P s [] [] σ

/-- What an erasure is for. -/
structure Emptied (P : Pipeline) (s : SubjectHash) (σ : Store) : Prop where
  records : ∀ d, FileDoc P σ.records d → ¬ SealsFor s d
  shares : σ.index.Shareless s

variable {files held : List Path} {p dest : Path} {f : File}

theorem Closed.not_sealsFor (h : Closed P s σ) (hd : FileDoc P σ.records d) : ¬ SealsFor s d := by
  obtain ⟨p, f, hp, hf, hc⟩ := hd
  exact fun hs => List.not_mem_nil (Pending.records h p f d hp hf hc hs)

theorem Closed.published (h : Closed P s σ) (hd : FileDoc P σ.staging d) (hs : SealsFor s d)
    (hdest : destination d.record = .ok dest) : dest ∈ σ.records := by
  rcases Pending.staged h d dest hd hs hdest with hin | ⟨q, hq, -⟩
  · exact hin
  · cases hq

/-- Fewer staged copies leave an erasure closed. -/
theorem Closed.of_staging {τ : Store} (h : Closed P s σ) (hkeys : τ.keys = σ.keys)
    (hrecords : τ.records = σ.records)
    (hstaging : ∀ d, FileDoc P τ.staging d → FileDoc P σ.staging d) : Closed P s τ := by
  refine ⟨hkeys ▸ h.marked, ?_, fun d dest hd hs hdest => .inl ?_⟩
  · rw [hrecords]
    exact Pending.records h
  · rw [hrecords]
    exact h.published (hstaging d hd) hs hdest

/-- What does not touch files or the subject's marker leaves what is pending. -/
theorem Pending.congr {τ : Store} (h : Pending P s files held σ)
    (hmark : tombstonePath s ∈ σ.keys → tombstonePath s ∈ τ.keys) (hrecords : τ.records = σ.records)
    (hstaging : τ.staging = σ.staging) (hspool : τ.quarantine = σ.quarantine) :
    Pending P s files held τ := by
  refine ⟨hmark h.marked, ?_, ?_⟩
  · rw [hrecords]
    exact h.records
  · rw [hrecords, hstaging, hspool]
    exact h.staged

theorem closed_derived : DerivedFrame (Pending P s files held) :=
  ⟨fun _ _ h => h.congr id rfl rfl rfl, fun _ _ h => h.congr id rfl rfl rfl⟩

/-- A marker outlives the erasure of any subject. -/
theorem Pending.tombstone (s' : SubjectHash) :
    Keeps (Pending P s files held) (keyed ((P.keys env).tombstone s')) := by
  intro τ h
  refine h.congr (fun hm => ?_) rfl rfl rfl
  show tombstonePath s ∈ (if tombstonePath s' ∈ τ.keys then τ.keys else
    τ.keys.write (tombstonePath s') [] _)
  split_ifs
  · exact hm
  · exact (AList.mem_insert _).2 (.inr hm)

theorem Pending.destroySubject (s' : SubjectHash) :
    Keeps (Pending P s files held) (keyed (destroySubject s')) := fun _ h =>
  h.congr (fun hm => Tree.mem_removeDirAll.2 ⟨hm, not_under_tombstone s' s⟩) rfl rfl rfl

/-- A record's place is no temporary file's. -/
theorem mem_replaceAtomically {t : Tree} {bytes : Bytes} {now : ℤ} (hp : extension p = some recordExt)
    (hdest : extension dest = some recordExt) (h : dest ∈ t) :
    dest ∈ t.replaceAtomically p bytes now := by
  rw [Tree.mem_iff_lookup] at h ⊢
  by_cases hne : dest = p
  · subst hne
    exact ⟨_, Tree.lookup_replaceAtomically t _ bytes now⟩
  · have htmp : dest ≠ withExtension p "tmp".toList := by
      rintro rfl
      rw [extension_temporary hp] at hdest
      exact absurd (Option.some.inj hdest) (by decide)
    rwa [Tree.lookup_replaceAtomically_of_ne t bytes now hne htmp]

theorem destination_ext {r : ActionRecord} (h : destination r = .ok dest) :
    extension dest = some recordExt := by
  obtain ⟨dir, rfl⟩ := destination_ok h
  exact extension_recordFile dir r.recordId

/-- Emptying a file takes it off what is pending. -/
theorem Pending.emptied (hY : P.yaml.Inverts) (h : Pending P s files held σ)
    (hp : extension p = some recordExt) (hv : d.record.validate = .ok ()) {files' : List Path}
    (hfiles : ∀ q ∈ files, q ≠ p → q ∈ files') (now : ℤ) :
    Pending P s files' held
      { σ with records := σ.records.replaceAtomically p (fileBytes P (structureOf d)) now } := by
  refine ⟨h.marked, fun q g d' hq hg hc hs => ?_, fun d' dest hd' hs hdest => ?_⟩
  · by_cases hqp : q = p
    · subst hqp
      rw [Tree.lookup_replaceAtomically] at hg
      obtain rfl := Option.some.inj hg
      rw [carries_structureOf hY hv hc] at hs
      exact absurd hs (not_sealsFor_of_plain rfl)
    · have htmp : q ≠ withExtension p "tmp".toList := by
        rintro rfl
        rw [extension_temporary hp] at hq
        exact absurd (Option.some.inj hq) (by decide)
      rw [Tree.lookup_replaceAtomically_of_ne _ _ _ hqp htmp] at hg
      exact hfiles q (h.records q g d' hq hg hc hs) hqp
  · exact (h.staged d' dest hd' hs hdest).imp_left
      (mem_replaceAtomically hp (destination_ext hdest))

/-- The body of one file is dropped, whoever's erasure it is. -/
theorem dropBody_keeps_pending (hY : P.yaml.Inverts) (s' : SubjectHash) (n : ℕ)
    (hp : extension p = some recordExt) : Keeps (Pending P s files held) (dropBody P env s' n p) := by
  refine keeps_readFile_bind fun τ text hτ hread => ?_
  cases hd : Document.parse P.yaml text with
  | error e => exact hτ
  | ok d =>
    dsimp only
    split_ifs
    · exact hτ
    · exact hτ.emptied hY hp (Document.parse_validate hd) (fun q hq _ => hq) env.now

/-- After its turn a file is not pending. -/
theorem dropBody_pending (hY : P.yaml.Inverts) (n : ℕ) (hp : extension p = some recordExt)
    (t : Tree) : Triple (fun τ => Pending P s (p :: files) held τ ∧ τ.quarantine = t)
      (dropBody P env s n p) (fun _ τ => Pending P s files held τ ∧ τ.quarantine = t) Undone := by
  have hrest : ∀ q ∈ p :: files, q ≠ p → q ∈ files := fun q hq hne =>
    (List.mem_cons.1 hq).resolve_left hne
  refine readFile_triple.bind fun text => ?_
  -- a file that carries no sealed body of the subject is not pending
  have hnone : ∀ τ, (Pending P s (p :: files) held τ ∧ τ.quarantine = t) ∧
      τ.records.readToString p = .ok text →
      (∀ d, Document.parse P.yaml text = .ok d → ¬ SealsFor s d) →
        Pending P s files held τ ∧ τ.quarantine = t := by
    rintro τ ⟨⟨hτ, ht⟩, hread⟩ hno
    refine ⟨⟨hτ.marked, fun q g d hq hg hc hs => hrest q (hτ.records q g d hq hg hc hs) ?_, hτ.staged⟩,
      ht⟩
    rintro rfl
    obtain ⟨g', hg', ht⟩ := Tree.readToString_ok.1 hread
    obtain rfl := Option.some.inj (hg.symm.trans hg')
    obtain ⟨text', ht', hd⟩ := hc
    obtain rfl := Utf8.encode_inj (ht.symm.trans ht')
    exact hno d hd hs
  cases hd : Document.parse P.yaml text with
  | error e => exact Triple.pure fun τ hτ => hnone τ hτ fun d h => by rw [hd] at h; cases h
  | ok d =>
    dsimp only
    split_ifs with hkeep
    · refine Triple.pure fun τ hτ => hnone τ hτ fun d' h hs => ?_
      obtain rfl := Except.ok.inj (hd.symm.trans h)
      rcases hkeep with hn | hplain
      · exact hn hs.1
      · exact not_sealsFor_of_plain hplain hs
    · rintro τ ⟨⟨hτ, ht⟩, -⟩
      exact ⟨hτ.emptied hY hp (Document.parse_validate hd) hrest env.now, ht⟩

/-- **Dropping the subject's bodies leaves none sealed.** -/
theorem dropBodies_pending (hY : P.yaml.Inverts) (t : Tree) :
    Triple (fun τ => Pending P s (τ.records.walkFiles recordExt) held τ ∧ τ.quarantine = t)
      (dropBodies P env s) (fun _ τ => Pending P s [] held τ ∧ τ.quarantine = t) Undone := by
  have hfold : ∀ (paths : List Path) (n : ℕ), (∀ p ∈ paths, extension p = some recordExt) →
      Triple (fun τ => Pending P s paths held τ ∧ τ.quarantine = t)
        (paths.foldlM (dropBody P env s) n)
        (fun _ τ => Pending P s [] held τ ∧ τ.quarantine = t) Undone := by
    intro paths
    induction paths with
    | nil => exact fun n _ => Triple.pure fun _ h => h
    | cons p paths ih =>
      intro n hext
      rw [List.foldlM_cons]
      exact (dropBody_pending hY n (hext p List.mem_cons_self) t).bind fun m =>
        ih m fun q hq => hext q (List.mem_cons_of_mem _ hq)
  refine Triple.state_bind fun τ => ?_
  refine (hfold _ 0 fun p hp => (Tree.mem_walkFiles.1 hp).2).before ?_
  rintro _ ⟨h, rfl⟩
  exact h

/-- **What is held back is published without its body**, or stands published. -/
theorem publishStructureOnly_pending (hY : P.yaml.Inverts) (hv : d.record.validate = .ok ())
    (t : Tree) : Triple (fun τ => Pending P s files held τ ∧ τ.quarantine = t)
      (publishStructureOnly P env d)
      (fun _ τ => (Pending P s files held τ ∧ τ.quarantine = t) ∧
        ∀ dest, destination d.record = .ok dest → dest ∈ τ.records)
      (fun _ => Pending P s files held) := by
  rintro τ ⟨hτ, ht⟩
  unfold publishStructureOnly
  cases hst : stampOf (structureOf d).record with
  | error e => exact hτ
  | ok st =>
    rw [ofExcept_ok_bind]
    cases hdest : publishedPath (structureOf d).record st with
    | error e => exact hτ
    | ok dest =>
      have hplace : ∀ dest', destination d.record = .ok dest' → dest' = dest := by
        intro dest' h
        obtain ⟨st', hst', h⟩ := Contract.bind_ok.1 h
        obtain rfl := Except.ok.inj (hst.symm.trans hst')
        exact Except.ok.inj (h.symm.trans hdest)
      rw [ofExcept_ok_bind, state_bind]
      split_ifs with hin
      · exact ⟨⟨hτ, ht⟩, fun dest' h => hplace dest' h ▸ hin⟩
      · simp only [bind_of_ok (stage_apply _ _), bind_of_ok (place_stagedIn hdest _)]
        refine ⟨⟨⟨hτ.marked, fun q g d' hq hg hc hs => ?_, fun d' dest' hd' hs h => ?_⟩, ht⟩,
          fun dest' h => ?_⟩
        · by_cases hqd : q = dest
          · subst hqd
            obtain rfl := Option.some.inj ((AList.lookup_insert _).symm.trans hg)
            rw [carries_structureOf hY hv hc] at hs
            exact absurd hs (not_sealsFor_of_plain rfl)
          · exact hτ.records q g d' hq ((AList.lookup_insert_ne hqd).symm.trans hg) hc hs
        · exact (hτ.staged d' dest' hd'.unstaged hs h).imp_left fun h => (AList.mem_insert _).2 (.inr h)
        · exact (AList.mem_insert _).2 (.inl (hplace dest' h))

/-- Settling a copy leaves what is pending, when no copy is. -/
theorem settleHeld_keeps_pending (hY : P.yaml.Inverts) (s' : SubjectHash) (n : ℕ) (q : Path) :
    Keeps (Pending P s files []) (settleHeld P env s' n q) := by
  refine keeps_readFile_bind fun τ text hτ hread => ?_
  cases hd : Document.parse P.yaml text with
  | error e => exact hτ
  | ok d =>
    dsimp only
    split_ifs
    · have hpub : Keeps (Pending P s files []) (publishStructureOnly P env d) :=
        Keeps.of_triple (Triple.of_state fun υ hυ =>
          (publishStructureOnly_pending hY (Document.parse_validate hd) υ.quarantine).conseq
            (fun τ hτ => by subst hτ; exact ⟨hυ, rfl⟩) (fun _ _ h => h.1.1) fun _ _ h => h)
      refine Keeps.bind hpub (fun _ => Keeps.bind (Keeps.change fun υ hυ => ?_) fun _ => Keeps.pure _) τ hτ
      exact ⟨hυ.marked, hυ.records, fun d' dest hd' hs h => (hυ.staged d' dest hd' hs h).imp_right
        fun ⟨q, hq, _⟩ => absurd hq List.not_mem_nil⟩
    · exact hτ

/-- After its turn a copy is not pending: its record is published. -/
theorem settleHeld_pending (hY : P.yaml.Inverts) (n : ℕ) (q : Path) :
    Triple (Pending P s files (q :: held)) (settleHeld P env s n q)
      (fun _ => Pending P s files held) Undone := by
  refine readFile_triple.bind fun text => ?_
  -- what is held over at this place is what is read there
  have hsame : ∀ (τ : Store) dest, τ.quarantine.readToString q = .ok text →
      HeldOver P s dest τ.quarantine q → ∃ d, Document.parse P.yaml text = .ok d ∧
        d.record.names s ∧ destination d.record = .ok dest := by
    rintro τ dest hread ⟨f, d, hf, ⟨text', ht', hd⟩, hn, hdest⟩
    obtain ⟨g, hg, ht⟩ := Tree.readToString_ok.1 hread
    obtain rfl := Option.some.inj (hf.symm.trans hg)
    obtain rfl := Utf8.encode_inj (ht.symm.trans ht')
    exact ⟨d, hd, hn, hdest⟩
  have hskip : ∀ τ, Pending P s files (q :: held) τ ∧ τ.quarantine.readToString q = .ok text →
      (∀ d, Document.parse P.yaml text = .ok d → ¬ d.record.names s) → Pending P s files held τ := by
    rintro τ ⟨hτ, hread⟩ hno
    refine ⟨hτ.marked, hτ.records, fun d' dest hd' hs h => ?_⟩
    rcases hτ.staged d' dest hd' hs h with hin | ⟨q', hq', hover⟩
    · exact .inl hin
    · rcases List.mem_cons.1 hq' with rfl | hq'
      · obtain ⟨d, hd, hn, -⟩ := hsame τ dest hread hover
        exact absurd hn (hno d hd)
      · exact .inr ⟨q', hq', hover⟩
  cases hd : Document.parse P.yaml text with
  | error e => exact Triple.pure fun τ hτ => hskip τ hτ fun d h => by rw [hd] at h; cases h
  | ok d =>
    dsimp only
    by_cases hn : d.record.names s
    · rw [if_neg (not_not.2 hn)]
      refine Triple.of_state fun τ hτ => ?_
      obtain ⟨hτ, hread⟩ := hτ
      have hpub : Triple (fun υ => υ = τ) (publishStructureOnly P env d)
          (fun _ υ => (Pending P s files (q :: held) υ ∧ υ.quarantine = τ.quarantine) ∧
            ∀ dest, destination d.record = .ok dest → dest ∈ υ.records) Undone := by
        refine (publishStructureOnly_pending hY (Document.parse_validate hd) τ.quarantine).conseq ?_
          (fun _ _ h => h) fun _ _ _ => trivial
        rintro _ rfl
        exact ⟨hτ, rfl⟩
      refine hpub.bind fun _ => ?_
      rintro υ ⟨⟨hυ, hspool⟩, hdone⟩
      refine ⟨hυ.marked, hυ.records, fun d' dest hd' hs h => ?_⟩
      rcases hυ.staged d' dest hd' hs h with hin | ⟨q', hq', hover⟩
      · exact .inl hin
      · by_cases hqq : q' = q
        · subst hqq
          rw [hspool] at hover
          obtain ⟨d₂, hd₂, -, hdest⟩ := hsame τ dest hread hover
          obtain rfl := Except.ok.inj (hd.symm.trans hd₂)
          exact .inl (hdone dest hdest)
        · obtain ⟨g, d₂, hg, hrest⟩ := hover
          exact .inr ⟨q', (List.mem_cons.1 hq').resolve_left hqq, g, d₂,
            (AList.lookup_erase_ne hqq).trans hg, hrest⟩
    · rw [if_pos hn]
      refine Triple.pure fun τ hτ => hskip τ hτ fun d' h => ?_
      obtain rfl := Except.ok.inj (hd.symm.trans h)
      exact hn

/-- **Settling the subject's copies leaves none that a staged one waits for.** -/
theorem sweepQuarantine_pending (hY : P.yaml.Inverts) :
    Triple (fun τ => Pending P s files (τ.quarantine.walkFiles recordExt) τ) (sweepQuarantine P env s)
      (fun _ => Pending P s files []) Undone := by
  have hfold : ∀ (paths : List Path) (n : ℕ),
      Triple (Pending P s files paths) (paths.foldlM (settleHeld P env s) n)
        (fun _ => Pending P s files []) Undone := by
    intro paths
    induction paths with
    | nil => exact fun n => Triple.pure fun _ h => h
    | cons q paths ih =>
      intro n
      rw [List.foldlM_cons]
      exact (settleHeld_pending hY n q).bind fun m => ih m
  refine Triple.state_bind fun τ => ?_
  refine (hfold _ 0).before ?_
  rintro _ ⟨h, rfl⟩
  exact h

/-! ## Rebuilding -/

/-- A replay of the erasures leaves an erasure closed. -/
theorem replayTombstones_closed (hY : P.yaml.Inverts) : Keeps (Closed P s) (replayTombstones P env) := by
  have hreplay : ∀ e, Keeps (Closed P s) (replayTombstone P env e) := by
    intro e
    unfold replayTombstone
    refine (Keeps.ofExcept _).bind fun s' => ?_
    refine (Pending.tombstone s').bind fun _ => (Pending.destroySubject s').bind fun _ => ?_
    refine Keeps.bind (Keeps.state_bind fun τ hτ => Keeps.foldlM (fun n p hp =>
      dropBody_keeps_pending hY s' n (Tree.mem_walkFiles.1 hp).2) 0 τ hτ) fun _ => ?_
    exact Keeps.bind (Keeps.state_bind fun τ hτ => Keeps.foldlM (fun n q _ =>
      settleHeld_keeps_pending hY s' n q) 0 τ hτ) fun _ => Keeps.pure _
  exact readLog_keeps.bind fun es => (Keeps.forM fun e _ => hreplay e).bind fun _ => Keeps.pure _

/-- An erasure that is closed, and whose shares are gone. -/
structure ForGood (P : Pipeline) (s : SubjectHash) (σ : Store) : Prop where
  closed : Closed P s σ
  shares : σ.index.Shareless s

theorem shareless_of_not_sealsFor {i : Tables} {row : RecordRow} {ms : ℤ} (h : i.Shareless s)
    (hd : ¬ SealsFor s d) : (published (publishInput d) row ms i).Shareless s :=
  shareless_published h fun _ hk hs => hd (hs ▸ sealsFor_of_subjectKeys hk)

theorem inBatch_forGood (hd : ¬ SealsFor s d) :
    Triple (ForGood P s) (inBatch (publishDocument d)) (fun _ => ForGood P s) Undone := by
  refine Triple.of_cases (fun τ τ' u hτ hx => ?_) fun _ _ _ _ _ => trivial
  obtain ⟨j, hj, rfl⟩ := zoom_eq_ok.1 hx
  obtain ⟨row, ms, -, -, rfl⟩ := publish_eq_ok.1 (mapError_eq_ok.1 hj)
  exact ⟨closed_derived.index τ _ hτ.closed, shareless_of_not_sealsFor hτ.shares hd⟩

/-- **A rebuild of a tree that seals nothing for the subject brings back no share of it.** -/
theorem rebuild_shareless {rep : ReindexReport} {τ : Store} (n : ℕ) (sources : Sources)
    (hext : ∀ p ∈ sources.tree, extension p = some recordExt) (h : Closed P s σ)
    (hx : rebuild P env n sources σ = (.ok rep, τ)) : τ.index.Shareless s := by
  have hbatch : ∀ d, ¬ SealsFor s d → ∀ m : ℕ × ℕ, Triple (ForGood P s)
      (inBatch (publishDocument d) >>= fun _ => (Pure.pure m : StoreM (ℕ × ℕ)))
      (fun _ => ForGood P s) Undone := fun d hd m =>
    (inBatch_forGood hd).bind fun _ => Triple.pure fun _ h => h
  have hfile : ∀ (m : ℕ × ℕ), ∀ p ∈ sources.tree,
      Triple (ForGood P s) (indexFile P m p) (fun _ => ForGood P s) Undone := by
    intro m p hp
    refine readFile_triple.bind fun text => ?_
    cases hparse : Document.parse P.yaml text with
    | error e => exact Triple.pure fun s hs => hs.1
    | ok d =>
      rintro υ ⟨hυ, hread⟩
      have hdoc := FileDoc.of_read (hext p hp) hread hparse
      exact hbatch d (hυ.closed.not_sealsFor hdoc) _ υ hυ
  have hmanifest : ∀ (m : ℕ × ℕ), ∀ p ∈ sources.manifests,
      Triple (ForGood P s) (indexManifest P m p) (fun _ => ForGood P s) Undone := by
    intro m p _
    refine readFile_triple.bind fun text => Triple.before ?_ fun _ h => h.1
    refine Triple.foldlM (fun m l _ => ?_) m
    unfold indexLine
    cases manifestRecord P l with
    | error e => exact Triple.pure fun _ h => h
    | ok r => exact hbatch ⟨r, .plain []⟩ (not_sealsFor_of_plain rfl) _
  have hregister : ∀ p ∈ sources.quarantine,
      Triple (ForGood P s) (reregisterFile P env p) (fun _ => ForGood P s) Undone := by
    intro p _
    refine readFile_triple.bind fun text => ?_
    cases Document.parse P.yaml text with
    | error e => exact Triple.pure fun s hs => hs.1
    | ok d =>
      refine Triple.of_cases (fun υ υ' u hυ hx => ?_) fun _ _ _ _ _ => trivial
      obtain ⟨st, υ₁, hst, hrow⟩ := bind_eq_ok.1 hx
      obtain ⟨-, rfl⟩ := ofExcept_eq_ok.1 hst
      obtain ⟨j, hj, rfl⟩ := zoom_eq_ok.1 hrow
      obtain rfl := change_eq_ok.1 (mapError_eq_ok.1 hj)
      exact ⟨closed_derived.index υ _ hυ.1.closed, hυ.1.shares⟩
  have hdrop : Triple (ForGood P s) dropTimelines (fun _ => ForGood P s) Undone :=
    fun υ hυ => ⟨closed_derived.entities υ _ hυ.closed, hυ.shares⟩
  have hbody : Triple (ForGood P s) (do
      let dropped ← dropTimelines
      let tree ← sources.tree.foldlM (indexFile P) (0, 0)
      let manifests ← sources.manifests.foldlM (indexManifest P) (0, 0)
      forM sources.quarantine (reregisterFile P env)
      return (⟨tree.1, manifests.1, tree.2 + manifests.2, n, dropped⟩ : ReindexReport))
      (fun _ => ForGood P s) Undone :=
    hdrop.bind fun _ => (Triple.foldlM hfile _).bind fun _ => (Triple.foldlM hmanifest _).bind fun _ =>
      (Triple.forM hregister).bind fun _ => Triple.pure fun _ h => h
  have hempty : ForGood P s { σ with index := .empty } :=
    ⟨closed_derived.index σ _ h, fun row hrow => absurd hrow List.not_mem_nil⟩
  have htrunc : (inBatch (change truncateDerived) : StoreM Unit) σ =
      (.ok (), { σ with index := .empty }) := rfl
  unfold rebuild transaction at hx
  rw [bind_of_ok htrunc] at hx
  split at hx
  · rename_i heq
    obtain ⟨-, rfl⟩ := Prod.mk.inj hx
    exact (hbody.ok hempty heq).shares
  · cases hx

/-- A rebuild that is undone leaves the index. -/
theorem rebuild_index_of_error {e : Error} {τ : Store} (n : ℕ) (sources : Sources)
    (hx : rebuild P env n sources σ = (.error e, τ)) : τ.index = σ.index := by
  unfold rebuild transaction at hx
  split at hx
  · cases hx
  · obtain ⟨-, rfl⟩ := Prod.mk.inj hx
    rfl

theorem Sources.list_ext (σ : Store) : ∀ p ∈ (Sources.list P σ).tree, extension p = some recordExt :=
  fun _ hp => (Tree.mem_walkFiles.1 ((List.mem_insertionSort _).1 hp)).2

/-- A rebuild leaves an erasure closed, and one that goes through leaves no share. -/
theorem reindexAll_closed (hY : P.yaml.Inverts) :
    Triple (Closed P s) (reindexAll P env) (fun _ => ForGood P s) (fun _ => Closed P s) := by
  refine (replayTombstones_closed hY).triple.bind fun n => Triple.state_bind fun τ => ?_
  rintro σ₁ ⟨hσ₁, rfl⟩
  have hkept : Closed P s (rebuild P env n (Sources.list P σ₁) σ₁).2 :=
    rebuild_keeps closed_derived n _ σ₁ hσ₁
  cases hx : rebuild P env n (Sources.list P σ₁) σ₁ with
  | mk res υ =>
    rw [hx] at hkept
    cases res with
    | ok rep => exact ⟨hkept, rebuild_shareless n _ (Sources.list_ext σ₁) hσ₁ hx⟩
    | error e => exact hkept

/-- **A rebuild lasts.** -/
theorem reindexAll_forGood (hY : P.yaml.Inverts) : Keeps (ForGood P s) (reindexAll P env) := by
  intro σ hσ
  have hclosed : Closed P s (replayTombstones P env σ).2 :=
    replayTombstones_closed hY σ hσ.closed
  have hindex := (replayTombstones_replayed hY env σ).index
  unfold reindexAll
  cases hx : replayTombstones P env σ with
  | mk res τ =>
    rw [hx] at hclosed hindex
    cases res with
    | error e =>
      rw [bind_of_error hx]
      exact ⟨hclosed, by rw [hindex]; exact hσ.shares⟩
    | ok n =>
      rw [bind_of_ok hx, state_bind]
      have hkept : Closed P s (rebuild P env n (Sources.list P τ) τ).2 :=
        rebuild_keeps closed_derived n _ τ hclosed
      cases hy : rebuild P env n (Sources.list P τ) τ with
      | mk res υ =>
        rw [hy] at hkept
        cases res with
        | ok rep => exact ⟨hkept, rebuild_shareless n _ (Sources.list_ext τ) hclosed hy⟩
        | error e =>
          refine ⟨hkept, ?_⟩
          rw [rebuild_index_of_error n _ hy, hindex]
          exact hσ.shares

/-! ## Writes, sweeps and drains -/

theorem commit_forGood (hd : ¬ SealsFor s d) : Keeps (ForGood P s) (commit d) := by
  intro τ hτ
  rcases commit_cases d τ with ⟨row, ms, -, -, hc⟩ | ⟨-, e, hc⟩
  · rw [hc]
    exact ⟨closed_derived.index τ _ hτ.closed, shareless_of_not_sealsFor hτ.shares hd⟩
  · rw [hc]
    exact hτ

/-- A new file that seals nothing for the subject, and no new staged copy. -/
theorem Closed.insert {t : Tree} (h : Closed P s σ) (hno : ∀ d, Carries P f d → ¬ SealsFor s d)
    (hstaging : ∀ d, FileDoc P t d → FileDoc P σ.staging d) (dest : Path) :
    Closed P s { σ with staging := t, records := σ.records.insert dest f } := by
  refine ⟨h.marked, fun q g d hq hg hc hs => ?_, fun d dest' hd hs hdest => .inl ?_⟩
  · by_cases hqd : q = dest
    · subst hqd
      obtain rfl := Option.some.inj ((AList.lookup_insert _).symm.trans hg)
      exact absurd hs (hno d hc)
    · exact Pending.records h q g d hq ((AList.lookup_insert_ne hqd).symm.trans hg) hc hs
  · exact (AList.mem_insert _).2 (.inr (h.published (hstaging d hd) hs hdest))

/-- **Re-driving a staged copy publishes no sealed body of the subject**: where it would,
    the record is published already. -/
theorem redriveDocument_forGood (h : ForGood P s σ) (hp : extension p = some recordExt)
    (hf : σ.staging.lookup p = some f) (hd : Carries P f d) :
    ForGood P s (redriveDocument P p d σ).2 := by
  by_cases hplace : ∃ dest, destination d.record = .ok dest
  · obtain ⟨dest, hdest⟩ := hplace
    obtain ⟨st, hpub, hrun⟩ := redriveDocument_eq (P := P) (p := p) hdest σ
    rw [hrun]
    by_cases hin : dest ∈ σ.records
    · rw [if_pos hin]
      refine keeps_readFile_bind (I := ForGood P s) (fun τ text hτ hread => ?_) σ h
      cases hparse : Document.parse P.yaml text with
      | error e => exact hτ
      | ok published =>
        have hdoc := FileDoc.of_read (publishedPath_ext hpub) hread hparse
        refine Keeps.bind (commit_forGood (hτ.closed.not_sealsFor hdoc)) (fun _ => ?_) τ hτ
        exact Keeps.change fun υ hυ =>
          ⟨hυ.closed.of_staging rfl rfl fun _ hd' => hd'.erase, hυ.shares⟩
    · have hno : ¬ SealsFor s d := fun hs => hin (h.closed.published ⟨p, f, hp, hf, hd⟩ hs hdest)
      rw [if_neg hin, bind_of_ok (place_of_staged hpub hf)]
      refine commit_forGood hno _ ⟨?_, h.shares⟩
      exact h.closed.insert (fun d' hd' => hd'.unique hd ▸ hno) (fun _ h => h.erase) dest
  · obtain ⟨e, hrun⟩ := redriveDocument_lost (P := P) (p := p)
      (fun dest hdest => hplace ⟨dest, hdest⟩) σ
    rw [hrun]
    exact h

theorem redriveFile_forGood (n : ℕ) (hp : extension p = some recordExt) :
    Keeps (ForGood P s) (redriveFile P n p) := by
  refine keeps_readFile_bind fun τ text hτ hread => ?_
  cases hparse : Document.parse P.yaml text with
  | error e =>
    have hset : Keeps (ForGood P s) (setAside p) := by
      refine Keeps.state_bind fun υ hυ => ?_
      unfold Tree.rename
      cases υ.staging.lookup p with
      | none => exact hυ
      | some g => exact ⟨hυ.closed.of_staging rfl rfl fun _ hd => hd.erase, hυ.shares⟩
    exact hset.bind (fun _ => Keeps.pure _) τ hτ
  | ok d =>
    obtain ⟨f, hf, hd⟩ := carries_of_read hread hparse
    have hrun := redriveDocument_forGood hτ hp hf hd
    show ForGood P s ((redriveDocument P p d >>= fun _ => (Pure.pure (n + 1) : StoreM ℕ)) τ).2
    rw [bind_apply]
    cases hx : redriveDocument P p d τ with
    | mk res υ =>
      rw [hx] at hrun
      cases res <;> exact hrun

/-- **A sweep lasts.** -/
theorem sweep_forGood : Keeps (ForGood P s) (sweep P env) := by
  have hstaging : Keeps (ForGood P s) (redriveStaging P env) :=
    Keeps.state_bind fun τ hτ => Keeps.foldlM (fun n p hp =>
      redriveFile_forGood n (Tree.mem_walkFiles.1 (List.mem_filter.1 hp).1).2) 0 τ hτ
  have hfile : ∀ n p, extension p = some recordExt → Keeps (ForGood P s) (indexUnindexed P n p) := by
    intro n p hp
    refine keeps_readFile_bind fun τ text hτ hread => ?_
    cases hparse : Document.parse P.yaml text with
    | error e => exact hτ
    | ok d =>
      have hdoc := FileDoc.of_read hp hread hparse
      exact (commit_forGood (hτ.closed.not_sealsFor hdoc)).bind (fun _ => Keeps.pure _) τ hτ
  have htree : Keeps (ForGood P s) (indexTheUnindexed P env) :=
    Keeps.state_bind fun τ hτ => Keeps.foldlM (fun n p hp =>
      hfile n p (Tree.mem_walkFiles.1 (List.mem_filter.1 hp).1).2) 0 τ hτ
  have hheads : Keeps (ForGood P s) (repairTimelineHeads env) :=
    fun τ hτ => ⟨closed_derived.entities τ _ hτ.closed, hτ.shares⟩
  have hclaims : Keeps (ForGood P s) (reclaimFanout env) :=
    fun τ hτ => ⟨closed_derived.index τ _ hτ.closed, hτ.shares⟩
  exact hstaging.bind fun _ => htree.bind fun _ => hheads.bind fun _ => hclaims.bind fun _ =>
    Keeps.pure _

variable {r : ActionRecord} {body : Text} {st : Stamp}

/-- Nothing is sealed for a subject that is marked. -/
theorem Admitted.not_sealsFor (h : Admitted P r body σ d st) (hm : tombstonePath s ∈ σ.keys) :
    ¬ SealsFor s d := by
  obtain ⟨rec, b⟩ := d
  obtain ⟨r', ss, -, -, -, hrec, hbody⟩ := h.record
  obtain rfl : rec = { r' with subjects := ss } := hrec
  rintro ⟨⟨n, hn, rfl⟩, hsealed⟩
  cases hbody with
  | plain => cases hsealed
  | dropped => cases hsealed
  | «sealed» hd b epoch shares some_share live => exact live n hn hm

/-- A file of prose names whom its record names. -/
theorem subjects_of_carries_plain (hY : P.yaml.Inverts) {r : ActionRecord} {b : Text}
    (hv : r.validate = .ok ()) {now : ℤ} (hc : Carries P ⟨fileBytes P ⟨r, .plain b⟩, now⟩ d) :
    d.record.subjects = r.subjects := by
  obtain ⟨text, ht, hd⟩ := hc
  obtain rfl := Utf8.encode_inj ht
  rw [parse_render_plain hY hv] at hd
  dsimp only at hd
  generalize (if b.getLast? = some '\r' then b.dropLast else b) = back at hd
  by_cases hsealed : isSealed back
  · rw [if_pos hsealed] at hd
    cases hblock : Crypto.parse back with
    | error e =>
      rw [hblock] at hd
      cases hd
    | ok block =>
      rw [hblock] at hd
      obtain rfl := Except.ok.inj hd
      rfl
  · rw [if_neg hsealed] at hd
    obtain rfl := Except.ok.inj hd
    rfl

/-- Nor does the file of what is admitted read as sealed for it. -/
theorem Admitted.file_not_sealsFor (hY : P.yaml.Inverts) (h : Admitted P r body σ d st)
    (hm : tombstonePath s ∈ σ.keys) {now : ℤ} {d' : Document}
    (hc : Carries P ⟨fileBytes P d, now⟩ d') : ¬ SealsFor s d' := by
  by_cases hi : r.dataClass = .internal
  · -- an internal record names nobody, whatever its prose looks like
    obtain ⟨hv, -, hb⟩ := h.internal hi
    obtain ⟨r', ss, hval, -, hcheck, hrec, -⟩ := h.record
    obtain ⟨-, -, hnone⟩ := checkSubjects_ok hcheck
    have hnobody : d.record.subjects = [] := by
      rw [hrec]
      exact hnone ((validated_ok hval).dataClass.trans hi)
    obtain ⟨rec, b⟩ := d
    obtain rfl : b = .plain body := hb
    rintro ⟨⟨n, hn, -⟩, -⟩
    rw [subjects_of_carries_plain hY hv hc, hnobody] at hn
    cases hn
  · obtain ⟨text, ht, hd'⟩ := hc
    obtain rfl := Utf8.encode_inj ht
    have hkept : KeptBody r body := fun hi' => absurd hi' hi
    have hback := h.reads_back hY hkept
    obtain rfl := Except.ok.inj (hback.symm.trans hd')
    exact h.not_sealsFor hm

theorem Closed.onlyKeys {τ : Store} (h : Closed P s σ) (hk : OnlyKeys σ τ) : Closed P s τ := by
  obtain ⟨t, rfl, ht⟩ := hk
  exact h.congr (fun hm => (ht.2 s).2 hm) rfl rfl rfl

/-- **A write lasts**, whatever it writes and however it ends. -/
theorem accept_forGood (hY : P.yaml.Inverts) (r : ActionRecord) (body : Text) :
    Keeps (ForGood P s) (accept P env r body) := by
  intro σ h
  have hstep := accept_step P env r body σ
  generalize (accept P env r body σ).1 = res at hstep
  generalize (accept P env r body σ).2 = σ' at hstep
  have hplaced : ∀ (d : Document) (st : Stamp) (dest : Path) (σ₁ : Store), Admitted P r body σ d st →
      OnlyKeys σ σ₁ → Closed P s (placedIn P env d dest σ₁) := fun d st dest σ₁ as_ hk =>
    (h.closed.onlyKeys hk).insert (fun d' hc => as_.file_not_sealsFor hY h.closed.marked hc)
      (fun _ h => h.unstaged) dest
  cases hstep with
  | duplicate => exact h
  | refused e _ hkeys =>
    refine ⟨h.closed.onlyKeys hkeys, ?_⟩
    obtain ⟨t, rfl, -⟩ := hkeys
    exact h.shares
  | held r' st block σ₁ _ _ hkeys =>
    have hclosed := h.closed.onlyKeys hkeys
    obtain ⟨t, rfl, -⟩ := hkeys
    exact ⟨hclosed.of_staging rfl rfl fun _ hd => hd, h.shares⟩
  | unindexed d st dest σ₁ e as_ hkeys =>
    refine ⟨hplaced d st dest σ₁ as_ hkeys, ?_⟩
    obtain ⟨t, rfl, -⟩ := hkeys
    exact h.shares
  | stored d st dest σ₁ row ms as_ hkeys =>
    have hclosed := hplaced d st dest σ₁ as_ hkeys
    obtain ⟨t, rfl, -⟩ := hkeys
    refine ⟨hclosed.of_staging rfl rfl fun _ hd => hd, ?_⟩
    exact @shareless_of_not_sealsFor s d σ.index row ms h.shares (as_.not_sealsFor h.closed.marked)

theorem drainFanout_forGood (maxJobs : ℕ) : Keeps (ForGood P s) (drainFanout P env maxJobs) := by
  intro σ h
  have hsame := drainFanout_frame P env maxJobs σ
  refine ⟨h.closed.congr (fun hm => ?_) hsame.records hsame.staging hsame.quarantine, ?_⟩
  · rw [hsame.keys]
    exact hm
  · intro row hrow
    rw [hsame.subjects] at hrow
    exact h.shares row hrow

/-! ## The erasure -/

/-- Every staged copy of a sealed body of the subject is of a record that is published, or
    that the erasure publishes from a copy held back. -/
def SafelyStaged (P : Pipeline) (s : SubjectHash) (σ : Store) : Prop :=
  ∀ d dest, FileDoc P σ.staging d → SealsFor s d → destination d.record = .ok dest →
    dest ∈ σ.records ∨ ∃ d', FileDoc P σ.quarantine d' ∧ d'.record.names s ∧
      destination d'.record = .ok dest

/-- What an erasure has before it once the subject is marked. -/
theorem SafelyStaged.pending (h : SafelyStaged P s σ) {τ : Store} (hm : tombstonePath s ∈ τ.keys)
    (hrecords : τ.records = σ.records) (hstaging : τ.staging = σ.staging)
    (hspool : τ.quarantine = σ.quarantine) :
    Pending P s (τ.records.walkFiles recordExt) (τ.quarantine.walkFiles recordExt) τ := by
  refine ⟨hm, fun p f d hp hf _ _ => ?_, fun d dest hd hs hdest => ?_⟩
  · exact Tree.mem_walkFiles.2 ⟨Tree.mem_iff_lookup.2 ⟨f, hf⟩, hp⟩
  · rw [hrecords, hspool]
    rcases h d dest (hstaging ▸ hd) hs hdest with hin | ⟨d', ⟨q, g, hq, hg, hc⟩, hn, hdest'⟩
    · exact .inl hin
    · exact .inr ⟨q, Tree.mem_walkFiles.2 ⟨Tree.mem_iff_lookup.2 ⟨g, hg⟩, hq⟩, g, d', hg, hc, hn,
        hdest'⟩

/-- **An erasure that goes through leaves nothing pending**, and no share. -/
theorem eraseWrites_forGood (hY : P.yaml.Inverts) (hsafe : SafelyStaged P s σ)
    (found : List ErasedRecord) : Triple (fun τ => τ = σ) (eraseWrites P env s found)
      (fun _ => ForGood P s) Undone := by
  -- the files are as they were until the first body is dropped
  let Same := fun τ : Store => τ.records = σ.records ∧ τ.staging = σ.staging ∧ τ.quarantine = σ.quarantine
  have hline : Triple (fun τ => τ = σ)
      (appendTombstone P (openingLine env.now env.ulid s found)) (fun _ => Same) Undone := by
    rintro τ rfl
    exact ⟨rfl, rfl, rfl⟩
  have hmark : Triple Same (keyed ((P.keys env).tombstone s))
      (fun _ τ => tombstonePath s ∈ τ.keys ∧ Same τ) Undone := by
    refine Triple.of_cases (fun τ τ' u hτ hx => ?_) fun _ _ _ _ _ => trivial
    obtain rfl : (keyed ((P.keys env).tombstone s) τ).2 = τ' := by rw [hx]
    refine ⟨?_, hτ⟩
    show tombstonePath s ∈ (if tombstonePath s ∈ τ.keys then τ.keys else
      τ.keys.write (tombstonePath s) [] _)
    split_ifs with hm
    · exact hm
    · exact (AList.mem_insert _).2 (.inl rfl)
  have hkeys : Triple (fun τ => tombstonePath s ∈ τ.keys ∧ Same τ) (keyed (destroySubject s))
      (fun _ τ => tombstonePath s ∈ τ.keys ∧ Same τ) Undone := by
    rintro τ ⟨hm, hτ⟩
    exact ⟨Tree.mem_removeDirAll.2 ⟨hm, not_under_tombstone s s⟩, hτ⟩
  refine hline.bind fun _ => hmark.bind fun _ => Triple.state_bind fun _ => ?_
  refine Triple.before ?_ fun _ h => h.1
  refine hkeys.bind fun _ => ?_
  have hdrop : Triple (fun τ => tombstonePath s ∈ τ.keys ∧ Same τ) (dropBodies P env s)
      (fun _ τ => Pending P s [] (σ.quarantine.walkFiles recordExt) τ ∧ τ.quarantine = σ.quarantine)
      Undone := by
    refine (dropBodies_pending hY σ.quarantine).before ?_
    rintro τ ⟨hm, hrecords, hstaging, hspool⟩
    exact ⟨hspool ▸ hsafe.pending hm hrecords hstaging hspool, hspool⟩
  have hsettle : Triple (fun τ => Pending P s [] (σ.quarantine.walkFiles recordExt) τ ∧
      τ.quarantine = σ.quarantine) (sweepQuarantine P env s) (fun _ => Closed P s) Undone := by
    refine (sweepQuarantine_pending hY).before ?_
    rintro τ ⟨hτ, hspool⟩
    exact hspool ▸ hτ
  refine hdrop.bind fun _ => hsettle.bind fun _ => ?_
  refine ((reindexAll_closed hY).conseq (fun _ h => h) (fun _ _ h => h) fun _ _ _ => trivial).bind
    fun _ => ?_
  exact ((verifyLive_keeps s).triple.conseq (fun _ h => h) (fun _ _ h => h) fun _ _ _ => trivial).bind
    fun _ => Triple.pure fun _ h => h

theorem eraseSubject_forGood (hY : P.yaml.Inverts) (hsafe : SafelyStaged P s σ) {rep : EraseReport}
    (herase : (eraseSubject P env s σ).1 = .ok rep) : ForGood P s (eraseSubject P env s σ).2 := by
  generalize hσ' : (eraseSubject P env s σ).2 = σ'
  replace herase : eraseSubject P env s σ = (.ok rep, σ') := Prod.ext herase hσ'
  rw [eraseSubject_eq] at herase
  obtain ⟨u, σ₁, h1, hrest⟩ := bind_eq_ok.1 herase
  obtain rfl : σ₁ = σ := by
    have hsame := refuseIfHeld_keeps (P := P) (I := (· = σ)) s σ rfl
    rwa [h1] at hsame
  obtain ⟨found, σ₂, h2, hwrites⟩ := bind_eq_ok.1 hrest
  obtain rfl : σ₂ = σ₁ := by
    have hsame := affected_keeps (P := P) (I := (· = σ₁)) s σ₁ rfl
    rwa [h2] at hsame
  exact (eraseWrites_forGood hY hsafe found).ok rfl hwrites

/-! ## Runs -/

/-- What can come after an erasure. -/
inductive NextStep where
  | sweep (env : Env)
  | accept (env : Env) (r : ActionRecord) (body : Text)
  | drainFanout (env : Env) (maxJobs : ℕ)
  | reindexAll (env : Env)

def NextStep.run (P : Pipeline) (σ : Store) : NextStep → Store
  | .sweep env => (Core.sweep P env σ).2
  | .accept env r body => (Core.accept P env r body σ).2
  | .drainFanout env maxJobs => (Core.drainFanout P env maxJobs σ).2
  | .reindexAll env => (Core.reindexAll P env σ).2

def NextStep.runAll (P : Pipeline) : Store → List NextStep → Store
  | σ, [] => σ
  | σ, a :: as => runAll P (a.run P σ) as

theorem ForGood.step (hY : P.yaml.Inverts) (h : ForGood P s σ) (a : NextStep) :
    ForGood P s (a.run P σ) := by
  cases a with
  | sweep env => exact sweep_forGood σ h
  | accept env r body => exact accept_forGood hY r body σ h
  | drainFanout env maxJobs => exact drainFanout_forGood maxJobs σ h
  | reindexAll env => exact reindexAll_forGood hY σ h

theorem ForGood.run (hY : P.yaml.Inverts) (h : ForGood P s σ) (as : List NextStep) :
    ForGood P s (NextStep.runAll P σ as) := by
  induction as generalizing σ with
  | nil => exact h
  | cons a as ih => exact ih (h.step hY a)

/-- **An erasure lasts.**  When every staged copy of a sealed body of the subject is of a
    record that is published, or that the erasure publishes, then no run of sweeps, writes,
    drains and rebuilds after it brings back a sealed body or a share. -/
theorem erased_for_good (hY : P.yaml.Inverts) {rep : EraseReport}
    (herase : (eraseSubject P env s σ).1 = .ok rep) (hsafe : SafelyStaged P s σ)
    (as : List NextStep) : Emptied P s (NextStep.runAll P (eraseSubject P env s σ).2 as) := by
  have hrun := (eraseSubject_forGood hY hsafe herase).run hY as
  exact ⟨fun d hd => hrun.closed.not_sealsFor hd, hrun.shares⟩

/-! ## Copies of a write that stopped -/

section
set_option maxRecDepth 4000

/-- A store with a sealed body of a subject: the write of it stopped at a window. -/
def storeAt (w : Window) : Store :=
  (acceptUntil (deployment declaredSubjects) (quietEnv 0) w
    (subjectRecord (ulid 'A' isCrockfordDigit_A) "2026-01-01T00:00:00Z".toList someSubject) "secret".toList
    emptyStore).2

theorem erased_for_good_settled :
    Emptied (deployment declaredSubjects) someSubject
      (NextStep.runAll (deployment declaredSubjects)
        (eraseSubject (deployment declaredSubjects) (quietEnv 1) someSubject (storeAt .settled)).2
        [.sweep (quietEnv 100000), .reindexAll (quietEnv 100001)]) := by
  have hok : (eraseSubject (deployment declaredSubjects) (quietEnv 1) someSubject
      (storeAt .settled)).1.toOption.isSome = true := by decide +kernel
  obtain ⟨rep, hrep⟩ := Option.isSome_iff_exists.1 hok
  refine erased_for_good Md.reader_inverts (ok_of_toOption hrep) ?_ _
  have hnone : (storeAt .settled).staging.keys = [] := by decide +kernel
  rintro d dest ⟨p, f, -, hf, -⟩
  have hp := AList.mem_keys.1 (Tree.mem_iff_lookup.2 ⟨f, hf⟩)
  rw [hnone] at hp
  cases hp

/-- **A copy that a crash left staged comes back**: the erasure goes through, and the next
    sweep publishes the sealed body and its share. -/
theorem staged_copy_comes_back :
    ∃ rep, (eraseSubject (deployment declaredSubjects) (quietEnv 1) someSubject
      (storeAt .staged)).1 = .ok rep ∧
    ¬ Emptied (deployment declaredSubjects) someSubject
      (NextStep.runAll (deployment declaredSubjects)
        (eraseSubject (deployment declaredSubjects) (quietEnv 1) someSubject (storeAt .staged)).2
        [.sweep (quietEnv 100000)]) := by
  have hok : (eraseSubject (deployment declaredSubjects) (quietEnv 1) someSubject
      (storeAt .staged)).1.toOption.isSome = true := by decide +kernel
  have hrow : ∃ row ∈ (NextStep.runAll (deployment declaredSubjects)
      (eraseSubject (deployment declaredSubjects) (quietEnv 1) someSubject (storeAt .staged)).2
      [.sweep (quietEnv 100000)]).index.subjects,
        row.subject = someSubject ∧ row.wrappedKeyShare ≠ none := by decide +kernel
  obtain ⟨rep, hrep⟩ := Option.isSome_iff_exists.1 hok
  obtain ⟨row, hmem, hs, hne⟩ := hrow
  exact ⟨rep, ok_of_toOption hrep, fun h => hne (h.shares row hmem hs)⟩

end

end Yaam.Core
