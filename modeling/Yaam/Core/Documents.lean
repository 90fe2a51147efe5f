/-
  The documents that a store's files hold, and what the passes over the files do to
  them.

  * `FileDoc` says that a file of a directory parses to a document;
  * `Replayable` are the documents a replay of the erasures can leave, and
    `replayTombstones_replayed` says that it moves documents and empties bodies, and makes
    no others.
-/
import Yaam.Core.Sweep

namespace Yaam.Core

open Text Contract Crypto Md Eff

variable {P : Pipeline} {env : Env}

/-- A file whose text parses to a document. -/
def Carries (P : Pipeline) (f : File) (d : Document) : Prop :=
  ∃ text, f.content = Utf8.encode text ∧ Document.parse P.yaml text = .ok d

/-- A record file of a directory that parses to a document. -/
def FileDoc (P : Pipeline) (t : Tree) (d : Document) : Prop :=
  ∃ p f, extension p = some recordExt ∧ t.lookup p = some f ∧ Carries P f d

theorem Carries.valid {f : File} {d : Document} (h : Carries P f d) : d.record.validate = .ok () := by
  obtain ⟨text, -, hd⟩ := h
  exact Document.parse_validate hd

theorem FileDoc.valid {t : Tree} {d : Document} (h : FileDoc P t d) : d.record.validate = .ok () := by
  obtain ⟨p, f, -, -, hf⟩ := h
  exact hf.valid

/-- A file carries one document at most. -/
theorem Carries.unique {f : File} {d d' : Document} (h : Carries P f d) (h' : Carries P f d') :
    d = d' := by
  obtain ⟨t, ht, hd⟩ := h
  obtain ⟨t', ht', hd'⟩ := h'
  obtain rfl := Utf8.encode_inj (ht.symm.trans ht')
  exact Except.ok.inj (hd.symm.trans hd')

/-- What is read from a file and parsed is what the file carries. -/
theorem carries_of_read {t : Tree} {p : Path} {text : Text} {d : Document}
    (hread : t.readToString p = .ok text) (hd : Document.parse P.yaml text = .ok d) :
    ∃ f, t.lookup p = some f ∧ Carries P f d := by
  obtain ⟨f, hf, hc⟩ := Tree.readToString_ok.1 hread
  exact ⟨f, hf, text, hc, hd⟩

theorem FileDoc.of_read {t : Tree} {p : Path} {text : Text} {d : Document}
    (hp : extension p = some recordExt) (hread : t.readToString p = .ok text)
    (hd : Document.parse P.yaml text = .ok d) : FileDoc P t d := by
  obtain ⟨f, hf, hc⟩ := carries_of_read hread hd
  exact ⟨p, f, hp, hf, hc⟩

/-- A document without prose and without its body. -/
def emptied (d : Document) : Document := ⟨d.record.bare, .plain []⟩

/-- The file of a document without its body carries the emptied document. -/
theorem carries_structureOf (hY : P.yaml.Inverts) {d d' : Document}
    (hv : d.record.validate = .ok ()) {now : ℤ}
    (h : Carries P ⟨fileBytes P (structureOf d), now⟩ d') : d' = emptied d := by
  obtain ⟨text, ht, hd⟩ := h
  obtain rfl := Utf8.encode_inj ht
  have hparse : Document.parse P.yaml (Document.render P.yaml (structureOf d)) = .ok (emptied d) := by
    rw [structureOf, parse_render_plain hY hv]
    rfl
  exact Except.ok.inj (hd.symm.trans hparse)

/-! ## Directories -/

variable {t : Tree} {d : Document}

theorem FileDoc.insert {p : Path} {f : File} (h : FileDoc P (t.insert p f) d) :
    FileDoc P t d ∨ Carries P f d := by
  obtain ⟨q, g, hq, hg, hd⟩ := h
  by_cases hqp : q = p
  · subst hqp
    rw [AList.lookup_insert] at hg
    obtain rfl := Option.some.inj hg
    exact .inr hd
  · rw [AList.lookup_insert_ne hqp] at hg
    exact .inl ⟨q, g, hq, hg, hd⟩

theorem FileDoc.erase {p : Path} (h : FileDoc P (t.erase p) d) : FileDoc P t d := by
  obtain ⟨q, g, hq, hg, hd⟩ := h
  by_cases hqp : q = p
  · subst hqp
    rw [AList.lookup_erase] at hg
    cases hg
  · rw [AList.lookup_erase_ne hqp] at hg
    exact ⟨q, g, hq, hg, hd⟩

theorem extension_temporary {p : Path} (hp : extension p = some recordExt) :
    extension (withExtension p "tmp".toList) = some "tmp".toList :=
  extension_withExtension (by decide) hp

theorem FileDoc.replaceAtomically {p : Path} {bytes : Bytes} {now : ℤ}
    (hp : extension p = some recordExt) (h : FileDoc P (t.replaceAtomically p bytes now) d) :
    FileDoc P t d ∨ Carries P ⟨bytes, now⟩ d := by
  obtain ⟨q, g, hq, hg, hd⟩ := h
  by_cases hqp : q = p
  · subst hqp
    rw [Tree.lookup_replaceAtomically] at hg
    obtain rfl := Option.some.inj hg
    exact .inr hd
  · have hqt : q ≠ withExtension p "tmp".toList := by
      rintro rfl
      rw [extension_temporary hp] at hq
      exact absurd (Option.some.inj hq) (by decide)
    rw [Tree.lookup_replaceAtomically_of_ne t bytes now hqp hqt] at hg
    exact .inl ⟨q, g, hq, hg, hd⟩

/-- What is read decides how a computation goes on. -/
theorem keeps_readFile_bind {β : Type} {I : Store → Prop} {dir : Store → Tree} {p : Path}
    {f : Text → StoreM β}
    (h : ∀ s text, I s → (dir s).readToString p = .ok text → I (f text s).2) :
    Keeps I (readFile dir p >>= f) := by
  intro s hs
  show I ((readFile dir p >>= f) s).2
  rw [bind_apply, readFile, state_bind]
  cases hread : (dir s).readToString p with
  | ok text => exact h s text hs hread
  | error e => exact hs

/-! ## Replaying the erasures -/

/-- An erasure of the subject is on record. -/
def OnRecord (P : Pipeline) (σ : Store) (s : SubjectHash) : Prop :=
  ∃ es, LineLog.entries P.tombstoneLine σ.tombstoneLog = .ok es ∧
    ∃ e ∈ es, SubjectHash.parse e.subject = .ok s

/-- A document a replay of the erasures can leave in the tree: one of the tree, or one
    of the tree or held back over an erased subject, without its body. -/
inductive Replayable (P : Pipeline) (σ : Store) : Document → Prop
  | file (d : Document) (h : FileDoc P σ.records d) : Replayable P σ d
  | dropped (d : Document) (h : FileDoc P σ.records d) : Replayable P σ (emptied d)
  | held (d : Document) (h : FileDoc P σ.quarantine d) (s : SubjectHash) (erased : OnRecord P σ s)
      (names : d.record.names s) : Replayable P σ (emptied d)

theorem emptied_emptied (d : Document) : emptied (emptied d) = emptied d := rfl

theorem Replayable.emptied {σ : Store} {d : Document} (h : Replayable P σ d) :
    Replayable P σ (emptied d) := by
  cases h with
  | file d h => exact .dropped d h
  | dropped d h => exact .dropped d h
  | held d h s he hn => exact .held d h s he hn

/-- What a replay leaves: index, manifests and log as they were, and no new documents. -/
structure Replayed (P : Pipeline) (σ σ' : Store) : Prop where
  index : σ'.index = σ.index
  cold : σ'.cold = σ.cold
  tombstoneLog : σ'.tombstoneLog = σ.tombstoneLog
  records : ∀ d, FileDoc P σ'.records d → Replayable P σ d
  quarantine : ∀ d, FileDoc P σ'.quarantine d → FileDoc P σ.quarantine d

theorem Replayed.refl (σ : Store) : Replayed P σ σ :=
  ⟨rfl, rfl, rfl, fun d h => .file d h, fun _ h => h⟩

variable {σ : Store}

/-- An operation on the keys touches no document. -/
theorem Replayed.keyed {α : Type} (x : Eff Tree Crypto.Error α) :
    Keeps (Replayed P σ) (keyed x) :=
  fun _ h => ⟨h.index, h.cold, h.tombstoneLog, h.records, h.quarantine⟩

theorem dropBody_replayed (hY : P.yaml.Inverts) (s : SubjectHash) (n : ℕ) {p : Path}
    (hp : extension p = some recordExt) : Keeps (Replayed P σ) (dropBody P env s n p) := by
  refine keeps_readFile_bind fun st text hst hread => ?_
  cases hd : Document.parse P.yaml text with
  | error e => exact hst
  | ok d =>
    have hdoc : FileDoc P st.records d := FileDoc.of_read hp hread hd
    dsimp only
    split_ifs
    · exact hst
    · refine ⟨hst.index, hst.cold, hst.tombstoneLog, fun d' h => ?_, hst.quarantine⟩
      rcases h.replaceAtomically hp with h | h
      · exact hst.records d' h
      · rw [carries_structureOf hY hdoc.valid h]
        exact (hst.records d hdoc).emptied

theorem dropBodies_replayed (hY : P.yaml.Inverts) (s : SubjectHash) :
    Keeps (Replayed P σ) (dropBodies P env s) := by
  refine Keeps.state_bind fun st hst => ?_
  exact Keeps.foldlM (fun n p hp => dropBody_replayed hY s n (Tree.mem_walkFiles.1 hp).2) 0 st hst

theorem publishStructureOnly_replayed (hY : P.yaml.Inverts) {held : Document}
    (hv : held.record.validate = .ok ()) (hheld : Replayable P σ (emptied held)) :
    Keeps (Replayed P σ) (publishStructureOnly P env held) := by
  refine (Keeps.ofExcept _).bind fun st => ?_
  cases hdest : publishedPath (structureOf held).record st with
  | error e => exact Keeps.fail _
  | ok dest =>
    rw [ofExcept_ok_bind]
    refine Keeps.state_bind fun s hs => ?_
    split_ifs
    · exact hs
    · simp only [bind_of_ok (stage_apply _ _), bind_of_ok (place_stagedIn hdest _)]
      refine ⟨hs.index, hs.cold, hs.tombstoneLog, fun d h => ?_, hs.quarantine⟩
      rcases h.insert with h | h
      · exact hs.records d h
      · rw [carries_structureOf hY hv h]
        exact hheld

theorem settleHeld_replayed (hY : P.yaml.Inverts) {s : SubjectHash} (hs : OnRecord P σ s) (n : ℕ)
    {p : Path} (hp : extension p = some recordExt) :
    Keeps (Replayed P σ) (settleHeld P env s n p) := by
  refine keeps_readFile_bind fun st text hst hread => ?_
  cases hd : Document.parse P.yaml text with
  | error e => exact hst
  | ok d =>
    have hdoc : FileDoc P st.quarantine d := FileDoc.of_read hp hread hd
    dsimp only
    split_ifs with hn
    · have hheld : Replayable P σ (emptied d) := .held d (hst.quarantine d hdoc) s hs hn
      refine Keeps.bind (publishStructureOnly_replayed hY hdoc.valid hheld) (fun _ => ?_) st hst
      exact Keeps.bind (Keeps.change fun u hu => ⟨hu.index, hu.cold, hu.tombstoneLog, hu.records,
        fun d h => hu.quarantine d h.erase⟩) fun _ => Keeps.pure _
    · exact hst

theorem sweepQuarantine_replayed (hY : P.yaml.Inverts) {s : SubjectHash} (hs : OnRecord P σ s) :
    Keeps (Replayed P σ) (sweepQuarantine P env s) := by
  refine Keeps.state_bind fun st hst => ?_
  exact Keeps.foldlM
    (fun n p hp => settleHeld_replayed hY hs n (Tree.mem_walkFiles.1 hp).2) 0 st hst

theorem firstLines_subset (seen : List Text) (es : List Tombstone) :
    ∀ e ∈ firstLines seen es, e ∈ es := by
  induction es generalizing seen with
  | nil => simp [firstLines]
  | cons x es ih =>
    intro e he
    rw [firstLines] at he
    split_ifs at he with hx
    · exact List.mem_cons_of_mem _ (ih _ e he)
    · rcases List.mem_cons.1 he with rfl | he
      · exact List.mem_cons_self
      · exact List.mem_cons_of_mem _ (ih _ e he)

/-- Reading the log changes nothing. -/
theorem readLog_bind {β : Type} (f : List Tombstone → StoreM β) (σ : Store) :
    (readLog P >>= f) σ = match LineLog.entries P.tombstoneLine σ.tombstoneLog with
      | .ok es => f es σ
      | .error e => (.error (.io e), σ) := by
  rw [bind_apply, readLog, state_bind]
  cases LineLog.entries P.tombstoneLine σ.tombstoneLog <;> rfl

theorem replayTombstone_replayed (hY : P.yaml.Inverts) {es : List Tombstone} {e : Tombstone}
    (hes : LineLog.entries P.tombstoneLine σ.tombstoneLog = .ok es) (he : e ∈ es) :
    Keeps (Replayed P σ) (replayTombstone P env e) := by
  unfold replayTombstone
  cases hs : SubjectHash.parse e.subject with
  | error err => exact Keeps.fail _
  | ok s =>
    have hrecord : OnRecord P σ s := ⟨es, hes, e, he, hs⟩
    have hlift : liftContract (Except.ok s : Except Contract.Error SubjectHash) = .ok s := rfl
    rw [hlift, ofExcept_ok_bind]
    exact (Replayed.keyed _).bind fun _ => (Replayed.keyed _).bind fun _ =>
      (dropBodies_replayed hY s).bind fun _ => (sweepQuarantine_replayed hY hrecord).bind fun _ =>
        Keeps.pure _

/-- **A replay of the erasures makes no new documents.** -/
theorem replayTombstones_replayed (hY : P.yaml.Inverts) (env : Env) (σ : Store) :
    Replayed P σ (replayTombstones P env σ).2 := by
  unfold replayTombstones
  rw [readLog_bind]
  cases hes : LineLog.entries P.tombstoneLine σ.tombstoneLog with
  | error e => exact Replayed.refl σ
  | ok es =>
    have hrun : Keeps (Replayed P σ) ((firstLines [] es).forM (replayTombstone P env)) :=
      Keeps.forM fun e he => replayTombstone_replayed hY hes (firstLines_subset [] es e he)
    exact Keeps.bind hrun (fun _ => Keeps.pure _) σ (Replayed.refl σ)

end Yaam.Core
