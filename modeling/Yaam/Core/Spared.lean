/-
  What the erasure of one subject leaves of another's bodies.

  * `Spared` says that a subject's keys, its marker, and the files that name nobody
    else stand as they stood;
  * `eraseSubject_spares`: an erasure spares every other subject that no erasure on
    record names, however far it gets;
  * `Spared.unseal_eq`: what is spared unseals as before.
-/
import Yaam.Core.Documents
import Yaam.Core.Frames
import Yaam.Crypto.Unseal

namespace Yaam.Core

open Text Contract Crypto Md Eff

/-- A document names this subject and nobody else. -/
def NamesOnly (s : SubjectHash) (d : Document) : Prop :=
  d.record.subjects ≠ [] ∧ ∀ n ∈ d.record.subjects, n.hash = s

/-- No erasure on record names the subject. -/
def Unlogged (P : Pipeline) (s : SubjectHash) (log : Option Bytes) : Prop :=
  ∀ es, LineLog.entries P.tombstoneLine log = .ok es → ∀ e ∈ es, e.subject ≠ s.text

/-- The record files of a directory that carry a document naming one subject only. -/
def FilesOf (P : Pipeline) (s : SubjectHash) (t : Tree) (p : Path) (f : File) : Prop :=
  extension p = some recordExt ∧ t.lookup p = some f ∧ ∃ d, Carries P f d ∧ NamesOnly s d

/-- What opening a subject's bodies takes stands as it stood. -/
structure Spared (P : Pipeline) (s : SubjectHash) (σ σ' : Store) : Prop where
  keys : ∀ e p, keyPath s e = .ok p → σ'.keys.lookup p = σ.keys.lookup p
  marker : tombstonePath s ∈ σ'.keys ↔ tombstonePath s ∈ σ.keys
  records : ∀ p f, FilesOf P s σ.records p f → σ'.records.lookup p = some f
  quarantine : ∀ p f, FilesOf P s σ.quarantine p f → σ'.quarantine.lookup p = some f

variable {P : Pipeline} {env : Env} {s s' : SubjectHash} {σ : Store}

theorem NamesOnly.not_names {d : Document} (h : NamesOnly s' d) (hs : s ≠ s') :
    ¬ d.record.names s := by
  rintro ⟨n, hn, rfl⟩
  exact hs (h.2 n hn)

theorem Spared.refl (s : SubjectHash) (σ : Store) : Spared P s σ σ :=
  ⟨fun _ _ _ => rfl, Iff.rfl, fun _ _ h => h.2.1, fun _ _ h => h.2.1⟩

/-! ## Keys -/

theorem Spared.tombstone (hs : s ≠ s') :
    Keeps (Spared P s' σ) (keyed ((P.keys env).tombstone s)) := by
  have hother : ∀ t : Tree, ∀ p : Path, p ≠ tombstonePath s →
      ((P.keys env).tombstone s t).2.lookup p = t.lookup p := by
    intro t p hp
    show (if tombstonePath s ∈ t then t else t.write (tombstonePath s) [] _).lookup p = _
    split_ifs
    · rfl
    · rw [Tree.write, AList.lookup_insert_ne hp]
  have hmark : tombstonePath s' ≠ tombstonePath s := by
    intro h
    have htext : s'.text = s.text := by simpa [tombstonePath] using h
    exact hs (SubjectHash.ext_text htext.symm)
  intro u hu
  refine ⟨fun e p hp => ?_, ?_, hu.records, hu.quarantine⟩
  · rw [← hu.keys e p hp]
    refine hother u.keys p fun h => ?_
    rw [keyPath_ok hp] at h
    simp [tombstonePath, subjectDir] at h
  · rw [← hu.marker, Tree.mem_iff_lookup, Tree.mem_iff_lookup, ← hother u.keys _ hmark]
    rfl

theorem Spared.destroySubject (hs : s ≠ s') :
    Keeps (Spared P s' σ) (keyed (destroySubject s)) := by
  have hother : ∀ t : Tree, ∀ p : Path, ¬ Tree.Under (subjectDir s) p →
      (t.removeDirAll (subjectDir s)).lookup p = t.lookup p := by
    intro t p hp
    rw [Tree.lookup_removeDirAll, if_neg hp]
  intro u hu
  refine ⟨fun e p hp => ?_, ?_, hu.records, hu.quarantine⟩
  · rw [← hu.keys e p hp]
    exact hother u.keys p (not_under_keyPath hs hp)
  · rw [← hu.marker, Tree.mem_iff_lookup, Tree.mem_iff_lookup,
      ← hother u.keys _ (not_under_tombstone s s')]
    rfl

/-! ## Record files -/

/-- A file that names the subject alone is not one that names another. -/
theorem FilesOf.ne {t u : Tree} {p q : Path} {f : File} {text : Text} {d : Document}
    (h : FilesOf P s' t p f) (hu : u.lookup p = some f) (hread : u.readToString q = .ok text)
    (hd : Document.parse P.yaml text = .ok d) (hn : d.record.names s) (hs : s ≠ s') : p ≠ q := by
  rintro rfl
  obtain ⟨-, -, d', hd', honly⟩ := h
  obtain ⟨g, hg, hc⟩ := carries_of_read hread hd
  obtain rfl := Option.some.inj (hu.symm.trans hg)
  obtain rfl := hd'.unique hc
  exact honly.not_names hs hn

theorem dropBody_spares (hs : s ≠ s') (n : ℕ) {p : Path} (hp : extension p = some recordExt) :
    Keeps (Spared P s' σ) (dropBody P env s n p) := by
  refine keeps_readFile_bind fun u text hu hread => ?_
  cases hd : Document.parse P.yaml text with
  | error e => exact hu
  | ok d =>
    dsimp only
    split_ifs with h
    · exact hu
    · have hn : d.record.names s := not_not.1 fun hn => h (.inl hn)
      refine ⟨hu.keys, hu.marker, fun q f hq => ?_, hu.quarantine⟩
      have hqu := hu.records q f hq
      -- the temporary sibling is no record file
      have htmp : q ≠ withExtension p "tmp".toList := by
        rintro rfl
        have hext := hq.1.symm.trans (extension_withExtension (by decide) hp)
        exact absurd hext (by decide)
      rw [← hqu]
      exact Tree.lookup_replaceAtomically_of_ne _ _ _ (hq.ne hqu hread hd hn hs) htmp

theorem dropBodies_spares (hs : s ≠ s') : Keeps (Spared P s' σ) (dropBodies P env s) :=
  Keeps.state.bind fun _ =>
    Keeps.foldlM (fun n _ hp => dropBody_spares hs n (Tree.mem_walkFiles.1 hp).2) 0

/-- Publishing what was held back overwrites no record file. -/
theorem publishStructureOnly_spares (held : Document) :
    Keeps (Spared P s' σ) (publishStructureOnly P env held) := by
  refine (Keeps.ofExcept _).bind fun st => ?_
  cases hdest : publishedPath (structureOf held).record st with
  | error e => exact Keeps.fail _
  | ok dest =>
    rw [ofExcept_ok_bind]
    refine Keeps.state_bind fun u hu => ?_
    split_ifs with hin
    · exact hu
    · simp only [bind_of_ok (stage_apply _ _), bind_of_ok (place_stagedIn hdest _)]
      refine ⟨hu.keys, hu.marker, fun q f hq => ?_, hu.quarantine⟩
      have hqu := hu.records q f hq
      have hne : q ≠ dest := by
        rintro rfl
        exact hin (Tree.mem_iff_lookup.2 ⟨f, hqu⟩)
      rw [← hqu]
      exact AList.lookup_insert_ne hne

theorem settleHeld_spares (hs : s ≠ s') (n : ℕ) (p : Path) :
    Keeps (Spared P s' σ) (settleHeld P env s n p) := by
  refine keeps_readFile_bind fun u text hu hread => ?_
  cases hd : Document.parse P.yaml text with
  | error e => exact hu
  | ok d =>
    dsimp only
    split_ifs with hn
    · -- the copy that goes was read as naming the erased subject
      have hne : ∀ q f, FilesOf P s' σ.quarantine q f → q ≠ p := fun q f hq =>
        hq.ne (hu.quarantine q f hq) hread hd hn hs
      refine Keeps.bind (publishStructureOnly_spares d) (fun _ => ?_) u hu
      refine Keeps.bind (Keeps.change fun v hv => ?_) fun _ => Keeps.pure _
      refine ⟨hv.keys, hv.marker, hv.records, fun q f hq => ?_⟩
      exact (AList.lookup_erase_ne (hne q f hq)).trans (hv.quarantine q f hq)
    · exact hu

theorem sweepQuarantine_spares (hs : s ≠ s') : Keeps (Spared P s' σ) (sweepQuarantine P env s) :=
  Keeps.state.bind fun _ => Keeps.foldlM (fun n p _ => settleHeld_spares hs n p) 0

/-! ## Replay, and the rebuild -/

/-- The log reads this, and spares the subject unless it names it. -/
structure Kept (P : Pipeline) (s : SubjectHash) (σ : Store) (log : Option Bytes) (σ' : Store) :
    Prop where
  logged : σ'.tombstoneLog = log
  spared : Unlogged P s log → Spared P s σ σ'

theorem Kept.both {log : Option Bytes} {α : Type} {x : StoreM α}
    (hlog : Keeps (fun u => u.tombstoneLog = log) x)
    (hx : Unlogged P s' log → Keeps (Spared P s' σ) x) : Keeps (Kept P s' σ log) x :=
  fun u hu => ⟨hlog u hu.logged, fun hl => hx hl u (hu.spared hl)⟩

theorem log_frame {log : Option Bytes} : BodyFrame fun u => u.tombstoneLog = log :=
  ⟨fun _ _ h => h, fun _ _ h => h, fun _ _ h => h⟩

/-- Keys, bodies and spool of a subject erased, whether now or again. -/
theorem Kept.erased (env : Env) {log : Option Bytes} (hs : Unlogged P s' log → s ≠ s') :
    Keeps (Kept P s' σ log) (keyed ((P.keys env).tombstone s)) ∧
      Keeps (Kept P s' σ log) (keyed (destroySubject s)) ∧
      Keeps (Kept P s' σ log) (dropBodies P env s) ∧
      Keeps (Kept P s' σ log) (sweepQuarantine P env s) :=
  ⟨.both (fun _ h => h) fun hl => Spared.tombstone (hs hl),
    .both (fun _ h => h) fun hl => Spared.destroySubject (hs hl),
    .both (dropBodies_keeps log_frame s) fun hl => dropBodies_spares (hs hl),
    .both (sweepQuarantine_keeps log_frame s) fun hl => sweepQuarantine_spares (hs hl)⟩

theorem replayTombstones_kept {log : Option Bytes} :
    Keeps (Kept P s' σ log) (replayTombstones P env) := by
  intro u hu
  unfold replayTombstones
  rw [readLog_bind, hu.logged]
  cases hes : LineLog.entries P.tombstoneLine log with
  | error e => exact hu
  | ok es =>
    have hreplay : ∀ e ∈ firstLines [] es, Keeps (Kept P s' σ log) (replayTombstone P env e) := by
      intro e he
      unfold replayTombstone
      cases hs : SubjectHash.parse e.subject with
      | error err => exact Keeps.fail _
      | ok s =>
        have hne : Unlogged P s' log → s ≠ s' := by
          rintro hl rfl
          exact hl es hes e (firstLines_subset [] es e he) (SubjectHash.parse_ok hs).symm
        obtain ⟨hmark, hkeys, hbodies, hspool⟩ := Kept.erased (σ := σ) env hne
        have hlift : liftContract (Except.ok s : Except Contract.Error SubjectHash) = .ok s := rfl
        rw [hlift, ofExcept_ok_bind]
        exact hmark.bind fun _ => hkeys.bind fun _ => hbodies.bind fun _ => hspool.bind fun _ =>
          Keeps.pure _
    exact Keeps.bind (Keeps.forM hreplay) (fun _ => Keeps.pure _) u hu

theorem Kept.derived {log : Option Bytes} : DerivedFrame (Kept P s' σ log) :=
  ⟨fun _ _ h => ⟨h.logged, fun hl => let k := h.spared hl; ⟨k.keys, k.marker, k.records, k.quarantine⟩⟩,
    fun _ _ h => ⟨h.logged, fun hl => let k := h.spared hl; ⟨k.keys, k.marker, k.records, k.quarantine⟩⟩⟩

theorem reindexAll_kept {log : Option Bytes} : Keeps (Kept P s' σ log) (reindexAll P env) :=
  replayTombstones_kept.bind fun _ => Keeps.state.bind fun _ => rebuild_keeps Kept.derived _ _

/-- What an erasure does once its line is on the log. -/
theorem eraseLogged_kept {log : Option Bytes} (hs : s ≠ s') (id : Text) :
    Keeps (Kept P s' σ log) (do
      keyed ((P.keys env).tombstone s)
      let keysDestroyed := keyFilesFor (← state).keys s
      keyed (destroySubject s)
      let bodiesSealedOff ← dropBodies P env s
      let quarantineSettled ← sweepQuarantine P env s
      let _ ← reindexAll P env
      verifyLive P s
      return (⟨bodiesSealedOff, keysDestroyed, quarantineSettled, id⟩ : EraseReport)) := by
  have hne : Unlogged P s' log → s ≠ s' := fun _ => hs
  obtain ⟨hmark, hkeys, hbodies, hspool⟩ := Kept.erased (σ := σ) env hne
  exact hmark.bind fun _ => Keeps.state.bind fun _ => hkeys.bind fun _ => hbodies.bind fun _ =>
    hspool.bind fun _ => reindexAll_kept.bind fun _ => (verifyLive_keeps s).bind fun _ =>
      Keeps.pure _

/-- **The erasure of one subject spares every other**, unless an erasure on record names
    it: whatever the erasure answers, and however far it got. -/
theorem eraseSubject_spares (hs : s ≠ s')
    (hlog : Unlogged P s' (eraseSubject P env s σ).2.tombstoneLog) :
    Spared P s' σ (eraseSubject P env s σ).2 := by
  have hkept : ∃ log, Kept P s' σ log (eraseSubject P env s σ).2 := by
    have hstart : Kept P s' σ σ.tombstoneLog σ := ⟨rfl, fun _ => Spared.refl s' σ⟩
    have hheld := refuseIfHeld_keeps (P := P) (I := (· = σ)) s σ rfl
    rw [eraseSubject]
    cases hh : refuseIfHeld P s σ with
    | mk r u =>
      obtain rfl : u = σ := by rwa [hh] at hheld
      cases r with
      | error e =>
        rw [bind_of_error hh]
        exact ⟨_, hstart⟩
      | ok _ =>
        have hfound := affected_keeps (P := P) (I := (· = u)) s u rfl
        rw [bind_of_ok hh]
        cases ha : affected P s u with
        | mk r v =>
          obtain rfl : v = u := by rwa [ha] at hfound
          cases r with
          | error e =>
            rw [bind_of_error ha]
            exact ⟨_, hstart⟩
          | ok records =>
            rw [bind_of_ok ha]
            exact ⟨_, eraseLogged_kept hs _ _ ⟨rfl, fun _ => ⟨fun _ _ _ => rfl, Iff.rfl,
              fun _ _ h => h.2.1, fun _ _ h => h.2.1⟩⟩⟩
  obtain ⟨log, hk⟩ := hkept
  exact hk.spared (hk.logged ▸ hlog)

/-! ## Reading what is spared -/

/-- A computation that changes nothing, and answers the same in either state. -/
def ReadsAlike {σ ε α : Type} (t u : σ) (x : Eff σ ε α) : Prop := ∃ r, x t = (r, t) ∧ x u = (r, u)

section
variable {τ ε α β : Type} {t u : τ}

theorem ReadsAlike.const {x : Eff τ ε α} {r : Except ε α} (h : ∀ v, x v = (r, v)) :
    ReadsAlike t u x := ⟨r, h t, h u⟩

theorem ReadsAlike.bind {x : Eff τ ε α} {f : α → Eff τ ε β} (hx : ReadsAlike t u x)
    (hf : ∀ a, ReadsAlike t u (f a)) : ReadsAlike t u (x >>= f) := by
  obtain ⟨r, ht, hu⟩ := hx
  cases r with
  | error e => exact ⟨.error e, bind_of_error ht f, bind_of_error hu f⟩
  | ok a =>
    obtain ⟨r, hft, hfu⟩ := hf a
    exact ⟨r, (bind_of_ok ht f).trans hft, (bind_of_ok hu f).trans hfu⟩

end

variable {t u : Tree}

/-- Reading a key depends on its file and on the subject's marker. -/
theorem get_readsAlike (K : FsKeyStore) (e : Epoch)
    (hkeys : ∀ p, keyPath s e = .ok p → u.lookup p = t.lookup p)
    (hmark : tombstonePath s ∈ u ↔ tombstonePath s ∈ t) : ReadsAlike t u (K.get s e) := by
  unfold FsKeyStore.get
  have hio : ∀ v, K.io .readKey s v = ((K.io .readKey s ∅).1, v) := by
    intro v
    unfold FsKeyStore.io
    cases K.fault .readKey s <;> rfl
  have hmarked : ReadsAlike t u (isTombstoned s) :=
    ⟨_, isTombstoned_apply s t, by rw [isTombstoned_apply, decide_eq_decide.2 hmark]⟩
  refine hmarked.bind fun marked => ?_
  split_ifs
  · exact .const fun _ => rfl
  · cases hp : keyPath s e with
    | error err => exact .const fun _ => rfl
    | ok p =>
      rw [ofExcept_ok_bind]
      refine (ReadsAlike.const hio).bind fun _ => ?_
      have hsame := hkeys p hp
      simp only [ReadsAlike, state_bind, hsame]
      cases t.lookup p with
      | none => exact ⟨_, rfl, rfl⟩
      | some stored =>
        refine ReadsAlike.bind (.const fun _ => rfl) fun key => ?_
        split_ifs
        · exact .const fun _ => rfl
        · exact .const fun _ => rfl

theorem unsealShares_readsAlike (O : Openers) (K : FsKeyStore) (e : Epoch) {shares : List WrappedShare}
    (hshares : ∀ w ∈ shares, w.subject = s)
    (hkeys : ∀ p, keyPath s e = .ok p → u.lookup p = t.lookup p)
    (hmark : tombstonePath s ∈ u ↔ tombstonePath s ∈ t) :
    ReadsAlike t u (unsealShares O K e shares) := by
  induction shares with
  | nil => exact .const fun _ => rfl
  | cons w ws ih =>
    have hshare : ReadsAlike t u (unsealShare O K e w) := by
      unfold unsealShare
      rw [hshares w (by simp)]
      refine (get_readsAlike K e hkeys hmark).bind fun kek => ?_
      cases kek with
      | none => exact .const fun _ => rfl
      | some kek =>
        refine ReadsAlike.bind (.const fun _ => rfl) fun bytes => ?_
        split_ifs
        · exact .const fun _ => rfl
        · exact .const fun _ => rfl
    exact hshare.bind fun _ => (ih fun w hw => hshares w (by simp [hw])).bind fun _ =>
      .const fun _ => rfl

/-- **What is spared unseals as before.** -/
theorem Spared.unseal_eq {σ' : Store} (h : Spared P s σ σ') (C : Ciphers) (O : Openers)
    (K : FsKeyStore) (record : RecordId) {block : SealedBody}
    (hshares : ∀ w ∈ block.shares, w.subject = s) :
    («unseal» C O K record block σ'.keys).1 = («unseal» C O K record block σ.keys).1 := by
  have hreads : ReadsAlike σ.keys σ'.keys («unseal» C O K record block) :=
    (unsealShares_readsAlike O K block.epoch hshares (h.keys block.epoch) h.marker).bind fun _ =>
      ReadsAlike.bind (.const fun _ => rfl) fun _ =>
        ReadsAlike.bind (.const fun _ => rfl) fun _ => .const fun _ => rfl
  obtain ⟨r, ht, hu⟩ := hreads
  rw [ht, hu]

end Yaam.Core
