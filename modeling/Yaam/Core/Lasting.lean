/-
  A record that a store has taken stays.

  * `Remains` says that a record is in the tree at its place, or held back on its way there;
  * `accept_remains`: a write that does not fail leaves its record so;
  * `accept_keeps_remains`, `sweep_remains`, `drainFanout_remains`, `eraseSubject_remains`: no
    operation takes a record away, when no other record bears its identifier;
  * `accept_of_precheck`: a record that fails a check fails it in every store.
-/
import Yaam.Core.Confined
import Yaam.Core.ForGood
import Yaam.Core.Interrupted
import Yaam.Core.ReadOnRecord
import Yaam.Core.Vouched

namespace Yaam.Core

open Text Contract Crypto Md Eff

/-- The record of this identifier stands at its place, or is held back on the way there. -/
def Remains (P : Pipeline) (id : RecordId) (dest : Path) (σ : Store) : Prop :=
  dest ∈ σ.records ∨ ∃ f, σ.quarantine.lookup [recordFile id] = some f ∧
    ∀ d, Carries P f d → destination d.record = .ok dest

section
variable {P : Pipeline} {env : Env} {id : RecordId} {dest : Path} {σ σ' : Store} {r : ActionRecord}
  {d : Document}

theorem Remains.mono (h : Remains P id dest σ) (hrecords : dest ∈ σ.records → dest ∈ σ'.records)
    (hquarantine : σ'.quarantine = σ.quarantine) : Remains P id dest σ' := by
  rcases h with h | ⟨f, hf, hd⟩
  · exact .inl (hrecords h)
  · exact .inr ⟨f, hquarantine ▸ hf, hd⟩

/-- Where a record is filed is read off what its writer sent. -/
theorem samePlace_of_asSent {r' : ActionRecord} (h : asSent r' = asSent r) : SamePlace r r' := by
  simp only [asSent, ActionRecord.mk.injEq] at h
  obtain ⟨hid, -, -, hreceived, -, hagent, -, -, -, -, -, -, -, hvisibility, -⟩ := h
  exact ⟨hid, hreceived, hvisibility, hagent⟩

/-! ## Writes -/

theorem OnlyKeys.remains (h : OnlyKeys σ σ') (hσ : Remains P id dest σ) : Remains P id dest σ' := by
  obtain ⟨t, rfl, -⟩ := h
  exact hσ

/-- The spool copy of a record holds it back on the way to its place. -/
theorem spooled_remains (hY : P.yaml.Inverts) {r' : ActionRecord} {st : Stamp} {block : SealedBody}
    (hid : r'.recordId = id) (hdest : destination r' = .ok dest) :
    Remains P id dest (spooled P env r' st block σ) := by
  refine .inr ⟨⟨fileBytes P ⟨r', .sealed block⟩, env.now⟩, ?_, fun d hd => ?_⟩
  · rw [← hid]
    exact AList.lookup_insert _
  · rw [(samePlace_of_asSent (carries_asSent hY hd)).destination, hdest]

/-- What is accepted has a place to be filed at. -/
theorem destination_of_accept {body : Text} {outcome : Accepted}
    (h : accept P env r body σ = (.ok outcome, σ')) : ∃ dest, destination r = .ok dest := by
  obtain ⟨admission, σ₁, h, -⟩ := bind_eq_ok.1 h
  obtain ⟨st, σ₂, hstamp, h⟩ := bind_eq_ok.1 h
  obtain ⟨dest, σ₃, hpath, -⟩ := bind_eq_ok.1 h
  exact ⟨dest, bind_ok.2 ⟨st, (ofExcept_eq_ok.1 hstamp).1, (ofExcept_eq_ok.1 hpath).1⟩⟩

/-- **A write that does not fail leaves its record standing.** -/
theorem accept_remains (hY : P.yaml.Inverts) {body : Text} {outcome : Accepted}
    (h : accept P env r body σ = (.ok outcome, σ')) :
    ∃ dest, destination r = .ok dest ∧ Remains P r.recordId dest σ' := by
  obtain ⟨dest, hdest⟩ := destination_of_accept h
  have hstep := accept_step P env r body σ
  rw [h] at hstep
  cases hstep with
  | duplicate dest hdest htaken => exact ⟨dest, hdest, .inl htaken⟩
  | held r' st block σ₁ _ hval _ _ _ =>
    have hplace := samePlace_of_asSent (validated_asSent hval)
    refine ⟨dest, hdest, spooled_remains hY hplace.recordId ?_⟩
    rw [hplace.destination, hdest]
  | stored d st dest σ₁ row ms _ _ hdest _ _ _ =>
    exact ⟨dest, hdest, .inl (AList.mem_insert _ |>.2 (.inl rfl))⟩

/-- **A write takes no record away**, unless it bears the identifier and is filed
    elsewhere. -/
theorem accept_keeps_remains (hY : P.yaml.Inverts) (body : Text)
    (hsame : r.recordId = id → destination r = .ok dest) :
    Keeps (Remains P id dest) (accept P env r body) := by
  intro σ hσ
  have hstep := accept_step P env r body σ
  generalize (accept P env r body σ).1 = res at hstep
  generalize (accept P env r body σ).2 = σ' at hstep
  have hplaced : ∀ {σ₁ : Store} (d : Document) (at_ : Path), OnlyKeys σ σ₁ →
      Remains P id dest (placedIn P env d at_ σ₁) := by
    intro σ₁ d at_ hkeys
    exact (hkeys.remains hσ).mono (fun h => (AList.mem_insert _).2 (.inr h)) rfl
  cases hstep with
  | duplicate at_ _ _ => exact hσ
  | refused e _ hkeys _ _ => exact hkeys.remains hσ
  | held r' st block σ₁ _ hval hkeys _ _ =>
    have hplace := samePlace_of_asSent (validated_asSent hval)
    by_cases heq : r.recordId = id
    · refine spooled_remains hY (hplace.recordId.trans heq) ?_
      rw [hplace.destination, hsame heq]
    · rcases hkeys.remains hσ with h | ⟨f, hf, hd⟩
      · exact .inl h
      · refine .inr ⟨f, ?_, hd⟩
        have hne : [recordFile id] ≠ [recordFile r'.recordId] := by
          intro hfile
          exact heq (hplace.recordId.symm.trans (recordFile_inj (List.cons.inj hfile).1).symm)
        exact (AList.lookup_insert_ne hne).trans hf
  | unindexed d st at_ σ₁ e _ hkeys _ _ _ => exact hplaced d at_ hkeys
  | stored d st at_ σ₁ row ms has hkeys hdest _ _ _ =>
    by_cases heq : r.recordId = id
    · obtain rfl : at_ = dest := Except.ok.inj (hdest.symm.trans (hsame heq))
      exact .inl ((AList.mem_insert _).2 (.inl rfl))
    · rcases hplaced d at_ hkeys with h | ⟨f, hf, hd⟩
      · exact .inl h
      · refine .inr ⟨f, ?_, hd⟩
        have hne : [recordFile id] ≠ stagedPath d := by
          intro hfile
          exact heq ((samePlace_of_asSent has.asSent).recordId.symm.trans
            (recordFile_inj (List.cons.inj hfile).1).symm)
        exact (AList.lookup_erase_ne hne).trans hf

/-- **A record that fails a check is refused in every store alike**, unless one stands at
    its place; nothing is written. -/
theorem accept_of_precheck {body : Text} {e : Error} (h : precheck P r body = .error e)
    (hfresh : ∀ dest, destination r = .ok dest → dest ∉ σ.records) :
    accept P env r body σ = (.error e, σ) := by
  suffices hadm : admission P env r body σ = (.error e, σ) by rw [accept, bind_of_error hadm]
  cases hst : stampOf r with
  | error e' =>
    obtain rfl : e' = e := by simpa [precheck, destination, hst, bind, Except.bind] using h
    rw [admission, hst]
    rfl
  | ok st =>
  cases hpath : publishedPath r st with
  | error e' =>
    obtain rfl : e' = e := by simpa [precheck, destination, hst, hpath, bind, Except.bind] using h
    rw [admission, hst, ofExcept_ok_bind, hpath]
    rfl
  | ok at_ =>
  have hdest : destination r = .ok at_ := bind_ok.2 ⟨st, hst, hpath⟩
  rw [admission, hst, ofExcept_ok_bind, hpath, ofExcept_ok_bind, state_bind, if_neg (hfresh at_ hdest)]
  cases hval : validated P r body with
  | error e' =>
    obtain rfl : e' = e := by simpa [precheck, hdest, hval, bind, Except.bind] using h
    rfl
  | ok r' =>
  simp only [precheck, hdest, hval, bind, Except.bind] at h
  have hresolve : ∃ detail, e = invalid detail ∧ resolveAndSeal P env r' st body σ = (.error e, σ) := by
    unfold resolveAndSeal
    cases hres : P.resolver r' with
    | unavailable reason => simp [hres] at h
    | refused reason =>
      simp only [hres, Except.error.injEq] at h
      exact ⟨reason, h.symm, by rw [← h]; rfl⟩
    | resolved subjects =>
      simp only [hres] at h
      have hchecked : (ofExcept (checkSubjects r' subjects) : StoreM Unit) σ = (.error e, σ) := by
        rw [h]
        rfl
      obtain ⟨detail, hdetail⟩ := checkSubjects_error h
      exact ⟨detail, hdetail, bind_of_error hchecked _⟩
  obtain ⟨detail, rfl, hresolve⟩ := hresolve
  have hattempt : attempt (resolveAndSeal P env r' st body) σ = (.ok (.error (invalid detail)), σ) := by
    rw [attempt_apply, hresolve]
  rw [ofExcept_ok_bind, bind_of_ok hattempt]
  rfl

/-! ## The fan-out and the sweep -/

theorem Remains.drainFrame (P : Pipeline) (id : RecordId) (dest : Path) :
    DrainFrame (Remains P id dest) where
  entities _ _ h := h
  audit _ _ h := h
  mentions _ _ h := h
  deadLetter _ _ h := h
  queue _ _ _ h := h

theorem drainFanout_remains (env : Env) (maxJobs : ℕ) :
    Keeps (Remains P id dest) (drainFanout P env maxJobs) :=
  drainFanout_keeps (Remains.drainFrame P id dest) P env maxJobs

theorem indexed_remains {α : Type} (x : Eff Index.Tables Index.Error α) :
    Keeps (Remains P id dest) (indexed x) := fun _ hs => hs

theorem setAside_remains (p : Path) : Keeps (Remains P id dest) (setAside p) := by
  refine Keeps.state_bind fun s hs => ?_
  cases s.staging.rename s.deadLetter p [p.getLast?.getD []] with
  | error e => exact hs
  | ok moved => exact hs

theorem place_remains {st : Stamp} {p : Path} : Keeps (Remains P id dest) (place d p st) := by
  refine (Keeps.ofExcept _).bind fun at_ => Keeps.state_bind fun s hs => ?_
  cases hr : Tree.rename s.staging s.records p at_ with
  | error e =>
    dsimp only
    split_ifs <;> exact hs
  | ok moved =>
    have hmoved : ∃ f, moved.2 = s.records.insert at_ f := by
      unfold Tree.rename at hr
      cases hf : s.staging.lookup p with
      | none => rw [hf] at hr; cases hr
      | some f =>
        rw [hf] at hr
        exact ⟨f, (congrArg Prod.snd (Except.ok.inj hr)).symm⟩
    obtain ⟨f, hmoved⟩ := hmoved
    refine hs.mono (fun h => ?_) rfl
    change dest ∈ moved.2
    rw [hmoved]
    exact (AList.mem_insert _).2 (.inr h)

theorem redriveFile_remains (n : ℕ) (p : Path) : Keeps (Remains P id dest) (redriveFile P n p) := by
  refine (readFile_keeps _ _).bind fun text => ?_
  cases Document.parse P.yaml text with
  | error e => exact (setAside_remains p).bind fun _ => Keeps.pure _
  | ok d =>
    have hredrive : Keeps (Remains P id dest) (redriveDocument P p d) := by
      refine (Keeps.ofExcept _).bind fun st => (Keeps.ofExcept _).bind fun at_ =>
        Keeps.state_bind fun s hs => ?_
      split_ifs
      · refine (readFile_keeps _ _).bind (fun text => (Keeps.ofExcept _).bind fun published => ?_) s hs
        exact Keeps.bind (indexed_remains _) fun _ => Keeps.change fun u hu => hu
      · exact (place_remains.bind fun _ => indexed_remains _) s hs
    exact hredrive.bind fun _ => Keeps.pure _

theorem indexUnindexed_remains (n : ℕ) (p : Path) :
    Keeps (Remains P id dest) (indexUnindexed P n p) := by
  refine (readFile_keeps _ _).bind fun text => ?_
  cases Document.parse P.yaml text with
  | error e => exact Keeps.pure _
  | ok d => exact (indexed_remains _).bind fun _ => Keeps.pure _

theorem sweep_remains (env : Env) : Keeps (Remains P id dest) (sweep P env) := by
  have hstaging : Keeps (Remains P id dest) (redriveStaging P env) :=
    Keeps.state.bind fun _ => Keeps.foldlM (fun n p _ => redriveFile_remains n p) 0
  have htree : Keeps (Remains P id dest) (indexTheUnindexed P env) :=
    Keeps.state.bind fun _ => Keeps.foldlM (fun n p _ => indexUnindexed_remains n p) 0
  have hheads : Keeps (Remains P id dest) (repairTimelineHeads env) := fun _ hs => hs
  exact hstaging.bind fun _ => htree.bind fun _ => hheads.bind fun _ =>
    (indexed_remains _).bind fun _ => Keeps.pure _

/-! ## Erasures -/

theorem dropBodies_remains (hext : extension dest = some recordExt) (s : SubjectHash) :
    Keeps (Remains P id dest) (dropBodies P env s) := by
  refine Keeps.state_bind fun σ hσ => Keeps.foldlM (fun n p hp => ?_) 0 σ hσ
  have hp : extension p = some recordExt := (Tree.mem_walkFiles.1 hp).2
  refine (readFile_keeps _ _).bind fun text => ?_
  cases Document.parse P.yaml text with
  | error e => exact Keeps.pure _
  | ok d =>
    dsimp only
    split_ifs
    · exact Keeps.pure _
    · refine Keeps.bind (Keeps.change fun u hu => ?_) fun _ => Keeps.pure _
      exact hu.mono (mem_replaceAtomically hp hext) rfl

/-- A structure that is published from the spool stands at its place. -/
theorem publishStructureOnly_ok {held : Document} {u : Unit}
    (h : publishStructureOnly P env held σ = (.ok u, σ')) :
    ∃ at_, destination held.record = .ok at_ ∧ at_ ∈ σ'.records ∧
      (∀ q ∈ σ.records, q ∈ σ'.records) ∧ σ'.quarantine = σ.quarantine := by
  obtain ⟨st, σ₁, hstamp, h⟩ := bind_eq_ok.1 h
  obtain ⟨at_, σ₂, hpath, h⟩ := bind_eq_ok.1 h
  obtain ⟨hst, rfl⟩ := ofExcept_eq_ok.1 hstamp
  obtain ⟨hat, rfl⟩ := ofExcept_eq_ok.1 hpath
  refine ⟨at_, bind_ok.2 ⟨st, hst, hat⟩, ?_⟩
  rw [state_bind] at h
  split_ifs at h with hmem
  · obtain ⟨-, rfl⟩ := pure_eq_ok.1 h
    exact ⟨hmem, fun _ hq => hq, rfl⟩
  · simp only [bind_of_ok (stage_apply _ _), bind_of_ok (place_stagedIn hat _)] at h
    obtain ⟨-, rfl⟩ := pure_eq_ok.1 h
    exact ⟨(AList.mem_insert _).2 (.inl rfl), fun q hq => (AList.mem_insert _).2 (.inr hq), rfl⟩

theorem publishStructureOnly_remains (held : Document) :
    Keeps (Remains P id dest) (publishStructureOnly P env held) := by
  refine (Keeps.ofExcept _).bind fun st => ?_
  cases hat : publishedPath (structureOf held).record st with
  | error e => exact Keeps.fail _
  | ok at_ =>
    rw [ofExcept_ok_bind]
    refine Keeps.state_bind fun u hu => ?_
    split_ifs
    · exact hu
    · simp only [bind_of_ok (stage_apply _ _), bind_of_ok (place_stagedIn hat _)]
      exact hu.mono (fun h => (AList.mem_insert _).2 (.inr h)) rfl

/-- What leaves the spool has its place in the tree. -/
theorem settleHeld_remains (s : SubjectHash) (n : ℕ) (p : Path) :
    Keeps (Remains P id dest) (settleHeld P env s n p) := by
  refine keeps_readFile_bind fun u text hu hread => ?_
  cases hd : Document.parse P.yaml text with
  | error e => exact hu
  | ok d =>
    dsimp only
    split_ifs
    swap
    · exact hu
    rcases hpublish : publishStructureOnly P env d u with ⟨_ | v, w⟩
    · rw [bind_of_error hpublish]
      have hkept : Remains P id dest (publishStructureOnly P env d u).2 :=
        publishStructureOnly_remains d u hu
      rwa [hpublish] at hkept
    obtain ⟨at_, hat, hmem, hgrows, hquarantine⟩ := publishStructureOnly_ok hpublish
    rw [bind_of_ok hpublish]
    rcases hu with h | ⟨f, hf, hplace⟩
    · exact .inl (hgrows _ h)
    by_cases hp : [recordFile id] = p
    · subst hp
      obtain ⟨g, hg, hcontent⟩ := Tree.readToString_ok.1 hread
      obtain rfl := Option.some.inj (hf.symm.trans hg)
      obtain rfl := Except.ok.inj (hat.symm.trans (hplace d ⟨text, hcontent, hd⟩))
      exact .inl hmem
    · refine .inr ⟨f, ?_, hplace⟩
      change (w.quarantine.erase p).lookup [recordFile id] = some f
      rw [AList.lookup_erase_ne hp, hquarantine, hf]

theorem sweepQuarantine_remains (s : SubjectHash) :
    Keeps (Remains P id dest) (sweepQuarantine P env s) :=
  Keeps.state.bind fun _ => Keeps.foldlM (fun n p _ => settleHeld_remains s n p) 0

theorem replayTombstones_remains (hext : extension dest = some recordExt) :
    Keeps (Remains P id dest) (replayTombstones P env) := by
  have hkeyed : ∀ {α : Type} (x : Eff Tree Crypto.Error α), Keeps (Remains P id dest) (keyed x) :=
    fun _ _ hs => hs
  have hone : ∀ e, Keeps (Remains P id dest) (replayTombstone P env e) := fun e =>
    (Keeps.ofExcept _).bind fun s => (hkeyed _).bind fun _ => (hkeyed _).bind fun _ =>
      (dropBodies_remains hext s).bind fun _ => (sweepQuarantine_remains s).bind fun _ => Keeps.pure _
  exact readLog_keeps.bind fun es => (Keeps.forM fun e _ => hone e).bind fun _ => Keeps.pure _

/-- **An erasure empties records, and takes none away.** -/
theorem eraseSubject_remains (hext : extension dest = some recordExt) (s : SubjectHash) :
    Keeps (Remains P id dest) (eraseSubject P env s) := by
  have hkeyed : ∀ {α : Type} (x : Eff Tree Crypto.Error α), Keeps (Remains P id dest) (keyed x) :=
    fun _ _ hs => hs
  have hlog : ∀ e, Keeps (Remains P id dest) (appendTombstone P e) := fun e =>
    Keeps.change fun u hu => hu
  have hreindex : Keeps (Remains P id dest) (reindexAll P env) :=
    (replayTombstones_remains hext).bind fun n => Keeps.state.bind fun u =>
      rebuild_keeps ⟨fun _ _ h => h, fun _ _ h => h⟩ n _
  exact (refuseIfHeld_keeps s).bind fun _ => (affected_keeps s).bind fun records =>
    (hlog _).bind fun _ => (hkeyed _).bind fun _ => Keeps.state.bind fun _ => (hkeyed _).bind fun _ =>
      (dropBodies_remains hext s).bind fun _ => (sweepQuarantine_remains s).bind fun _ =>
        hreindex.bind fun _ => (verifyLive_keeps s).bind fun _ => Keeps.pure _

end

end Yaam.Core
