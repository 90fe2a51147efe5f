/-
  What a hold keeps standing.

  * `Preserved` says that a subject's key files stand, that nothing marks it and that no
    erasure on record names it; every pass but the subject's own erasure keeps it:
    `eraseSubject_preserves`, `reindexAll_preserves`, `reconcile_preserves`, and under a
    hold `destroyExpired_preserves`;
  * `HoldStands` is a hold in force as the log tells it: `HoldStands.append` and
    `HoldStands.placed` are what one more line makes of it;
  * `hold_outranks`: from a placement on a clean log, no run destroys anything of the
    subject before every hold over it is released.
-/
import Yaam.Core.Aged
import Yaam.Core.Attest
import Yaam.Core.Reconcile
import Yaam.Core.Spared

namespace Yaam.Core

open Text Contract Crypto Md Eff

variable {P : Pipeline} {env : Env} {s s' : SubjectHash} {σ : Store} {t : Tree} {log : Option Bytes}

/-! ## What is preserved -/

/-- A subject's key files stand as they stood, nothing marks it, and no erasure on record
    names it; the hold log reads this. -/
structure Preserved (P : Pipeline) (s : SubjectHash) (t : Tree) (log : Option Bytes) (σ : Store) :
    Prop where
  keys : ∀ p f, Tree.Under (subjectDir s) p → t.lookup p = some f → σ.keys.lookup p = some f
  unmarked : s.text ∉ σ.keys.entryNames [tombstonesDir]
  unlogged : Unlogged P s σ.tombstoneLog
  holds : σ.holdLog = log

theorem preserved_start (h : ¬ Named P σ s) : Preserved P s σ.keys σ.holdLog σ :=
  ⟨fun _ _ _ hf => hf, fun hm => h (.inl hm), fun es hes e he hs => h (.inr ⟨es, hes, e, he, hs⟩), rfl⟩

theorem Preserved.not_named (h : Preserved P s t log σ) : ¬ Named P σ s := by
  rintro (hm | ⟨es, hes, e, he, hs⟩)
  · exact h.unmarked hm
  · exact h.unlogged es hes e he hs

theorem preserved_body : BodyFrame (Preserved P s t log) :=
  ⟨fun _ _ h => ⟨h.keys, h.unmarked, h.unlogged, h.holds⟩,
    fun _ _ h => ⟨h.keys, h.unmarked, h.unlogged, h.holds⟩,
    fun _ _ h => ⟨h.keys, h.unmarked, h.unlogged, h.holds⟩⟩

theorem preserved_derived : DerivedFrame (Preserved P s t log) :=
  ⟨fun _ _ h => ⟨h.keys, h.unmarked, h.unlogged, h.holds⟩,
    fun _ _ h => ⟨h.keys, h.unmarked, h.unlogged, h.holds⟩⟩

theorem under_subjectDir_unique {p : Path} (h : Tree.Under (subjectDir s) p)
    (h' : Tree.Under (subjectDir s') p) : s = s' := by
  obtain ⟨u, rfl⟩ := h.1
  have htext := (List.cons_prefix_cons.1 (List.cons_prefix_cons.1 h'.1).2).1
  exact SubjectHash.ext_text htext.symm

/-- A new key file is no marker. -/
theorem preserved_write : WriteFrame (Preserved P s t log) where
  minted σ u s' e bytes now hmem h := by
    refine ⟨fun p f hu hf => (grown_write bytes now hmem).1 p f (h.keys p f hu hf), fun hm => ?_,
      h.unlogged, h.holds⟩
    obtain ⟨p, hp, hu, hname⟩ := Tree.mem_entryNames.1 hm
    rcases (AList.mem_insert _).1 hp with rfl | hp
    · exact absurd (List.cons_prefix_cons.1 hu.1).1 (by decide)
    · exact h.unmarked (Tree.mem_entryNames.2 ⟨p, hp, hu, hname⟩)
  rest σ τ hkeys hlog hholds h := by
    refine ⟨?_, ?_, ?_, hholds.trans h.holds⟩
    · rw [hkeys]
      exact h.keys
    · rw [hkeys]
      exact h.unmarked
    · rw [hlog]
      exact h.unlogged

/-! ## Another subject's erasure -/

theorem keeps_keyed {I : Store → Prop} {α : Type} {x : Eff Tree Crypto.Error α}
    (h : ∀ σ : Store, Keeps (fun v => I { σ with keys := v }) x) : Keeps I (keyed x) :=
  Keeps.zoom fun σ hσ => Keeps.mapError (h σ) σ.keys hσ

/-- Fewer files leave no new entry. -/
theorem entryNames_subset {u v : Tree} {dir : Path} {name : Text} (h : ∀ p ∈ v, p ∈ u)
    (hn : name ∈ v.entryNames dir) : name ∈ u.entryNames dir := by
  obtain ⟨p, hp, hu, hname⟩ := Tree.mem_entryNames.1 hn
  exact Tree.mem_entryNames.2 ⟨p, h p hp, hu, hname⟩

section
variable (hs : s' ≠ s)
include hs

theorem Preserved.tombstone : Keeps (Preserved P s t log) (keyed ((P.keys env).tombstone s')) := by
  refine keeps_keyed fun σ v h => ?_
  rw [FsKeyStore.tombstone, change_apply]
  dsimp only
  split_ifs
  · exact h
  refine ⟨fun p f hp hf => ?_, fun hm => ?_, h.unlogged, h.holds⟩
  · have hne : p ≠ tombstonePath s' := by
      rintro rfl
      exact not_under_tombstone s s' hp
    exact (AList.lookup_insert_ne hne).trans (h.keys p f hp hf)
  · obtain ⟨p, hp, hu, hname⟩ := Tree.mem_entryNames.1 hm
    rcases (AList.mem_insert _).1 hp with rfl | hp
    · exact hs (SubjectHash.ext_text (Option.some.inj hname))
    · exact h.unmarked (Tree.mem_entryNames.2 ⟨p, hp, hu, hname⟩)

theorem Preserved.destroySubject : Keeps (Preserved P s t log) (keyed (destroySubject s')) := by
  refine keeps_keyed fun σ v h => ?_
  rw [Crypto.destroySubject, change_apply]
  refine ⟨fun p f hp hf => ?_, fun hm => h.unmarked (entryNames_subset (fun p hp => ?_) hm),
    h.unlogged, h.holds⟩
  · show (v.removeDirAll (subjectDir s')).lookup p = _
    rw [Tree.lookup_removeDirAll, if_neg fun hu => hs (under_subjectDir_unique hu hp)]
    exact h.keys p f hp hf
  · exact (Tree.mem_removeDirAll.1 hp).1

theorem Preserved.destroyEpoch (e : Epoch) :
    Keeps (Preserved P s t log) (keyed (destroyEpoch s' e)) := by
  refine keeps_keyed fun σ v h => ?_
  unfold Crypto.destroyEpoch
  cases hpath : keyPath s' e with
  | error err => exact h
  | ok path =>
    rw [ofExcept_ok_bind, change_apply]
    refine ⟨fun p f hp hf => ?_, fun hm => h.unmarked (entryNames_subset (fun p hp => ?_) hm),
      h.unlogged, h.holds⟩
    · have hne : p ≠ path := by
        rintro rfl
        exact not_under_keyPath (Ne.symm hs) hpath hp
      exact (AList.lookup_erase_ne hne).trans (h.keys p f hp hf)
    · exact (AList.mem_erase.1 hp).2

end

theorem Unlogged.append (hT : P.tombstoneLine.Lawful) {l : Option Bytes} (h : Unlogged P s l)
    {e : Tombstone} (he : e.subject ≠ s.text) :
    Unlogged P s (LineLog.append P.tombstoneLine l e) := by
  intro es hes x hx
  obtain ⟨u, hu⟩ := LineLog.holds_of_entries_append hT hes
  rcases LineLog.mem_entries_append hT (LineLog.entries_of_holds hu) hes hx with hx | rfl
  · exact h _ (LineLog.entries_of_holds hu) x hx
  · exact he

/-- A replay of the erasures on record passes over a subject that none names. -/
theorem replayTombstones_preserves : Keeps (Preserved P s t log) (replayTombstones P env) := by
  intro u hu
  unfold replayTombstones
  rw [readLog_bind]
  cases hes : LineLog.entries P.tombstoneLine u.tombstoneLog with
  | error e => exact hu
  | ok es =>
    have hreplay : ∀ e ∈ firstLines [] es, Keeps (Preserved P s t log) (replayTombstone P env e) := by
      intro e he
      unfold replayTombstone
      cases hs : SubjectHash.parse e.subject with
      | error err => exact Keeps.fail _
      | ok s' =>
        have hne : s' ≠ s := by
          rintro rfl
          exact hu.unlogged es hes e (firstLines_subset [] es e he) (SubjectHash.parse_ok hs).symm
        have hlift : liftContract (Except.ok s' : Except Contract.Error SubjectHash) = .ok s' := rfl
        rw [hlift, ofExcept_ok_bind]
        exact (Preserved.tombstone hne).bind fun _ => (Preserved.destroySubject hne).bind fun _ =>
          (dropBodies_keeps preserved_body s').bind fun _ =>
            (sweepQuarantine_keeps preserved_body s').bind fun _ => Keeps.pure _
    exact Keeps.bind (Keeps.forM hreplay) (fun _ => Keeps.pure _) u hu

theorem reindexAll_preserves : Keeps (Preserved P s t log) (reindexAll P env) :=
  replayTombstones_preserves.bind fun _ => Keeps.state.bind fun _ => rebuild_keeps preserved_derived _ _

/-- **The erasure of another subject preserves this one.** -/
theorem eraseSubject_preserves (hT : P.tombstoneLine.Lawful) (hs : s' ≠ s) :
    Keeps (Preserved P s t log) (eraseSubject P env s') := by
  have hline : ∀ found, Keeps (Preserved P s t log)
      (appendTombstone P (openingLine env.now env.ulid s' found)) := fun found =>
    Keeps.change fun u hu => ⟨hu.keys, hu.unmarked,
      hu.unlogged.append hT fun h => hs (SubjectHash.ext_text h), hu.holds⟩
  rw [eraseSubject_eq]
  refine (refuseIfHeld_keeps s').bind fun _ => (affected_keeps s').bind fun found => ?_
  exact (hline found).bind fun _ => (Preserved.tombstone hs).bind fun _ => Keeps.state.bind fun _ =>
    (Preserved.destroySubject hs).bind fun _ => (dropBodies_keeps preserved_body s').bind fun _ =>
      (sweepQuarantine_keeps preserved_body s').bind fun _ => reindexAll_preserves.bind fun _ =>
        (verifyLive_keeps s').bind fun _ => Keeps.pure _

/-- **A reconcile destroys only keys of subjects that an account names.** -/
theorem reconcile_preserves : Keeps (Preserved P s t log) (reconcile P env) := by
  have hread : ∀ {I : Store → Prop}, Keeps I (erasedSubjects P) := fun {I} =>
    (keeps_keyed fun _ => Keeps.state.bind fun _ => Keeps.ofExcept _).bind fun _ =>
      readLog_keeps.bind fun _ => (Keeps.ofExcept _).bind fun _ => Keeps.pure _
  have hone : ∀ r, ∀ s' : SubjectHash, s' ≠ s →
      Keeps (Preserved P s t log) (reconcileSubject P env r s') := by
    intro r s' hs u hu
    have hmark : Preserved P s t log { u with keys := markKeys env.now u.keys s' } :=
      Preserved.tombstone hs u hu
    have hgone : Preserved P s t log
        { u with keys := (markKeys env.now u.keys s').removeDirAll (subjectDir s') } :=
      Preserved.destroySubject hs _ hmark
    rw [reconcileSubject_apply]
    show Preserved P s t log { u with keys := settleKeys env.now u.keys s' }
    unfold settleKeys
    split_ifs
    · exact hgone
    · exact hmark
  intro u hu
  have hsame := hread (I := (· = u)) u rfl
  unfold reconcile
  cases hx : erasedSubjects P u with
  | mk res v =>
    obtain rfl : v = u := by rwa [hx] at hsame
    cases res with
    | error e =>
      rw [bind_of_error hx]
      exact hu
    | ok ss =>
      rw [bind_of_ok hx]
      have hnamed := (erasedSubjects_ok hx).2.2
      exact Keeps.foldlM (fun r s' hs' => hone r s' fun h => hu.not_named ((hnamed s).1 (h ▸ hs'))) _ v hu

/-! ## Holds in force -/

/-- Whenever the hold log is read, a hold over the subject is in force under an identifier. -/
def HoldStands (P : Pipeline) (s : SubjectHash) (id : Text) (log : Option Bytes) : Prop :=
  ∀ es h, LineLog.entries P.holdLine log = .ok es → es.foldlM HoldState.line .empty = .ok h →
    ∃ k, (id, k) ∈ h.placed ∧ k.subject = s ∧ k.id = id ∧ h.isReleased id = false

/-- No line of the hold log is about an identifier. -/
def Unmentioned (P : Pipeline) (id : Text) (log : Option Bytes) : Prop :=
  ∀ es, LineLog.entries P.holdLine log = .ok es → ∀ l ∈ es, l.id ≠ id

variable {id : Text} {τ : Store}

theorem readHolds_ok {h : HoldState} : readHolds P σ = (.ok h, τ) ↔ σ = τ ∧
    ∃ es, LineLog.entries P.holdLine σ.holdLog = .ok es ∧ es.foldlM HoldState.line .empty = .ok h := by
  rw [readHolds, state_bind]
  cases LineLog.entries P.holdLine σ.holdLog with
  | error e =>
    refine iff_of_false fail_ne_ok ?_
    rintro ⟨-, es, hes, -⟩
    cases hes
  | ok es =>
    dsimp only
    rw [ofExcept_eq_ok, and_comm]
    refine and_congr_right fun _ => ⟨fun h => ⟨es, rfl, h⟩, ?_⟩
    rintro ⟨es', hes, h⟩
    exact Except.ok.inj hes ▸ h

/-- What is placed is under its own identifier, which a line of the log has. -/
theorem mem_placed {ls : List HoldLine} {h₀ h : HoldState} (hls : ls.foldlM HoldState.line h₀ = .ok h)
    {e : Text × Hold} (he : e ∈ h.placed) :
    e ∈ h₀.placed ∨ e.2.id = e.1 ∧ ∃ l ∈ ls, l.id = e.1 := by
  induction ls generalizing h₀ with
  | nil =>
    obtain rfl : h₀ = h := Except.ok.inj hls
    exact .inl he
  | cons l ls ih =>
    rw [List.foldlM_cons] at hls
    obtain ⟨h₁, h1, h2⟩ := Contract.bind_ok.1 hls
    rcases ih h2 with hold | ⟨hid, m, hm, hmid⟩
    · rcases HoldState.line_cases h1 with hev | ⟨k, hk⟩
      · rw [HoldState.line_released hev] at h1
        rw [← Except.ok.inj h1] at hold
        exact .inl hold
      · have hkid : k.id = l.id := by
          obtain rfl := hk
          rfl
        rw [HoldState.line_placed hk] at h1
        rw [← Except.ok.inj h1] at hold
        rcases mem_upsert hold with rfl | hold | ⟨-, -, -, rfl⟩
        · exact .inr ⟨hkid, l, List.mem_cons_self, rfl⟩
        · exact .inl hold
        · exact .inr ⟨hkid, l, List.mem_cons_self, rfl⟩
    · exact .inr ⟨hid, m, List.mem_cons_of_mem _ hm, hmid⟩

/-- A line about one identifier leaves the others. -/
theorem HoldState.line_other {h h' : HoldState} {l : HoldLine} (hl : h.line l = .ok h')
    (hne : l.id ≠ id) : (∀ k, (id, k) ∈ h.placed → (id, k) ∈ h'.placed) ∧
      h'.isReleased id = h.isReleased id := by
  rcases HoldState.line_cases hl with he | ⟨k, hk⟩
  · rw [HoldState.line_released he] at hl
    obtain rfl := Except.ok.inj hl
    refine ⟨fun _ h => h, ?_⟩
    rw [Bool.eq_iff_iff, isReleased_upsert]
    exact or_iff_right (Ne.symm hne)
  · rw [HoldState.line_placed hk] at hl
    obtain rfl := Except.ok.inj hl
    exact ⟨fun _ hmem => mem_upsert_of_ne hmem (Ne.symm hne), rfl⟩

theorem Unmentioned.ne {i : Text} (h : Unmentioned P i log) {es : List HoldLine} {g : HoldState} {k : Hold}
    (hes : LineLog.entries P.holdLine log = .ok es) (hg : es.foldlM HoldState.line .empty = .ok g)
    (hk : (id, k) ∈ g.placed) : i ≠ id := by
  rintro rfl
  rcases mem_placed hg hk with hnone | ⟨-, l, hl, hid⟩
  · cases hnone
  · exact h es hes l hl hid

section
variable (hH : P.holdLine.Lawful) (hclean : LineLog.Clean P.holdLine log)
include hH hclean

/-- What a clean log says after one more line. -/
theorem foldlM_entries_append {l : HoldLine} {es : List HoldLine} {g : HoldState}
    (hes : LineLog.entries P.holdLine (LineLog.append P.holdLine log l) = .ok es)
    (hg : es.foldlM HoldState.line .empty = .ok g) :
    ∃ es₀ g₀, LineLog.entries P.holdLine log = .ok es₀ ∧
      es₀.foldlM HoldState.line .empty = .ok g₀ ∧ g₀.line l = .ok g := by
  obtain ⟨es₀, hes₀, rfl⟩ := hclean.entries_append hH hes
  rw [List.foldlM_append] at hg
  obtain ⟨g₀, hg₀, hlast⟩ := Contract.bind_ok.1 hg
  rw [List.foldlM_cons] at hlast
  obtain ⟨g₁, hline, hnil⟩ := Contract.bind_ok.1 hlast
  obtain rfl : g₁ = g := Except.ok.inj hnil
  exact ⟨es₀, g₀, hes₀, hg₀, hline⟩

/-- **A line about another identifier lifts no hold.** -/
theorem HoldStands.append (h : HoldStands P s id log) {l : HoldLine}
    (hne : ∀ es g k, LineLog.entries P.holdLine log = .ok es →
      es.foldlM HoldState.line .empty = .ok g → (id, k) ∈ g.placed → l.id ≠ id) :
    HoldStands P s id (LineLog.append P.holdLine log l) := by
  intro es g hes hg
  obtain ⟨es₀, g₀, hes₀, hg₀, hline⟩ := foldlM_entries_append hH hclean hes hg
  obtain ⟨k, hk, hks, hkid, hrel⟩ := h es₀ g₀ hes₀ hg₀
  obtain ⟨hplaced, hsame⟩ := HoldState.line_other hline (hne es₀ g₀ k hes₀ hg₀ hk)
  exact ⟨k, hplaced k hk, hks, hkid, hsame.trans hrel⟩

/-- **A hold placed on a clean log stands.** -/
theorem HoldStands.placed {k : Hold} (hfresh : Unmentioned P k.id log) :
    HoldStands P k.subject k.id (LineLog.append P.holdLine log (placement k)) := by
  intro es g hes hg
  obtain ⟨es₀, g₀, hes₀, hg₀, hline⟩ := foldlM_entries_append hH hclean hes hg
  have hnever : g₀.isReleased k.id = false := by
    rw [Bool.eq_false_iff]
    intro hrel
    rcases (foldlM_line_released hg₀ k.id).1 hrel with hrel | ⟨l, hl, -, hid⟩
    · cases hrel
    · exact hfresh es₀ hes₀ l hl hid
  rw [HoldState.line_placed (show (placement k).Places k from rfl)] at hline
  obtain rfl := Except.ok.inj hline
  exact ⟨k, mem_upsert_self, rfl, rfl, hnever⟩

theorem Unmentioned.append {i : Text} (h : Unmentioned P i log) {l : HoldLine} (hne : l.id ≠ i) :
    Unmentioned P i (LineLog.append P.holdLine log l) := by
  intro es hes m hm
  obtain ⟨es₀, hes₀, rfl⟩ := hclean.entries_append hH hes
  rcases List.mem_append.1 hm with hm | hm
  · exact h es₀ hes₀ m hm
  · rwa [List.mem_singleton.1 hm]

end

/-- The log with placements appended. -/
def appendHolds (P : Pipeline) (log : Option Bytes) (ks : List Hold) : Option Bytes :=
  ks.foldl (fun log k => LineLog.append P.holdLine log (placement k)) log

theorem appendHolds_clean (hH : P.holdLine.Lawful) (hclean : LineLog.Clean P.holdLine log)
    (ks : List Hold) : LineLog.Clean P.holdLine (appendHolds P log ks) := by
  induction ks generalizing log with
  | nil => exact hclean
  | cons k ks ih => exact ih ((LineLog.ended_append hH log _).clean hH)

/-- **New holds stand beside the old.** -/
theorem appendHolds_stands (hH : P.holdLine.Lawful) (hclean : LineLog.Clean P.holdLine log)
    {ks : List Hold} (hnodup : (ks.map (·.id)).Nodup) (hfresh : ∀ k ∈ ks, Unmentioned P k.id log) :
    (∀ s id, HoldStands P s id log → HoldStands P s id (appendHolds P log ks)) ∧
      ∀ k ∈ ks, HoldStands P k.subject k.id (appendHolds P log ks) := by
  induction ks generalizing log with
  | nil => exact ⟨fun _ _ h => h, nofun⟩
  | cons k ks ih =>
    obtain ⟨hk, hnodup⟩ := List.nodup_cons.1 hnodup
    have hrest : ∀ k' ∈ ks, Unmentioned P k'.id (LineLog.append P.holdLine log (placement k)) := by
      intro k' hk'
      refine (hfresh k' (List.mem_cons_of_mem _ hk')).append hH hclean fun h => hk ?_
      exact List.mem_map.2 ⟨k', hk', h.symm⟩
    obtain ⟨hkeep, hnew⟩ := ih ((LineLog.ended_append hH log (placement k)).clean hH) hnodup hrest
    refine ⟨fun s id h => hkeep s id ?_, fun k' hk' => ?_⟩
    · exact h.append hH hclean fun _ _ _ hes hg hmem => (hfresh k List.mem_cons_self).ne hes hg hmem
    · rcases List.mem_cons.1 hk' with rfl | hk'
      · exact hkeep _ _ (HoldStands.placed hH hclean (hfresh k' List.mem_cons_self))
      · exact hnew k' hk'

/-! ## What a hold refuses -/

theorem HoldStands.mem_standing (h : HoldStands P s id σ.holdLog) {holds : List Hold}
    (hst : standing P σ = (.ok holds, τ)) : ∃ k ∈ holds, k.id = id ∧ k.subject = s := by
  obtain ⟨g, σ₁, hread, hrest⟩ := bind_eq_ok.1 hst
  obtain ⟨rfl, es, hes, hg⟩ := readHolds_ok.1 hread
  obtain ⟨rfl, rfl⟩ := pure_eq_ok.1 hrest
  obtain ⟨k, hk, hks, hkid, hrel⟩ := h es g hes hg
  refine ⟨k, ?_, hkid, hks⟩
  rw [List.mem_insertionSort, List.mem_filter]
  exact ⟨List.mem_map.2 ⟨_, hk, rfl⟩, by simp [hkid, hrel]⟩

/-- What stands is in force as the log tells it. -/
theorem holdStands_of_standing {holds : List Hold} (hst : standing P σ = (.ok holds, τ)) {k : Hold}
    (hk : k ∈ holds) : HoldStands P k.subject k.id σ.holdLog := by
  obtain ⟨g, σ₁, hread, hrest⟩ := bind_eq_ok.1 hst
  obtain ⟨rfl, es, hes, hg⟩ := readHolds_ok.1 hread
  obtain ⟨rfl, rfl⟩ := pure_eq_ok.1 hrest
  rw [List.mem_insertionSort, List.mem_filter] at hk
  obtain ⟨hmem, hrel⟩ := hk
  obtain ⟨⟨i, k⟩, hik, rfl⟩ := List.mem_map.1 hmem
  intro es' g' hes' hg'
  obtain rfl := Except.ok.inj (hes.symm.trans hes')
  obtain rfl := Except.ok.inj (hg.symm.trans hg')
  have hid : k.id = i := by
    rcases mem_placed hg hik with hnone | ⟨hid, -⟩
    · cases hnone
    · exact hid
  exact ⟨k, hid ▸ hik, rfl, rfl, by simpa using hrel⟩

/-- **The erasure of a subject held is refused**, and nothing is touched. -/
theorem eraseSubject_refused (h : HoldStands P s id σ.holdLog) (env : Env) :
    ∃ e, eraseSubject P env s σ = (.error e, σ) := by
  have hsame := refuseIfHeld_keeps (P := P) (I := (· = σ)) s σ rfl
  rw [eraseSubject_eq]
  cases hx : refuseIfHeld P s σ with
  | mk res τ =>
    obtain rfl : τ = σ := by rwa [hx] at hsame
    cases res with
    | error e => exact ⟨e, bind_of_error hx _⟩
    | ok u =>
      obtain ⟨holds, σ₁, hfor, hrest⟩ := bind_eq_ok.1 hx
      obtain ⟨all, σ₂, hall, hpure⟩ := bind_eq_ok.1 hfor
      obtain ⟨rfl, rfl⟩ := pure_eq_ok.1 hpure
      obtain ⟨k, hk, -, hks⟩ := h.mem_standing hall
      have hmem : k ∈ all.filter fun h => h.subject = s := List.mem_filter.2 ⟨hk, by simp [hks]⟩
      rw [if_neg (List.ne_nil_of_mem hmem)] at hrest
      exact absurd hrest fail_ne_ok

/-- **Retention passes over a subject held.** -/
theorem destroyExpired_preserves (h : HoldStands P s id log) (keepQuarters : ℕ) (asOfMs : ℤ) :
    Keeps (Preserved P s t log) (destroyExpired P keepQuarters asOfMs) := by
  intro u hu
  have hsame : (survey P keepQuarters asOfMs u).2 = u := by
    unfold survey
    cases (Epoch.containing asOfMs).quartersBefore keepQuarters with
    | none => rfl
    | some cutoff =>
      have hkeys : Keeps (· = u) (keyed keyEpochs) := keeps_keyed fun _ =>
        Keeps.state.bind fun _ => (Keeps.ofExcept _).bind fun _ => Keeps.pure _
      exact Keeps.bind standing_keeps (fun _ => hkeys.bind fun _ => Keeps.pure _) u rfl
  unfold destroyExpired
  cases hx : survey P keepQuarters asOfMs u with
  | mk res v =>
    obtain rfl : v = u := by rwa [hx] at hsame
    cases res with
    | error e =>
      rw [bind_of_error hx]
      exact hu
    | ok pair =>
      rw [bind_of_ok hx]
      refine Keeps.bind (Keeps.forM fun c hc => Preserved.destroyEpoch ?_ _) (fun _ => Keeps.pure _) v hu
      rintro rfl
      -- no key of the subject is up for destruction
      unfold survey at hx
      cases hcut : (Epoch.containing asOfMs).quartersBefore keepQuarters with
      | none =>
        rw [hcut] at hx
        exact absurd hx fail_ne_ok
      | some cutoff =>
        rw [hcut] at hx
        obtain ⟨holds, σ₁, hall, hrest⟩ := bind_eq_ok.1 hx
        obtain ⟨ks, σ₂, hks, hpure⟩ := bind_eq_ok.1 hrest
        obtain ⟨rfl, -⟩ := pure_eq_ok.1 hpure
        obtain ⟨hmem, hverdict⟩ := List.mem_filter.1 hc
        obtain ⟨key, -, rfl⟩ := List.mem_map.1 hmem
        rw [← hu.holds] at h
        obtain ⟨k, hk, -, hsub⟩ := h.mem_standing hall
        obtain ⟨-, hnone⟩ := verdictOn_eq_destroy.1 (of_decide_eq_true hverdict)
        exact hnone k hk hsub

/-! ## Complete operations -/

/-- A complete operation of the store. -/
inductive HoldStep where
  | erase (env : Env) (s : SubjectHash)
  | destroyExpired (keepQuarters : ℕ) (asOfMs : ℤ)
  | reindexAll (env : Env)
  | reconcile (env : Env)
  | place (now : ℤ) (ulid : RecordId) (s : SubjectHash) (reason operator : Text)
      (records : List RecordId)
  | placeOverRecord (now : ℤ) (ulids : ℕ → RecordId) (record : RecordId) (reason operator : Text)
  | release (now : ℤ) (id reason operator : Text)
  | accept (env : Env) (r : ActionRecord) (body : Text)

def HoldStep.run (P : Pipeline) (σ : Store) : HoldStep → Store
  | .erase env s => (eraseSubject P env s σ).2
  | .destroyExpired keepQuarters asOfMs => (Core.destroyExpired P keepQuarters asOfMs σ).2
  | .reindexAll env => (Core.reindexAll P env σ).2
  | .reconcile env => (Core.reconcile P env σ).2
  | .place now ulid s reason operator records =>
    (placeHold P now ulid s reason operator records σ).2
  | .placeOverRecord now ulids record reason operator =>
    (Core.placeOverRecord P now ulids record reason operator σ).2
  | .release now id reason operator => (releaseHold P now id reason operator σ).2
  | .accept env r body => (Core.accept P env r body σ).2

/-- The holds it answers to have placed. -/
def HoldStep.placed (P : Pipeline) (σ : Store) : HoldStep → List Hold
  | .place now ulid s reason operator records =>
    (placeHold P now ulid s reason operator records σ).1.toOption.toList
  | .placeOverRecord now ulids record reason operator =>
    (Core.placeOverRecord P now ulids record reason operator σ).1.toOption.getD []
  | _ => []

/-- The identifier it answers to have released. -/
def HoldStep.released (P : Pipeline) (σ : Store) : HoldStep → Option Text
  | .release now id reason operator =>
    (releaseHold P now id reason operator σ).1.toOption.map fun _ => id
  | _ => none

/-- The identifiers of the holds over a subject that are placed and not released, after it. -/
def HoldStep.inForce (P : Pipeline) (s : SubjectHash) (σ : Store) (ids : List Text) (a : HoldStep) :
    List Text :=
  (ids ++ ((a.placed P σ).filter (·.subject = s)).map (·.id)).filter fun id => a.released P σ ≠ some id

/-- The identifiers it places holds under are new. -/
structure HoldStep.Fresh (P : Pipeline) (σ : Store) (a : HoldStep) : Prop where
  nodup : ((a.placed P σ).map (·.id)).Nodup
  unused : ∀ k ∈ a.placed P σ, Unmentioned P k.id σ.holdLog

/-- Placing fails before it writes, or places. -/
theorem placeHold_always (P : Pipeline) (now : ℤ) (reason operator : Text) :
    (∀ ulid s records σ, ∃ k : Hold, k.subject = s ∧
      placeHold P now ulid s reason operator records σ =
        (.ok k, { σ with holdLog := LineLog.append P.holdLine σ.holdLog (placement k) })) ∨
    ∀ ulid s records σ, ∃ e, placeHold P now ulid s reason operator records σ = (.error e, σ) := by
  unfold placeHold
  cases stated reason
      "a hold has to say why: a hold nobody can account for is a hold nobody dares lift" with
  | error e => exact .inr fun ulid s records σ => ⟨e, rfl⟩
  | ok why =>
    cases stated operator "a hold has to name who placed it" with
    | error e => exact .inr fun ulid s records σ => ⟨e, rfl⟩
    | ok who => exact .inl fun ulid s records σ =>
        ⟨⟨holdPrefix ++ ulid.text, s, now, why, who, records.map (·.text)⟩, rfl, rfl⟩

theorem placeEach_cases (P : Pipeline) (now : ℤ) (ulids : ℕ → RecordId) (reason operator : Text)
    (record : RecordId) (i : ℕ) (ss : List SubjectHash) (σ : Store) :
    (∃ ks, placeEach P now ulids reason operator record i ss σ =
      (.ok ks, { σ with holdLog := appendHolds P σ.holdLog ks })) ∨
    ∃ e, placeEach P now ulids reason operator record i ss σ = (.error e, σ) := by
  rcases placeHold_always P now reason operator with hok | herr
  · left
    induction ss generalizing i σ with
    | nil => exact ⟨[], rfl⟩
    | cons s ss ih =>
      obtain ⟨k, -, hk⟩ := hok (ulids i) s [record] σ
      obtain ⟨ks, hks⟩ := ih (i + 1) { σ with holdLog := LineLog.append P.holdLine σ.holdLog (placement k) }
      refine ⟨k :: ks, ?_⟩
      rw [placeEach, bind_of_ok hk, bind_of_ok hks]
      rfl
  · cases ss with
    | nil => exact .inl ⟨[], rfl⟩
    | cons s ss =>
      obtain ⟨e, he⟩ := herr (ulids i) s [record] σ
      exact .inr ⟨e, bind_of_error he _⟩

theorem placeOverRecord_cases (P : Pipeline) (now : ℤ) (ulids : ℕ → RecordId) (record : RecordId)
    (reason operator : Text) (σ : Store) :
    (∃ ks, placeOverRecord P now ulids record reason operator σ =
      (.ok ks, { σ with holdLog := appendHolds P σ.holdLog ks })) ∨
    ∃ e, placeOverRecord P now ulids record reason operator σ = (.error e, σ) := by
  unfold placeOverRecord
  rw [state_bind]
  cases (locateRecords σ.records).lookup record.text with
  | none => exact .inr ⟨_, rfl⟩
  | some path =>
    dsimp only
    have hsame := readFile_keeps (I := (· = σ)) Store.records path σ rfl
    cases hread : readFile Store.records path σ with
    | mk res τ =>
      obtain rfl : τ = σ := by rwa [hread] at hsame
      cases res with
      | error e => exact .inr ⟨e, bind_of_error hread _⟩
      | ok text =>
        rw [bind_of_ok hread]
        cases Document.parse P.yaml text with
        | error e => exact .inr ⟨_, rfl⟩
        | ok d =>
          have hlift : (liftMd (.ok d) : StoreM Document) = ofExcept (.ok d) := rfl
          rw [hlift, ofExcept_ok_bind]
          split_ifs
          · exact .inr ⟨_, rfl⟩
          · exact placeEach_cases P now ulids reason operator record 0 _ τ

/-- A release lifts what is placed under its identifier, and nothing else. -/
theorem releaseHold_cases (P : Pipeline) (now : ℤ) (id reason operator : Text) (σ : Store) :
    (∃ k l, l.id = id ∧ releaseHold P now id reason operator σ =
      (.ok k, { σ with holdLog := LineLog.append P.holdLine σ.holdLog l })) ∨
    ∃ e, releaseHold P now id reason operator σ = (.error e, σ) := by
  unfold releaseHold
  cases stated reason
      ("a release has to say why: the log is what an auditor reads to see who lifted an " ++
        "obligation, and on what grounds") with
  | error e => exact .inr ⟨e, rfl⟩
  | ok why =>
    rw [ofExcept_ok_bind]
    cases stated operator "a release has to name who lifted it" with
    | error e => exact .inr ⟨e, rfl⟩
    | ok who =>
      rw [ofExcept_ok_bind]
      have hsame : (readHolds P σ).2 = σ := by
        rw [readHolds, state_bind]
        cases LineLog.entries P.holdLine σ.holdLog <;> rfl
      cases hread : readHolds P σ with
      | mk res τ =>
        obtain rfl : τ = σ := by rwa [hread] at hsame
        cases res with
        | error e => exact .inr ⟨e, bind_of_error hread _⟩
        | ok g =>
          rw [bind_of_ok hread]
          cases hlook : g.placed.lookup id with
          | none => exact .inr ⟨_, rfl⟩
          | some k =>
            dsimp only
            split_ifs
            · exact .inr ⟨_, rfl⟩
            · refine .inl ⟨k, _, ?_, rfl⟩
              obtain ⟨-, es, -, hg⟩ := readHolds_ok.1 hread
              obtain ⟨before, after, hsplit, -⟩ := List.lookup_eq_some_iff.1 hlook
              have hmem : (id, k) ∈ g.placed := by
                rw [hsplit]
                exact List.mem_append_right _ List.mem_cons_self
              rcases mem_placed hg hmem with hnone | ⟨hid, -⟩
              · cases hnone
              · exact hid


/-! ## Runs -/

/-- Some holds over a subject stand, nothing of it is destroyed, and the next line of the hold
    log is read. -/
structure Watched (P : Pipeline) (s : SubjectHash) (t : Tree) (ids : List Text) (σ : Store) :
    Prop where
  preserved : Preserved P s t σ.holdLog σ
  clean : LineLog.Clean P.holdLine σ.holdLog
  stands : ∀ id ∈ ids, HoldStands P s id σ.holdLog

variable {ids : List Text} {a : HoldStep}

theorem Watched.kept {σ' : Store} (h : Watched P s t ids σ) (h' : Preserved P s t σ.holdLog σ') :
    Watched P s t ids σ' :=
  ⟨h'.holds.symm ▸ h', h'.holds.symm ▸ h.clean, h'.holds.symm ▸ h.stands⟩

theorem Watched.place (hH : P.holdLine.Lawful) (h : Watched P s t ids σ) {ks : List Hold}
    (hnodup : (ks.map (·.id)).Nodup) (hfresh : ∀ k ∈ ks, Unmentioned P k.id σ.holdLog) :
    Watched P s t (ids ++ (ks.filter (·.subject = s)).map (·.id))
      { σ with holdLog := appendHolds P σ.holdLog ks } := by
  obtain ⟨hkeep, hnew⟩ := appendHolds_stands hH h.clean hnodup hfresh
  refine ⟨⟨h.preserved.keys, h.preserved.unmarked, h.preserved.unlogged, rfl⟩,
    appendHolds_clean hH h.clean ks, fun id hid => ?_⟩
  rcases List.mem_append.1 hid with hid | hid
  · exact hkeep s id (h.stands id hid)
  · obtain ⟨k, hk, rfl⟩ := List.mem_map.1 hid
    obtain ⟨hmem, hs⟩ := List.mem_filter.1 hk
    obtain rfl := of_decide_eq_true hs
    exact hnew k hmem

theorem Watched.release (hH : P.holdLine.Lawful) (h : Watched P s t ids σ) (l : HoldLine) :
    Watched P s t (ids.filter fun id => some l.id ≠ some id)
      { σ with holdLog := LineLog.append P.holdLine σ.holdLog l } := by
  refine ⟨⟨h.preserved.keys, h.preserved.unmarked, h.preserved.unlogged, rfl⟩,
    (LineLog.ended_append hH _ l).clean hH, fun id hid => ?_⟩
  obtain ⟨hmem, hne⟩ := List.mem_filter.1 hid
  refine (h.stands id hmem).append hH h.clean fun _ _ _ _ _ _ heq => ?_
  exact of_decide_eq_true hne (congrArg some heq)

/-- A step that neither places nor releases leaves the list of holds. -/
theorem HoldStep.inForce_of_none (hplaced : a.placed P σ = []) (hreleased : a.released P σ = none) :
    a.inForce P s σ ids = ids := by
  simp [HoldStep.inForce, hplaced, hreleased]

theorem HoldStep.inForce_of_placed (hreleased : a.released P σ = none) :
    a.inForce P s σ ids = ids ++ ((a.placed P σ).filter (·.subject = s)).map (·.id) := by
  simp [HoldStep.inForce, hreleased]

/-- **Placing more holds**, over whomever. -/
theorem Watched.placing (hH : P.holdLine.Lawful) (h : Watched P s t ids σ) (hfresh : a.Fresh P σ)
    (hreleased : a.released P σ = none)
    (hrun : a.run P σ = { σ with holdLog := appendHolds P σ.holdLog (a.placed P σ) }) :
    Watched P s t (a.inForce P s σ ids) (a.run P σ) := by
  rw [HoldStep.inForce_of_placed hreleased, hrun]
  exact h.place hH hfresh.nodup hfresh.unused

theorem HoldStep.run_place (P : Pipeline) (σ : Store) (now : ℤ) (ulid : RecordId) (s : SubjectHash)
    (reason operator : Text) (records : List RecordId) :
    HoldStep.run P σ (.place now ulid s reason operator records) = { σ with
      holdLog := appendHolds P σ.holdLog
        (HoldStep.placed P σ (.place now ulid s reason operator records)) } := by
  rw [HoldStep.run, HoldStep.placed]
  rcases placeHold_always P now reason operator with hok | herr
  · obtain ⟨k, -, hk⟩ := hok ulid s records σ
    rw [hk]
    rfl
  · obtain ⟨e, he⟩ := herr ulid s records σ
    rw [he]
    rfl

theorem HoldStep.run_placeOverRecord (P : Pipeline) (σ : Store) (now : ℤ) (ulids : ℕ → RecordId)
    (record : RecordId) (reason operator : Text) :
    HoldStep.run P σ (.placeOverRecord now ulids record reason operator) = { σ with
      holdLog := appendHolds P σ.holdLog
        (HoldStep.placed P σ (.placeOverRecord now ulids record reason operator)) } := by
  rw [HoldStep.run, HoldStep.placed]
  rcases placeOverRecord_cases P now ulids record reason operator σ with ⟨ks, hks⟩ | ⟨e, he⟩
  · rw [hks]
    rfl
  · rw [he]
    rfl

/-- **One step under a hold.** -/
theorem Watched.step (hT : P.tombstoneLine.Lawful) (hH : P.holdLine.Lawful)
    (h : Watched P s t ids σ) (hids : ids ≠ []) (hfresh : a.Fresh P σ) :
    Watched P s t (a.inForce P s σ ids) (a.run P σ) := by
  obtain ⟨id, hid⟩ := List.exists_mem_of_ne_nil ids hids
  have hstands := h.stands id hid
  cases a with
  | erase env s' =>
    rw [HoldStep.inForce_of_none rfl rfl]
    by_cases hs : s' = s
    · subst hs
      obtain ⟨e, he⟩ := eraseSubject_refused hstands env
      rw [HoldStep.run, he]
      exact h
    · exact h.kept (eraseSubject_preserves hT hs σ h.preserved)
  | destroyExpired keepQuarters asOfMs =>
    rw [HoldStep.inForce_of_none rfl rfl]
    exact h.kept (destroyExpired_preserves hstands keepQuarters asOfMs σ h.preserved)
  | reindexAll env =>
    rw [HoldStep.inForce_of_none rfl rfl]
    exact h.kept (reindexAll_preserves σ h.preserved)
  | reconcile env =>
    rw [HoldStep.inForce_of_none rfl rfl]
    exact h.kept (reconcile_preserves σ h.preserved)
  | place now ulid s' reason operator records =>
    exact h.placing hH hfresh rfl (HoldStep.run_place P σ now ulid s' reason operator records)
  | placeOverRecord now ulids record reason operator =>
    exact h.placing hH hfresh rfl (HoldStep.run_placeOverRecord P σ now ulids record reason operator)
  | release now i reason operator =>
    rcases releaseHold_cases P now i reason operator σ with ⟨k, l, rfl, hrel⟩ | ⟨e, he⟩
    · have hreleased : HoldStep.released P σ (.release now l.id reason operator) = some l.id := by
        rw [HoldStep.released, hrel]
        rfl
      rw [HoldStep.inForce, hreleased, HoldStep.run, hrel]
      simpa [HoldStep.placed] using h.release hH l
    · have hreleased : HoldStep.released P σ (.release now i reason operator) = none := by
        rw [HoldStep.released, he]
        rfl
      rw [HoldStep.inForce_of_none rfl hreleased, HoldStep.run, he]
      exact h
  | accept env r body =>
    rw [HoldStep.inForce_of_none rfl rfl]
    exact h.kept (accept_keeps preserved_write r body σ h.preserved)

def HoldStep.runAll (P : Pipeline) : Store → List HoldStep → Store
  | σ, [] => σ
  | σ, a :: as => runAll P (a.run P σ) as

/-- The identifiers of the holds over a subject that are placed and not released, after a run. -/
def HoldStep.inForceAfter (P : Pipeline) (s : SubjectHash) : List Text → Store → List HoldStep → List Text
  | ids, _, [] => ids
  | ids, σ, a :: as => inForceAfter P s (a.inForce P s σ ids) (a.run P σ) as

/-- A run of which each step finds some hold over the subject that is not released. -/
def Unlifted (P : Pipeline) (s : SubjectHash) : List Text → Store → List HoldStep → Prop
  | _, _, [] => True
  | ids, σ, a :: as => ids ≠ [] ∧ a.Fresh P σ ∧ Unlifted P s (a.inForce P s σ ids) (a.run P σ) as

theorem Watched.run (hT : P.tombstoneLine.Lawful) (hH : P.holdLine.Lawful) {as : List HoldStep}
    (h : Watched P s t ids σ) (hrun : Unlifted P s ids σ as) :
    Watched P s t (HoldStep.inForceAfter P s ids σ as) (HoldStep.runAll P σ as) := by
  induction as generalizing ids σ with
  | nil => exact h
  | cons a as ih => exact ih (h.step hT hH hrun.1 hrun.2.1) hrun.2.2

theorem Watched.rebase (h : Watched P s t ids σ) : Watched P s σ.keys ids σ :=
  ⟨⟨fun _ _ _ hf => hf, h.preserved.unmarked, h.preserved.unlogged, rfl⟩, h.clean, h.stands⟩

theorem HoldStep.runAll_append (P : Pipeline) (σ : Store) (as bs : List HoldStep) :
    HoldStep.runAll P σ (as ++ bs) = HoldStep.runAll P (HoldStep.runAll P σ as) bs := by
  induction as generalizing σ with
  | nil => rfl
  | cons a as ih => exact ih _

theorem HoldStep.inForceAfter_append (P : Pipeline) (s : SubjectHash) (ids : List Text) (σ : Store)
    (as bs : List HoldStep) : HoldStep.inForceAfter P s ids σ (as ++ bs) =
      HoldStep.inForceAfter P s (HoldStep.inForceAfter P s ids σ as) (HoldStep.runAll P σ as) bs := by
  induction as generalizing ids σ with
  | nil => rfl
  | cons a as ih => exact ih _ _

theorem unlifted_append {as bs : List HoldStep} (h : Unlifted P s ids σ (as ++ bs)) :
    Unlifted P s ids σ as ∧
      Unlifted P s (HoldStep.inForceAfter P s ids σ as) (HoldStep.runAll P σ as) bs := by
  induction as generalizing ids σ with
  | nil => exact ⟨trivial, h⟩
  | cons a as ih =>
    obtain ⟨hids, hfresh, hrest⟩ := h
    exact ⟨⟨hids, hfresh, (ih hrest).1⟩, (ih hrest).2⟩

/-- The identifiers of the holds that stand over a subject. -/
def standingIds (P : Pipeline) (s : SubjectHash) (σ : Store) : List Text :=
  match (standing P σ).1 with
  | .ok holds => (holds.filter (·.subject = s)).map (·.id)
  | .error _ => []

/-- What holds over a subject promise of a later store: every key file that stood stands, no
    account names the subject as erased, each hold is in force, and an erasure is refused
    without touching anything. -/
structure Outranked (P : Pipeline) (s : SubjectHash) (ids : List Text) (σ σ' : Store) : Prop where
  keys : ∀ p f, Tree.Under (subjectDir s) p → σ.keys.lookup p = some f → σ'.keys.lookup p = some f
  unerased : ¬ Named P σ' s
  inForce : ∀ id ∈ ids, ∀ holds, (standing P σ').1 = .ok holds →
    ∃ k ∈ holds, k.id = id ∧ k.subject = s
  refused : ids ≠ [] → ∀ env, ∃ e, eraseSubject P env s σ' = (.error e, σ')

theorem Watched.outranked (h : Watched P s t ids σ) : Outranked P s ids { σ with keys := t } σ := by
  refine ⟨h.preserved.keys, h.preserved.not_named, fun id hid holds hst => ?_, fun hids env => ?_⟩
  · exact (h.stands id hid).mem_standing (Prod.ext hst rfl)
  · obtain ⟨id, hid⟩ := List.exists_mem_of_ne_nil ids hids
    exact eraseSubject_refused (h.stands id hid) env

/-- **A hold outranks every destruction.**  Placed while the hold log takes its next line, over a
    subject that no account names as erased, it preserves the subject through every run that
    starts each step with some hold over the subject not released. -/
theorem hold_outranks (hT : P.tombstoneLine.Lawful) (hH : P.holdLine.Lawful)
    (hunerased : ¬ Named P σ s) (hclean : LineLog.Clean P.holdLine σ.holdLog)
    (hplaced : ∃ k ∈ a.placed P σ, k.subject = s) (hfresh : a.Fresh P σ) {as bs : List HoldStep}
    (hrun : Unlifted P s (a.inForce P s σ (standingIds P s σ)) (a.run P σ) (as ++ bs)) :
    Outranked P s
      (HoldStep.inForceAfter P s (a.inForce P s σ (standingIds P s σ)) (a.run P σ) (as ++ bs))
      (HoldStep.runAll P (a.run P σ) as) (HoldStep.runAll P (a.run P σ) (as ++ bs)) := by
  have hstart : Watched P s σ.keys (standingIds P s σ) σ := by
    refine ⟨preserved_start hunerased, hclean, fun id hid => ?_⟩
    unfold standingIds at hid
    cases hst : standing P σ with
    | mk res τ =>
      rw [hst] at hid
      cases res with
      | error e => cases hid
      | ok holds =>
        obtain ⟨k, hk, rfl⟩ := List.mem_map.1 hid
        obtain ⟨hmem, hs⟩ := List.mem_filter.1 hk
        obtain rfl := of_decide_eq_true hs
        exact holdStands_of_standing hst hmem
  have hfirst : Watched P s σ.keys (a.inForce P s σ (standingIds P s σ)) (a.run P σ) := by
    obtain ⟨k, hk, -⟩ := hplaced
    cases a with
    | place now ulid s' reason operator records =>
      exact hstart.placing hH hfresh rfl (HoldStep.run_place P σ now ulid s' reason operator records)
    | placeOverRecord now ulids record reason operator =>
      exact hstart.placing hH hfresh rfl
        (HoldStep.run_placeOverRecord P σ now ulids record reason operator)
    | _ => cases hk
  obtain ⟨hbefore, hafter⟩ := unlifted_append hrun
  rw [HoldStep.inForceAfter_append, HoldStep.runAll_append]
  have hlast := ((hfirst.run hT hH hbefore).rebase.run hT hH hafter).outranked
  exact ⟨hlast.keys, hlast.unerased, hlast.inForce, hlast.refused⟩

/-! ## A hold placed behind a torn line -/

/-- A placement over one subject. -/
def somePlacement : HoldStep :=
  .place 0 (ulid 'A' isCrockfordDigit_A) someSubject "order".toList "counsel".toList []

/-- The erasure of that subject. -/
def someErasure : HoldStep := .erase (quietEnv 1) someSubject

/-- A store whose hold log holds the first byte of a line. -/
def tornHolds : Store := { emptyStore with holdLog := some [123] }

theorem HoldStep.fresh_of_none (h : a.placed P σ = []) : a.Fresh P σ :=
  ⟨by simp [h], by simp [h]⟩

theorem somePlacement_fresh (hlog : LineLog.entries P.holdLine σ.holdLog = .ok []) :
    somePlacement.Fresh P σ := by
  have hone : ∀ o : Option Hold, (o.toList.map (·.id)).Nodup := fun o => by cases o <;> simp
  refine ⟨?_, fun k _ es hes l hl => ?_⟩
  · rw [somePlacement, HoldStep.placed]
    exact hone _
  · obtain rfl := Except.ok.inj (hlog.symm.trans hes)
    cases hl

theorem not_named_of_bare (hkeys : σ.keys = ∅) (hlog : σ.tombstoneLog = none) : ¬ Named P σ s := by
  rintro (hm | ⟨es, hes, e, he, -⟩)
  · obtain ⟨p, hp, -⟩ := Tree.mem_entryNames.1 hm
    rw [hkeys] at hp
    exact absurd hp (AList.notMem_empty p)
  · rw [hlog] at hes
    obtain rfl := Except.ok.inj hes
    cases he

theorem hold_outranks_erasure :
    Outranked (deployment declaredSubjects) someSubject
      (HoldStep.inForceAfter (deployment declaredSubjects) someSubject
        (somePlacement.inForce (deployment declaredSubjects) someSubject emptyStore
          (standingIds (deployment declaredSubjects) someSubject emptyStore))
        (somePlacement.run (deployment declaredSubjects) emptyStore)
        ([someErasure] ++ [.reindexAll (quietEnv 2)]))
      (HoldStep.runAll (deployment declaredSubjects)
        (somePlacement.run (deployment declaredSubjects) emptyStore) [someErasure])
      (HoldStep.runAll (deployment declaredSubjects)
        (somePlacement.run (deployment declaredSubjects) emptyStore)
        ([someErasure] ++ [.reindexAll (quietEnv 2)])) := by
  have hended : LineLog.Ended emptyStore.holdLog := by
    intro t ht
    obtain rfl : t = [] := Utf8.encode_inj ht.symm
    exact .inl rfl
  have hplaced : ∃ k ∈ somePlacement.placed (deployment declaredSubjects) emptyStore,
      k.subject = someSubject := by decide +kernel
  refine hold_outranks tombstoneCodec_lawful holdCodec_lawful (not_named_of_bare rfl rfl)
    (hended.clean holdCodec_lawful) hplaced (somePlacement_fresh rfl) ?_
  refine ⟨?_, HoldStep.fresh_of_none rfl, ?_, HoldStep.fresh_of_none rfl, trivial⟩
  · decide +kernel
  · decide +kernel

/-- **A hold placed behind a torn line does not hold**: the erasure goes through. -/
theorem torn_line_lifts_hold : ¬ ∀ (P : Pipeline) (s : SubjectHash) (σ : Store) (a : HoldStep)
    (as bs : List HoldStep), P.tombstoneLine.Lawful → P.holdLine.Lawful → ¬ Named P σ s →
      (∃ k ∈ a.placed P σ, k.subject = s) → a.Fresh P σ →
      Unlifted P s (a.inForce P s σ (standingIds P s σ)) (a.run P σ) (as ++ bs) →
      Outranked P s
        (HoldStep.inForceAfter P s (a.inForce P s σ (standingIds P s σ)) (a.run P σ) (as ++ bs))
        (HoldStep.runAll P (a.run P σ) as) (HoldStep.runAll P (a.run P σ) (as ++ bs)) := by
  intro h
  have hplaced : ∃ k ∈ somePlacement.placed (deployment declaredSubjects) tornHolds,
      k.subject = someSubject := by decide +kernel
  have hlog : LineLog.entries holdCodec tornHolds.holdLog = .ok [] :=
    ok_of_toOption (by decide +kernel)
  have hids : somePlacement.inForce (deployment declaredSubjects) someSubject tornHolds
      (standingIds (deployment declaredSubjects) someSubject tornHolds) ≠ [] := by decide +kernel
  have houtranked := h (deployment declaredSubjects) someSubject tornHolds somePlacement []
    [someErasure] tombstoneCodec_lawful holdCodec_lawful (not_named_of_bare rfl rfl) hplaced
    (somePlacement_fresh hlog) ⟨hids, HoldStep.fresh_of_none rfl, trivial⟩
  refine houtranked.unerased (.inl ?_)
  decide +kernel

end Yaam.Core
