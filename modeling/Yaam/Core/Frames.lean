/-
  What the passes of an erasure, and writes, leave alone.

  * `BodyFrame` is kept by whatever writes record files only: `dropBodies_keeps` and
    `sweepQuarantine_keeps`;
  * `DerivedFrame` is kept by whatever writes what is derived: `rebuild_keeps`;
  * `WriteFrame` is kept by the write pipeline: `accept_keeps`;
  * the passes that only read keep everything: `affected_keeps`, `verifyLive_keeps`,
    `refuseIfHeld_keeps`.
-/
import Yaam.Core.Retain

namespace Yaam.Core

open Text Contract Crypto Md Eff

variable {P : Pipeline} {env : Env} {I : Store → Prop}

/-- A property that does not speak of the record files. -/
structure BodyFrame (I : Store → Prop) : Prop where
  records : ∀ s t, I s → I { s with records := t }
  staging : ∀ s t, I s → I { s with staging := t }
  quarantine : ∀ s t, I s → I { s with quarantine := t }

/-- A property that does not speak of what is derived from them. -/
structure DerivedFrame (I : Store → Prop) : Prop where
  index : ∀ s i, I s → I { s with index := i }
  entities : ∀ s t, I s → I { s with entities := t }

/-! ## Passes that read -/

theorem readFile_keeps (dir : Store → Tree) (p : Path) : Keeps I (readFile dir p) := by
  refine Keeps.state_bind fun s hs => ?_
  cases (dir s).readToString p with
  | ok t => exact hs
  | error e => exact hs

theorem readLog_keeps : Keeps I (readLog P) := by
  refine Keeps.state_bind fun s hs => ?_
  cases LineLog.entries P.tombstoneLine s.tombstoneLog with
  | ok es => exact hs
  | error e => exact hs

theorem affected_keeps (s : SubjectHash) : Keeps I (affected P s) := by
  have hfile : ∀ dir found p, Keeps I (affectedFile P s dir found p) := by
    intro dir found p
    refine (readFile_keeps _ _).bind fun text => ?_
    cases Document.parse P.yaml text with
    | error e => exact Keeps.pure _
    | ok d =>
      dsimp only
      split_ifs <;> exact Keeps.pure _
  exact Keeps.state.bind fun _ => (Keeps.foldlM (fun _ _ _ => hfile _ _ _) _).bind fun _ =>
    Keeps.state.bind fun _ => (Keeps.foldlM (fun _ _ _ => hfile _ _ _) _).bind fun _ => Keeps.pure _

theorem standing_keeps : Keeps I (standing P) := by
  have hread : Keeps I (readHolds P) := by
    refine Keeps.state_bind fun s hs => ?_
    cases LineLog.entries P.holdLine s.holdLog with
    | ok ls => exact hs
    | error e => exact hs
  exact hread.bind fun _ => Keeps.pure _

theorem refuseIfHeld_keeps (s : SubjectHash) : Keeps I (refuseIfHeld P s) := by
  refine (standing_keeps.bind fun _ => Keeps.pure _).bind fun holds => ?_
  split_ifs
  · exact Keeps.pure _
  · exact Keeps.fail _

theorem isTombstoned_keeps (s : SubjectHash) : Keeps I (keyed (isTombstoned s)) :=
  fun _ hs => hs

theorem verifyLive_keeps (s : SubjectHash) : Keeps I (verifyLive P s) := by
  have hfile : ∀ p, Keeps I (verifyFile P s p) := by
    intro p
    refine (readFile_keeps _ _).bind fun text => ?_
    cases Document.parse P.yaml text with
    | error e => exact Keeps.pure _
    | ok d =>
      dsimp only
      split_ifs
      · exact Keeps.fail _
      · exact Keeps.pure _
  refine (isTombstoned_keeps s).bind fun marked => ?_
  split_ifs
  · exact Keeps.fail _
  · refine Keeps.state.bind fun u => ?_
    dsimp only
    split_ifs
    · exact Keeps.fail _
    · exact Keeps.state.bind fun _ => Keeps.forM fun p _ => hfile p

/-! ## Passes over the record files -/

theorem dropBodies_keeps (hI : BodyFrame I) (s : SubjectHash) : Keeps I (dropBodies P env s) := by
  have hfile : ∀ n p, Keeps I (dropBody P env s n p) := by
    intro n p
    refine (readFile_keeps _ _).bind fun text => ?_
    cases Document.parse P.yaml text with
    | error e => exact Keeps.pure _
    | ok d =>
      dsimp only
      split_ifs
      · exact Keeps.pure _
      · exact Keeps.bind (Keeps.change fun u hu => hI.records u _ hu) fun _ => Keeps.pure _
  exact Keeps.state.bind fun _ => Keeps.foldlM (fun n p _ => hfile n p) 0

theorem publishStructureOnly_keeps (hI : BodyFrame I) (held : Document) :
    Keeps I (publishStructureOnly P env held) := by
  refine (Keeps.ofExcept _).bind fun st => ?_
  cases hdest : publishedPath (structureOf held).record st with
  | error e => exact Keeps.fail _
  | ok dest =>
    rw [ofExcept_ok_bind]
    refine Keeps.state_bind fun u hu => ?_
    split_ifs
    · exact hu
    · simp only [bind_of_ok (stage_apply _ _), bind_of_ok (place_stagedIn hdest _)]
      exact hI.records _ _ (hI.staging _ _ hu)

theorem sweepQuarantine_keeps (hI : BodyFrame I) (s : SubjectHash) :
    Keeps I (sweepQuarantine P env s) := by
  have hfile : ∀ n p, Keeps I (settleHeld P env s n p) := by
    intro n p
    refine (readFile_keeps _ _).bind fun text => ?_
    cases Document.parse P.yaml text with
    | error e => exact Keeps.pure _
    | ok d =>
      dsimp only
      split_ifs
      · exact (publishStructureOnly_keeps hI _).bind fun _ =>
          Keeps.bind (Keeps.change fun u hu => hI.quarantine u _ hu) fun _ => Keeps.pure _
      · exact Keeps.pure _
  exact Keeps.state.bind fun _ => Keeps.foldlM (fun n p _ => hfile n p) 0

/-! ## The rebuild -/

/-- **A rebuild writes the index and the timelines only.** -/
theorem rebuild_keeps (hI : DerivedFrame I) (n : ℕ) (sources : Sources) :
    Keeps I (rebuild P env n sources) := by
  have hbatch : ∀ {α : Type} (x : Eff Index.Tables Index.Error α), Keeps I (inBatch x) :=
    fun x s hs => hI.index s _ hs
  have hindex : ∀ b p, Keeps I (indexFile P b p) := by
    intro b p
    refine (readFile_keeps _ _).bind fun text => ?_
    cases Document.parse P.yaml text with
    | error e => exact Keeps.pure _
    | ok d => exact (hbatch _).bind fun _ => Keeps.pure _
  have hline : ∀ b l, Keeps I (indexLine P b l) := by
    intro b l
    unfold indexLine
    cases manifestRecord P l with
    | error e => exact Keeps.pure _
    | ok r => exact (hbatch _).bind fun _ => Keeps.pure _
  have hmanifest : ∀ b p, Keeps I (indexManifest P b p) := fun b p =>
    (readFile_keeps _ _).bind fun text => Keeps.foldlM (fun b l _ => hline b l) b
  have hregister : ∀ p, Keeps I (reregisterFile P env p) := by
    intro p
    refine (readFile_keeps _ _).bind fun text => ?_
    cases Document.parse P.yaml text with
    | error e => exact Keeps.pure _
    | ok d => exact (Keeps.ofExcept _).bind fun st => hbatch _
  have hdrop : Keeps I dropTimelines := fun s hs => hI.entities s _ hs
  have hbody : Keeps I (do
      inBatch (change Index.truncateDerived)
      let dropped ← dropTimelines
      let tree ← sources.tree.foldlM (indexFile P) (0, 0)
      let manifests ← sources.manifests.foldlM (indexManifest P) (0, 0)
      forM sources.quarantine (reregisterFile P env)
      return (⟨tree.1, manifests.1, tree.2 + manifests.2, n, dropped⟩ : ReindexReport)) :=
    (hbatch _).bind fun _ => hdrop.bind fun _ => (Keeps.foldlM (fun b p _ => hindex b p) _).bind
      fun _ => (Keeps.foldlM (fun b p _ => hmanifest b p) _).bind fun _ =>
        (Keeps.forM fun p _ => hregister p).bind fun _ => Keeps.pure _
  intro s hs
  have hs' := hbody s hs
  unfold rebuild transaction
  split
  · rename_i heq
    rw [heq] at hs'
    exact hs'
  · rename_i heq
    rw [heq] at hs'
    exact hI.index _ _ hs'

/-! ## Writes -/

/-- A property of the key store and the two logs that a new key file keeps. -/
structure WriteFrame (I : Store → Prop) : Prop where
  minted : ∀ σ : Store, NewKeys fun t => I { σ with keys := t }
  rest : ∀ σ τ : Store, τ.keys = σ.keys → τ.tombstoneLog = σ.tombstoneLog → τ.holdLog = σ.holdLog →
    I σ → I τ

theorem sealUnder_keeps (hI : WriteFrame I) (draws : Draws) (id : RecordId)
    (subjects : List SubjectHash) (epoch : Epoch) (body : Text) :
    Keeps I (sealUnder P env draws id subjects epoch body) :=
  Keeps.zoom fun σ hσ => Keeps.mapError (seal_keeps (hI.minted σ) _ _ _) σ.keys hσ

theorem sealBody_keeps (hI : WriteFrame I) (r : ActionRecord) (resolved : List SubjectRef)
    (st : Stamp) (body : Text) : Keeps I (sealBody P env r resolved st body) := by
  have hlook : ∀ ss, Keeps I (tombstoned ss) := fun ss σ hσ => by rwa [tombstoned_apply]
  have hagain : ∀ ss, Keeps I (erasedMeanwhile ss) := fun ss σ hσ => by rwa [erasedMeanwhile_apply]
  unfold sealBody
  split_ifs
  · exact Keeps.pure _
  refine (hlook _).bind fun erased => ?_
  split_ifs
  · exact Keeps.pure _
  refine (sealUnder_keeps hI _ _ _ _ _).attempt.bind fun res => ?_
  cases res with
  | ok block => exact Keeps.pure _
  | error e =>
    cases e with
    | subjectUnresolved =>
      refine (hagain _).bind fun erased => ?_
      split_ifs
      · exact Keeps.pure _
      · exact Keeps.fail _
    | _ => exact Keeps.fail _

theorem resolveAndSeal_keeps (hI : WriteFrame I) (r : ActionRecord) (st : Stamp) (body : Text) :
    Keeps I (resolveAndSeal P env r st body) := by
  unfold resolveAndSeal
  cases P.resolver r with
  | resolved subjects =>
    exact (Keeps.ofExcept _).bind fun _ => (sealBody_keeps hI _ _ _ _).bind fun _ => Keeps.pure _
  | unavailable reason => exact Keeps.fail _
  | refused reason => exact Keeps.fail _

theorem quarantine_keeps (hI : WriteFrame I) (r : ActionRecord) (st : Stamp) (body : Text) :
    Keeps I (quarantine P env r st body) := by
  refine (Keeps.ofExcept _).bind fun _ => (sealUnder_keeps hI _ _ _ _ _).bind fun block => ?_
  exact Keeps.bind (Keeps.change fun σ hσ => hI.rest σ _ rfl rfl rfl hσ) fun _ =>
    Keeps.zoom fun σ hσ => hI.rest σ _ rfl rfl rfl hσ

theorem admission_keeps (hI : WriteFrame I) (r : ActionRecord) (body : Text) :
    Keeps I (admission P env r body) := by
  refine (Keeps.ofExcept _).bind fun st => (Keeps.ofExcept _).bind fun dest =>
    Keeps.state.bind fun σ => ?_
  split_ifs
  · exact Keeps.pure _
  refine (Keeps.ofExcept _).bind fun record =>
    (resolveAndSeal_keeps hI _ _ _).attempt.bind fun res => ?_
  cases res with
  | ok sealedBody => exact Keeps.pure _
  | error e =>
    cases e with
    | subjectUnresolved => exact (quarantine_keeps hI _ _ _).bind fun _ => Keeps.pure _
    | _ => exact Keeps.fail _

/-- **A write adds key files, and leaves the logs.** -/
theorem accept_keeps (hI : WriteFrame I) (r : ActionRecord) (body : Text) :
    Keeps I (accept P env r body) := by
  refine (admission_keeps hI r body).bind fun a => ?_
  cases a with
  | duplicate => exact Keeps.pure _
  | held => exact Keeps.pure _
  | admitted d st =>
    have hstage : Keeps I (stage P env d) := fun σ hσ => hI.rest σ _ rfl rfl rfl hσ
    have hplace : ∀ staged, Keeps I (place d staged st) := by
      intro staged
      refine (Keeps.ofExcept _).bind fun dest => Keeps.state_bind fun σ hσ => ?_
      cases Tree.rename σ.staging σ.records staged dest with
      | ok trees => exact hI.rest σ _ rfl rfl rfl hσ
      | error e =>
        dsimp only
        split_ifs
        · exact hσ
        · exact hσ
    have hcommit : Keeps I (commit d) := Keeps.zoom fun σ hσ => hI.rest σ _ rfl rfl rfl hσ
    have hsettle : Keeps I (settleQuarantine d.record.recordId) :=
      Keeps.bind (Keeps.change fun σ hσ => hI.rest σ _ rfl rfl rfl hσ) fun _ =>
        Keeps.zoom fun σ hσ => hI.rest σ _ rfl rfl rfl hσ
    exact hstage.bind fun staged => (hplace staged).bind fun _ => hcommit.bind fun _ =>
      hsettle.bind fun _ => Keeps.pure _

end Yaam.Core
