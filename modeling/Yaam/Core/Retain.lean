/-
  The two other passes that destroy keys: retention, by age and under holds, and the
  reconcile after a restore (`yaam-core`, `retain.rs` and `restore.rs`).

  * `survey` decides about every key, `destroyExpired` acts on it;
  * `reconcile` destroys the keys that the erasures on record forbid.
-/
import Yaam.Core.Reindex

namespace Yaam.Core

open Text Contract Crypto Eff

/-- What a pass decided about one key. -/
inductive Verdict where
  | keep
  | destroy
  | held (holds : List Text)
  | unreadable
deriving DecidableEq

/-- One key the store holds, and what the pass decided about it. -/
structure Candidate where
  subject : SubjectHash
  epoch : Epoch
  verdict : Verdict
deriving DecidableEq

/-- What a retention pass did. -/
structure RetainReport where
  oldestKept : Text
  keysWalked : ℕ
  keysKept : ℕ
  keysDestroyed : ℕ
  keysHeld : ℕ
  keysUnreadable : ℕ
  destroyedByEpoch : List (Text × ℕ)
  holds : List Text
  subjectsHeld : ℕ
deriving DecidableEq

/-- The verdict on a key, when the standing holds are these. -/
def verdictOn (oldestKept : Epoch) (holds : List Hold) (s : SubjectHash) (e : Epoch) : Verdict :=
  match e.precedes oldestKept with
  | none => .unreadable
  | some false => .keep
  | some true =>
    let holdIds := (holds.filter fun h => h.subject = s).map (·.id)
    if holdIds = [] then .destroy else .held holdIds

/-- Every key the store holds, with the cutoff and what it decides about each. -/
def survey (P : Pipeline) (keepQuarters : ℕ) (asOfMs : ℤ) : StoreM (Epoch × List Candidate) := do
  let now := Epoch.containing asOfMs
  match now.quartersBefore keepQuarters with
  | none => fail (invalid (s!"keeping {keepQuarters} quarter(s) before " ++
      s!"`{String.ofList now.text}` reaches off the calendar an epoch label can express, so " ++
      "there is no cutoff to apply"))
  | some oldestKept => do
    let holds ← standing P
    let keys ← keyed keyEpochs
    return (oldestKept, keys.map fun k => ⟨k.1, k.2, verdictOn oldestKept holds k.1 k.2⟩)

/-- The report a surveyed walk adds up to. -/
def tally (oldestKept : Epoch) (candidates : List Candidate) : RetainReport :=
  let destroyed := candidates.filter fun c => c.verdict = .destroy
  let held := candidates.filterMap fun c => match c.verdict with
    | .held ids => some (c.subject, ids)
    | _ => none
  let epochs := (destroyed.map (·.epoch.text)).dedup.insertionSort (· ≤ ·)
  { oldestKept := oldestKept.text
    keysWalked := candidates.length
    keysKept := (candidates.filter fun c => c.verdict = .keep).length
    keysDestroyed := destroyed.length
    keysHeld := held.length
    keysUnreadable := (candidates.filter fun c => c.verdict = .unreadable).length
    destroyedByEpoch := epochs.map fun e => (e, (destroyed.filter fun c => c.epoch.text = e).length)
    holds := (held.flatMap (·.2)).dedup.insertionSort (· ≤ ·)
    subjectsHeld := (held.map (·.1.text)).dedup.length }

/-- The narrowest and widest retention a whole number of quarters can promise, in months. -/
def windowMonths (keepQuarters : UInt32) : UInt32 × UInt32 := (keepQuarters * 3, keepQuarters * 3 + 3)

/-- What a pass would destroy, without destroying it. -/
def preview (P : Pipeline) (keepQuarters : ℕ) (asOfMs : ℤ) : StoreM RetainReport := do
  let (oldestKept, candidates) ← survey P keepQuarters asOfMs
  return tally oldestKept candidates

/-- Destroys every key past the cutoff that no hold preserves. -/
def destroyExpired (P : Pipeline) (keepQuarters : ℕ) (asOfMs : ℤ) : StoreM RetainReport := do
  let (oldestKept, candidates) ← survey P keepQuarters asOfMs
  forM (candidates.filter fun c => c.verdict = .destroy) fun c =>
    keyed (destroyEpoch c.subject c.epoch)
  return tally oldestKept candidates

/-! ## Reconciling a restored key store -/

/-- What a reconcile compared, and what it destroyed. -/
structure Reconciliation where
  subjectsErased : ℕ
  subjectsResurrected : ℕ
  keysDestroyed : ℕ
  blocklistRestored : ℕ
deriving DecidableEq

/-- Every subject an erasure stands against, from the blocklist and the log. -/
def erasedSubjects (P : Pipeline) : StoreM (List SubjectHash) := do
  let blocked ← keyed tombstonedSubjects
  let log ← readLog P
  let logged ← ofExcept (log.mapM fun e => liftContract (SubjectHash.parse e.subject))
  return ((blocked ++ logged).insertionSort fun a b => a.text ≤ b.text).dedup

/-- Destroys one erased subject's keys, and restores its marker. -/
def reconcileSubject (P : Pipeline) (env : Env) (r : Reconciliation) (s : SubjectHash) :
    StoreM Reconciliation := do
  let marked ← keyed (isTombstoned s)
  let restored := if marked then 0 else 1
  if marked = false then keyed ((P.keys env).tombstone s) else pure ()
  let keys := keyFilesFor (← state).keys s
  if 0 < keys then keyed (destroySubject s) else pure ()
  let resurrected := if 0 < keys then 1 else 0
  return ⟨r.subjectsErased + 1, r.subjectsResurrected + resurrected, r.keysDestroyed + keys,
    r.blocklistRestored + restored⟩

/-- Destroys every key the erasures on record forbid, and restores the markers. -/
def reconcile (P : Pipeline) (env : Env) : StoreM Reconciliation := do
  let subjects ← erasedSubjects P
  subjects.foldlM (reconcileSubject P env) ⟨0, 0, 0, 0⟩

end Yaam.Core
