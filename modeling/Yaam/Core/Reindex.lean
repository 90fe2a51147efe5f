/-
  Rebuilding the index from the tree, and the erasure that ends with it
  (`yaam-core`, `reindex.rs` and `erase.rs`).

  * `reindexAll` replays the erasures on record and derives every row again, in one
    transaction;
  * `eraseSubject` erases a subject: log, marker, keys, bodies, index, verification.
-/
import Yaam.Core.Hold

namespace Yaam.Core

open Text Contract Crypto Md Eff

/-- What a rebuild produced. -/
structure ReindexReport where
  fromTree : ℕ
  fromManifests : ℕ
  skipped : ℕ
  tombstonesReplayed : ℕ
  timelinesDropped : ℕ
deriving DecidableEq

/-- The files one rebuild reads. -/
structure Sources where
  tree : List Path
  manifests : List Path
  quarantine : List Path

section
variable (P : Pipeline) (env : Env)

/-- A record file's place in arrival order: the last four components of its path. -/
def arrivalKey (p : Path) : Path :=
  let parts := dirPath P "records" p
  parts.drop (parts.length - 4)

/-- The files a rebuild derives from. -/
def Sources.list (σ : Store) : Sources where
  tree := (σ.records.walkFiles recordExt).insertionSort fun p q => arrivalKey P p ≤ arrivalKey P q
  manifests := σ.cold.walkFiles manifestExt
  quarantine := σ.quarantine.walkFiles recordExt

/-- Removes every materialised timeline; answers how many there were. -/
def dropTimelines : StoreM ℕ := do
  let dropped := ((← state).entities.walkFiles recordExt).length
  change fun s => { s with entities := ∅ }
  return dropped

/-- Indexes one record file, or skips it: the counts of both. -/
def indexFile (counts : ℕ × ℕ) (p : Path) : StoreM (ℕ × ℕ) := do
  let text ← readFile Store.records p
  match Document.parse P.yaml text with
  | .ok d => do
    inBatch (publishDocument d)
    return (counts.1 + 1, counts.2)
  | .error _ => return (counts.1, counts.2 + 1)

/-- Indexes one manifest line, or skips it. -/
def indexLine (counts : ℕ × ℕ) (line : Text) : StoreM (ℕ × ℕ) :=
  match manifestRecord P line with
  | .ok r => do
    inBatch (Index.publish ⟨r, [], []⟩)
    return (counts.1 + 1, counts.2)
  | .error _ => return (counts.1, counts.2 + 1)

/-- Indexes one manifest's lines. -/
def indexManifest (counts : ℕ × ℕ) (p : Path) : StoreM (ℕ × ℕ) := do
  let text ← readFile Store.cold p
  ((lines text).filter fun l => trim l ≠ []).foldlM (indexLine P) counts

/-- Registers one record still held back; a copy that will not parse is skipped. -/
def reregisterFile (p : Path) : StoreM Unit := do
  let text ← readFile Store.quarantine p
  match Document.parse P.yaml text with
  | .error _ => return ()
  | .ok d => do
    let st ← ofExcept (stampOf d.record)
    let path := dirPath P ".quarantine" p
    inBatch (change (Index.enqueueQuarantine d.record.recordId st.date path env.now))

/-- The transaction of a rebuild: the index truncated and derived again. -/
def rebuild (replayed : ℕ) (sources : Sources) : StoreM ReindexReport :=
  transaction do
    inBatch (change Index.truncateDerived)
    let dropped ← dropTimelines
    let tree ← sources.tree.foldlM (indexFile P) (0, 0)
    let manifests ← sources.manifests.foldlM (indexManifest P) (0, 0)
    forM sources.quarantine (reregisterFile P env)
    return ⟨tree.1, manifests.1, tree.2 + manifests.2, replayed, dropped⟩

/-- Rebuilds the index in place. -/
def reindexAll : StoreM ReindexReport := do
  let replayed ← replayTombstones P env
  let sources := Sources.list P (← state)
  rebuild P env replayed sources

/-! ## Erasure -/

/-- What an erasure did. -/
structure EraseReport where
  bodiesSealedOff : ℕ
  keysDestroyed : ℕ
  quarantineSettled : ℕ
  tombstoneId : Text
deriving DecidableEq

def tombPrefix : Text := "tomb-".toList

/-- Erases a subject's bodies and records the fact. -/
def eraseSubject (s : SubjectHash) : StoreM EraseReport := do
  refuseIfHeld P s
  let id := tombPrefix ++ env.ulid.text
  let records ← affected P s
  appendTombstone P ⟨id, s.text, env.now, false, records⟩
  keyed ((P.keys env).tombstone s)
  let keysDestroyed := keyFilesFor (← state).keys s
  keyed (destroySubject s)
  let bodiesSealedOff ← dropBodies P env s
  let quarantineSettled ← sweepQuarantine P env s
  let _ ← reindexAll P env
  verifyLive P s
  return ⟨bodiesSealedOff, keysDestroyed, quarantineSettled, id⟩

end

end Yaam.Core
