/-
  Convergence after a crash: the sweep (`yaam-core`, `sweeper.rs`).

  * `sweep` re-drives stale staging copies, indexes published files the index has
    no row for, repairs timeline heads and takes back stale claims.
-/
import Yaam.Core.Reindex

namespace Yaam.Core

open Text Contract Md Eff

/-- Files younger than this may belong to a write in flight. -/
def graceMs : ℤ := 60000

/-- A fan-out claim older than this is held by a process that died. -/
def claimGraceMs : ℤ := 5 * 60000

/-- How far back a sweep looks for files the index has not caught up with. -/
def sweepLookbackMs : ℤ := 7 * 24 * 60 * 60 * 1000

/-- What a sweep did. -/
structure SweepReport where
  stagedRedriven : ℕ
  reindexed : ℕ
  entitiesRepaired : ℕ
  fanoutReclaimed : ℕ
deriving DecidableEq

section
variable (P : Pipeline) (env : Env)

/-- When a file was written. -/
def mtime (t : Tree) (p : Path) : ℤ := (t.lookup p).elim 0 (·.mtime)

/-- The staging files whose write is presumed dead. -/
def staleStaging (σ : Store) : List Path :=
  (σ.staging.walkFiles recordExt).filter fun p => graceMs ≤ env.now - mtime σ.staging p

/-- The published files the index has no row for, among those lately written. -/
def unindexed (σ : Store) : List Path :=
  (σ.records.walkFiles recordExt).filter fun p =>
    ¬ mtime σ.records p < env.now - sweepLookbackMs ∧ ¬ (fileStem p).any σ.index.has

/-- Moves a staging file that will not parse out of the way. -/
def setAside (p : Path) : StoreM Unit := do
  let s ← state
  let name := [p.getLast?.getD []]
  match Tree.rename s.staging s.deadLetter p name with
  | .ok (staging, deadLetter) => change fun s => { s with staging, deadLetter }
  | .error e => fail (.io e)

/-- Completes the write of one staging file. -/
def redriveDocument (p : Path) (d : Document) : StoreM Unit := do
  let st ← ofExcept (stampOf d.record)
  let dest ← ofExcept (publishedPath d.record st)
  if dest ∈ (← state).records then do
    -- a completed write: the published file is authoritative, not the copy
    let text ← readFile Store.records dest
    let published ← liftMd (Document.parse P.yaml text)
    commit published
    change fun s => { s with staging := s.staging.erase p }
  else do
    let _ ← place d p st
    commit d

/-- Re-drives one staging file, or sets it aside. -/
def redriveFile (redriven : ℕ) (p : Path) : StoreM ℕ := do
  let text ← readFile Store.staging p
  match Document.parse P.yaml text with
  | .error _ => do
    setAside p
    return redriven
  | .ok d => do
    redriveDocument P p d
    return redriven + 1

/-- Re-drives the staging files whose write never reached the tree. -/
def redriveStaging : StoreM ℕ := do
  let files := staleStaging env (← state)
  files.foldlM (redriveFile P) 0

/-- Indexes one published file, if it parses. -/
def indexUnindexed (reindexed : ℕ) (p : Path) : StoreM ℕ := do
  let text ← readFile Store.records p
  match Document.parse P.yaml text with
  | .error _ => return reindexed
  | .ok d => do
    commit d
    return reindexed + 1

/-- Indexes the published files whose row never landed. -/
def indexTheUnindexed : StoreM ℕ := do
  let files := unindexed env (← state)
  files.foldlM (indexUnindexed P) 0

/-- The directories of the entity tree with an entry named like a frozen timeline
    part and no head. -/
def headless (t : Tree) : List Path :=
  let dirs := (t.keys.flatMap fun p => p.dropLast.inits).dedup
  dirs.filter fun dir =>
    timelineHead ∉ t.entryNames dir ∧ (t.entryNames dir).any (startsWith timelinePart)

/-- Makes the heads that an interrupted rollover left missing. -/
def repairTimelineHeads : StoreM ℕ := do
  let dirs := headless (← state).entities
  let repair := fun (t : Tree) dir => t.write (dir ++ [timelineHead]) [] env.now
  change fun s => { s with entities := dirs.foldl repair s.entities }
  return dirs.length

/-- Takes back the fan-out claims that outlived their drain. -/
def reclaimFanout : StoreM ℕ := indexed (Index.reclaimStaleFanout (env.now - claimGraceMs))

/-- Re-drives incomplete work. -/
def sweep : StoreM SweepReport := do
  let stagedRedriven ← redriveStaging P env
  let reindexed ← indexTheUnindexed P env
  let entitiesRepaired ← repairTimelineHeads env
  let fanoutReclaimed ← reclaimFanout env
  return ⟨stagedRedriven, reindexed, entitiesRepaired, fanoutReclaimed⟩

end

end Yaam.Core
