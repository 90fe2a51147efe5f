/-
  What an erasure does to the surfaces a subject's bodies are kept on
  (`yaam-core`, `erase.rs`).

  * `appendTombstone` and `readLog` are the erasure log, `affected` what an erasure
    reaches;
  * `dropBodies` empties the published records of a subject, `sweepQuarantine`
    settles those held back;
  * `replayTombstones` does both again for every erasure on record, and `verifyLive`
    checks that nothing is left.
-/
import Yaam.Core.Fanout

namespace Yaam.Core

open Text Contract Crypto Md Eff

/-! ## The log -/

section
variable (P : Pipeline) (env : Env)

/-- Appends one line to the erasure log. -/
def appendTombstone (e : Tombstone) : StoreM Unit :=
  change fun s => { s with tombstoneLog := LineLog.append P.tombstoneLine s.tombstoneLog e }

/-- The erasure log, in order; a line that will not parse is skipped. -/
def readLog : StoreM (List Tombstone) := do
  match LineLog.entries P.tombstoneLine (← state).tombstoneLog with
  | .ok es => return es
  | .error e => fail (.io e)

/-! ## What an erasure reaches -/

/-- The roles a subject holds on a record, in the order it names them. -/
def rolesOf (d : Document) (s : SubjectHash) : List Role :=
  (d.record.subjects.filter fun n => n.hash = s).map (·.role)

/-- Roles, each once, in the order they first come. -/
def addRoles (old new : List Role) : List Role :=
  new.foldl (fun rs r => if r ∈ rs then rs else rs ++ [r]) old

/-- Adds the roles on one record to what is found. -/
def addErased (e : ErasedRecord) (found : List ErasedRecord) : List ErasedRecord :=
  upsert (·.recordId) (fun old new => { old with roles := addRoles old.roles new.roles }) e found

/-- Adds what one file says of a subject to what is found. -/
def affectedFile (s : SubjectHash) (dir : Store → Tree) (found : List ErasedRecord) (p : Path) :
    StoreM (List ErasedRecord) := do
  let text ← readFile dir p
  match Document.parse P.yaml text with
  | .error _ => return found
  | .ok d =>
    let roles := rolesOf d s
    if roles = [] then return found
    else return addErased ⟨d.record.recordId.text, addRoles [] roles⟩ found

/-- Every record an erasure of a subject reaches, with the roles it holds on each,
    by identifier. -/
def affected (s : SubjectHash) : StoreM (List ErasedRecord) := do
  let tree := (← state).records.walkFiles recordExt
  let found ← tree.foldlM (affectedFile P s Store.records) []
  let spool := (← state).quarantine.walkFiles recordExt
  let found ← spool.foldlM (affectedFile P s Store.quarantine) found
  return found.insertionSort fun a b => a.recordId ≤ b.recordId

/-! ## Bodies -/

/-- Whether a document's body is prose. -/
def isPlain (d : Document) : Bool :=
  match d.body with
  | .plain _ => true
  | .sealed _ => false

/-- A document without its body. -/
def structureOf (d : Document) : Document := ⟨d.record, .plain []⟩

/-- Rewrites one record file to carry no body, when it names the subject. -/
def dropBody (s : SubjectHash) (dropped : ℕ) (p : Path) : StoreM ℕ := do
  let text ← readFile Store.records p
  match Document.parse P.yaml text with
  | .error _ => return dropped
  | .ok d =>
    if ¬ d.record.names s ∨ isPlain d then return dropped
    else do
      let bytes := fileBytes P (structureOf d)
      change fun st => { st with records := st.records.replaceAtomically p bytes env.now }
      return dropped + 1

/-- Rewrites every record naming a subject to carry no body; answers how many did. -/
def dropBodies (s : SubjectHash) : StoreM ℕ := do
  let files := (← state).records.walkFiles recordExt
  files.foldlM (dropBody P env s) 0

/-- Publishes a held record with its body dropped, unless it is published. -/
def publishStructureOnly (held : Document) : StoreM Unit := do
  let d := structureOf held
  let st ← ofExcept (stampOf d.record)
  let dest ← ofExcept (publishedPath d.record st)
  if dest ∈ (← state).records then return ()
  else do
    let staged ← stage P env d
    let _ ← place d staged st

/-- Settles one record held back, when it names the subject. -/
def settleHeld (s : SubjectHash) (settled : ℕ) (p : Path) : StoreM ℕ := do
  let text ← readFile Store.quarantine p
  match Document.parse P.yaml text with
  | .error _ => return settled
  | .ok d =>
    if ¬ d.record.names s then return settled
    else do
      publishStructureOnly P env d
      change fun st => { st with quarantine := st.quarantine.erase p }
      return settled + 1

/-- Settles the records held back for an erased subject; answers how many. -/
def sweepQuarantine (s : SubjectHash) : StoreM ℕ := do
  let files := (← state).quarantine.walkFiles recordExt
  files.foldlM (settleHeld P env s) 0

/-! ## Replay -/

/-- The lines that carry an identifier no earlier line does. -/
def firstLines : List Text → List Tombstone → List Tombstone
  | _, [] => []
  | seen, e :: es =>
    if e.id ∈ seen then firstLines seen es else e :: firstLines (e.id :: seen) es

/-- Applies one erasure on record again. -/
def replayTombstone (e : Tombstone) : StoreM Unit := do
  let s ← ofExcept (liftContract (SubjectHash.parse e.subject))
  keyed ((P.keys env).tombstone s)
  keyed (destroySubject s)
  let _ ← dropBodies P env s
  let _ ← sweepQuarantine P env s

/-- Applies every erasure on record again; answers how many there are. -/
def replayTombstones : StoreM ℕ := do
  let log ← readLog P
  let firsts := firstLines [] log
  forM firsts (replayTombstone P env)
  return firsts.length

/-! ## Verification -/

/-- Verification found something the erasure should have removed. -/
def unverified (s : SubjectHash) (detail : String) : Error :=
  .io (.other s!"erasure of `{String.ofList s.text}` is unverified: {detail}")

/-- Checks that one record file carries no sealed body of a subject. -/
def verifyFile (s : SubjectHash) (p : Path) : StoreM Unit := do
  let text ← readFile Store.records p
  match Document.parse P.yaml text with
  | .error _ => return ()
  | .ok d =>
    if d.record.names s ∧ isPlain d = false then
      let path := String.ofList (joinWith '/' (dirPath P "records" p))
      fail (unverified s s!"`{path}` still carries a sealed body")
    else return ()

/-- The live half of verification. -/
def verifyLive (s : SubjectHash) : StoreM Unit := do
  let marked ← keyed (isTombstoned s)
  if marked = false then fail (unverified s "the subject is not tombstoned")
  else do
    let remaining := keyFilesFor (← state).keys s
    if 0 < remaining then
      fail (unverified s s!"{remaining} key file(s) remain under the key root")
    else forM ((← state).records.walkFiles recordExt) (verifyFile P s)

end

end Yaam.Core
