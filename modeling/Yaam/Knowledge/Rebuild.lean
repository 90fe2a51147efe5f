/-
  Rebuilding the knowledge tree from the record tree (`yaam-knowledge`, `build.rs`,
  `note.rs`).

  * `readStructures` reads every record structure the tree still holds, `publish` writes
    the notes into a fresh tree and swaps it in, `rebuild` is the whole of it;
  * a rebuild is the list of its file operations: `knowledgeDir` says what each does, to
    the end and when it is cut off;
  * `Site` is a knowledge tree with what the rebuild that wrote its state file assembled,
    `Run` everything that rebuilds, each cut off anywhere, can leave.
-/
import Yaam.Core.Store
import Yaam.Knowledge.Note
import Yaam.Lib.Cut

namespace Yaam.Knowledge

open Text Contract Eff

/-! ## What a rebuild reports -/

/-- What a rebuild produced. -/
structure BuildReport where
  recordsRead : ℕ
  recordsUsed : ℕ
  skippedErasable : ℕ
  skippedScoped : ℕ
  skippedUntimed : ℕ
  skippedUnreadable : ℕ
  entities : ℕ
  facts : ℕ
deriving DecidableEq

/-- What the last rebuild read, and when. -/
structure SyncState where
  rebuiltMs : ℤ
  recordsRead : ℕ
  recordsUsed : ℕ
  entities : ℕ
  facts : ℕ
deriving DecidableEq

/-- The state file's text. -/
def SyncState.pretty (s : SyncState) : Text :=
  (s!"\x7b\n  \"rebuilt_ms\": {s.rebuiltMs},\n  \"records_read\": {s.recordsRead},\n" ++
    s!"  \"records_used\": {s.recordsUsed},\n  \"entities\": {s.entities},\n" ++
    s!"  \"facts\": {s.facts}\n\x7d").toList

/-- What a rebuild takes from its surroundings: the readers of frontmatter, of manifest
    lines and of the state file, and the paths that the file system takes. -/
structure Host where
  yaml : Md.Yaml
  manifestJson : Text → Except String ActionRecord
  stateJson : Text → Except String SyncState
  takes : Path → Bool

/-! ## Layout -/

def notesDir : Text := "entities".toList
def rebuildDir : Path := [".rebuild".toList]
def liveDir : Path := [notesDir]
def stateFile : Path := [".index".toList, "sync-state.json".toList]
def manifestExt : Text := "jsonl".toList

/-- One filename-safe path segment, or a refusal. -/
def segment (part : Text) : Except Error Text :=
  let encoded := toPathSegment part
  if encoded = [] ∨ encoded = ".".toList ∨ encoded = "..".toList ∨ '\\' ∈ encoded ∨
      Char.ofNat 0 ∈ encoded ∨ '/' ∈ encoded then .error (.unrenderable part)
  else .ok encoded

/-- Where an entity's note belongs inside a knowledge tree. -/
def noteWithin (e : EntityKey) : Except Error Path := do
  let kind ← segment e.kind
  let id ← segment e.id
  .ok [notesDir, kind, id ++ ".md".toList]

/-! ## Reading -/

section
variable (h : Host)

/-- The structure a record file holds. -/
def recordSource (text : Text) : Option ActionRecord :=
  match Md.Document.parse h.yaml text with
  | .ok d => some d.record.bare
  | .error _ => none

/-- The structures a manifest holds, one a line. -/
def manifestSources (text : Text) : List (Option ActionRecord) :=
  ((lines text).filter (trim · ≠ [])).map fun l => match h.manifestJson l with
    | .ok r => some r
    | .error _ => none

/-- Every record structure the tree still holds, and how many sources would not parse. -/
def readStructures (σ : Core.Store) : Except Error (List ActionRecord × ℕ) := do
  let records ← (σ.records.walkFiles Core.recordExt).mapM fun p => do
    let text ← (σ.records.readToString p).mapError .io
    .ok (recordSource h text)
  let manifests ← (σ.cold.walkFiles manifestExt).mapM fun p => do
    let text ← (σ.cold.readToString p).mapError .io
    .ok (manifestSources h text)
  let sources := records ++ manifests.flatten
  .ok (sources.filterMap id, sources.count none)

/-- How many structures are left out for one reason. -/
def skipped (rs : List ActionRecord) (why : Ineligible) : ℕ :=
  rs.countP fun r => match derivable r with
    | .ok _ => false
    | .error w => w = why

/-- The counts of a rebuild that read these structures and left this many sources out. -/
def report (rs : List ActionRecord) (unreadable : ℕ) : BuildReport :=
  let notes := collate (observe rs)
  { recordsRead := rs.length
    recordsUsed := rs.countP fun r => (derivable r).isOk
    skippedErasable := skipped rs .erasable
    skippedScoped := skipped rs .scoped
    skippedUntimed := skipped rs .untimed
    skippedUnreadable := unreadable
    entities := notes.length
    facts := (notes.map (·.facts.length)).sum }

/-! ## Writing -/

/-- One operation on the knowledge tree. -/
inductive Op where
  | removeDir (dir : Path)
  | removeFile (p : Path)
  | write (p : Path) (bytes : Bytes) (now : ℤ)
  | renameDir (src dst : Path)

/-- What an operation does. -/
def Op.run : Op → Tree → Tree
  | .removeDir dir, t => t.removeDirAll dir
  | .removeFile p, t => t.unlink p
  | .write p bytes now, t => t.write p bytes now
  | .renameDir src dst, t => t.renameDir src dst

/-- What an operation that is cut off leaves: some files of a directory removed, some bytes
    of a file written. -/
def Op.Partly : Op → Tree → Tree → Prop
  | .removeDir dir, t, u =>
    ∀ p, u.lookup p = t.lookup p ∨ Tree.Under dir p ∧ u.lookup p = none
  | .removeFile _, t, u => u = t
  | .write p bytes now, t, u => ∃ n, u = t.write p (bytes.take n) now
  | .renameDir _ _, t, u => u = t

/-- A rebuild, as the operations it does. -/
abbrev Script := Eff (List Op) Error

def perform (op : Op) : Script Unit := change fun ops => ops ++ [op]

/-- The file system takes a path, or refuses it. -/
def taken (p : Path) : Except Error Unit :=
  if h.takes p then .ok () else .error (.io (.other "File name too long (os error 36)"))

/-- Writes the notes into the staging tree. -/
def stage (now : ℤ) : List Note → Script Unit
  | [] => return ()
  | n :: ns => do
    let within ← ofExcept (noteWithin n.entity)
    let path := rebuildDir ++ within
    ofExcept (taken h path.dropLast)
    let text ← ofExcept n.render
    ofExcept (taken h path)
    perform (.write path (Utf8.encode text) now)
    stage now ns

/-- Writes the notes into a fresh tree and swaps it into place. -/
def publish (now : ℤ) (notes : List Note) : Script Unit := do
  perform (.removeDir rebuildDir)
  stage h now notes
  -- the state file goes before the swap: what is cut off between the two has none
  perform (.removeFile stateFile)
  perform (.removeDir liveDir)
  perform (.renameDir (rebuildDir ++ [notesDir]) liveDir)
  perform (.removeDir rebuildDir)

/-- What a state file says of a rebuild. -/
def BuildReport.syncState (r : BuildReport) (now : ℤ) : SyncState :=
  ⟨max now 0, r.recordsRead, r.recordsUsed, r.entities, r.facts⟩

/-- Records what this rebuild read. -/
def writeState (now : ℤ) (r : BuildReport) : Script Unit :=
  perform (.write stateFile (Utf8.encode (r.syncState now).pretty) now)

/-- Rebuilds the knowledge tree in place. -/
def rebuild (now : ℤ) (σ : Core.Store) : Script BuildReport := do
  let (rs, unreadable) ← ofExcept (readStructures h σ)
  publish h now (collate (observe rs))
  writeState now (report rs unreadable)
  return report rs unreadable

/-- What a rebuild answers, and the knowledge tree it leaves when nothing cuts it off. -/
def rebuilt (now : ℤ) (σ : Core.Store) (t : Tree) : Except Error BuildReport × Tree :=
  let (result, ops) := rebuild h now σ []
  (result, ops.foldl (fun t op => op.run t) t)

/-- What the last rebuild recorded, if one has completed. -/
def state (t : Tree) : Except Error (Option SyncState) :=
  match t.readToString stateFile with
  | .ok text => match h.stateJson text with
    | .ok s => .ok (some s)
    | .error detail => .error (.unreadable s!"sync-state.json: {detail}")
  | .error (.notFound _) => .ok none
  | .error e => .error (.io e)

end

/-! ## Rebuilds that are cut off -/

/-- A knowledge tree, and the notes that the rebuild which wrote its state file assembled. -/
structure Site where
  tree : Tree
  assembled : Option (List Note)

/-- An operation that writes the state file. -/
def Op.WritesState : Op → Prop
  | .write p _ _ => p = stateFile
  | _ => False

instance (op : Op) : Decidable op.WritesState := by
  cases op <;> unfold Op.WritesState <;> infer_instance

/-- What is known of the state file's writer after an operation of a rebuild of these
    notes. -/
def Site.writer (notes : List Note) (op : Op) (s : Site) : Option (List Note) :=
  if op.WritesState then some notes else s.assembled

/-- The knowledge directory under a rebuild of these notes. -/
def knowledgeDir (notes : List Note) : Device Op Site where
  whole op s := ⟨op.run s.tree, s.writer notes op⟩
  partly op s s' := op.Partly s.tree s'.tree ∧ s'.assembled = s.writer notes op

section
variable (h : Host)

/-- The notes that a rebuild of this store is about, sources it cannot read left out. -/
def sources (σ : Core.Store) : List (Option ActionRecord) :=
  ((σ.records.walkFiles Core.recordExt).map fun p => match σ.records.readToString p with
    | .ok text => recordSource h text
    | .error _ => none) ++
  (σ.cold.walkFiles manifestExt).flatMap fun p => match σ.cold.readToString p with
    | .ok text => manifestSources h text
    | .error _ => [none]

/-- The notes of the sources that can be read. -/
def notesOf (σ : Core.Store) : List Note := collate (observe ((sources h σ).filterMap id))

/-- What rebuilds leave, each of any store and cut off anywhere, from a knowledge tree that
    no rebuild has completed. -/
inductive Run : Site → Prop
  | fresh (t : Tree) (hno : t.lookup stateFile = none) : Run ⟨t, none⟩
  | attempt {s s' : Site} (σ : Core.Store) (now : ℤ) (hs : Run s)
      (hcut : Cut (knowledgeDir (notesOf h σ)) (rebuild h now σ []).2 s s') : Run s'

end

end Yaam.Knowledge
