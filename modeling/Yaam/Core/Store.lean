/-
  The memory store: its configuration, its state, and where a record's file goes
  (`yaam-core`: `error.rs`, `layout.rs`, `paths.rs`, `fsutil.rs`).

  * `Pipeline` is what a deployment configures, with the libraries the code calls;
  * `Store` is what stands on disk: the directories under the memory root, the two
    logs, the key store and the index;
  * `Env` is what one operation takes from its surroundings;
  * `publishedPath` is where a record is filed, `stampOf` the server time it is
    filed under.
-/
import Yaam.Lib.LineLog
import Yaam.Crypto.Seal
import Yaam.Index.Tables
import Yaam.Md.Document

namespace Yaam.Core

open Text Contract Crypto Eff

/-! ## Log lines -/

/-- One record an erasure reached, with the roles the subject held on it. -/
structure ErasedRecord where
  recordId : Text
  roles : List Role
deriving DecidableEq

/-- One line of the erasure log. -/
structure Tombstone where
  id : Text
  subject : Text
  atMs : ℤ
  complete : Bool
  records : List ErasedRecord
deriving DecidableEq

/-- What one line of the hold log records. -/
inductive HoldEvent where
  | placed
  | released
deriving DecidableEq

/-- One line of the hold log. -/
structure HoldLine where
  id : Text
  event : HoldEvent
  subject : Text
  atMs : ℤ
  reason : Text
  operator : Text
  records : List Text
deriving DecidableEq

/-- A hold standing over one subject. -/
structure Hold where
  id : Text
  subject : SubjectHash
  atMs : ℤ
  reason : Text
  operator : Text
  records : List Text
deriving DecidableEq

/-! ## Errors -/

/-- Core failures. -/
inductive Error where
  | invalid (e : Contract.Error)
  | subjectUnresolved
  | crypto (e : Crypto.Error)
  | store (e : Index.Error)
  | markdown (e : Md.Error)
  /-- A destruction refused because of the holds that stand. -/
  | held (subject : SubjectHash) (holds : List Hold)
  | io (e : IoError)

/-- One standing hold, as a refusal names it. -/
def Hold.display (h : Hold) : String :=
  let at_ := String.ofList (formatMs h.atMs)
  let placed := s!"\n  {String.ofList h.id} placed {at_} by `{String.ofList h.operator}`: "
  let records := String.intercalate ", " (h.records.map String.ofList)
  placed ++ String.ofList h.reason ++ if h.records = [] then "" else s!" (over {records})"

/-- Why a destruction was refused, and which holds to release. -/
def heldMessage (s : SubjectHash) (holds : List Hold) : String :=
  s!"held: {holds.length} hold(s) stand over subject {String.ofList s.text}, and destroying its " ++
    "keys would make bodies unreadable that this store has been ordered to preserve. Nothing " ++
    "was destroyed." ++ String.join (holds.map Hold.display) ++
    "\nRelease it first if the obligation has ended: `yaam hold release --hold <id> --reason … " ++
    "--operator …`. Two obligations point in opposite directions here, and only a person can " ++
    "say which one now applies."

def Error.display : Error → String
  | .invalid e => e.display
  | .subjectUnresolved => "subject resolution unavailable"
  | .crypto e => e.display
  | .store e => e.display
  | .markdown e => e.display
  | .held s holds => heldMessage s holds
  | .io e => s!"io: {e.display}"

/-- A record the caller must fix. -/
def invalid (detail : String) : Error := .invalid (.invalid detail)

/-! ## Configuration -/

/-- The outcome of resolving a record's subjects. -/
inductive Resolution where
  | resolved (subjects : List SubjectRef)
  | unavailable (reason : String)
  | refused (reason : String)

/-- The redaction policy: its name, and the first pattern a text still matches. -/
structure Redaction where
  name : Text
  firstMatch : Text → Option Text

/-- Whether a store accepts subject-derived records. -/
inductive SubjectWrites where
  | refused
  | enabled
deriving DecidableEq

/-- The write pipeline: what its deployment configures, and the libraries it calls. -/
structure Pipeline where
  /-- The memory root. -/
  root : Path
  registry : Registry
  attrs : Schema
  redaction : Redaction
  subjectWrites : SubjectWrites
  resolver : ActionRecord → Resolution
  keyWrapper : KeyWrapper
  ciphers : Ciphers
  yaml : Md.Yaml
  tombstoneLine : LineCodec Tombstone
  holdLine : LineCodec HoldLine
  /-- A manifest line as the record whose frontmatter it is. -/
  manifestJson : Text → Except String ActionRecord

/-- What one operation takes from its surroundings: the clock, the file operations
    on keys that fail, and what the random generator gives. -/
structure Env where
  now : ℤ
  fault : KeyIo → SubjectHash → Option String
  body : Draws
  spool : Draws
  /-- The ULID a log entry of this operation is named by. -/
  ulid : RecordId

def Pipeline.keys (P : Pipeline) (env : Env) : FsKeyStore := ⟨P.keyWrapper, env.now, env.fault⟩

/-! ## State -/

/-- What stands on disk.  Each directory's paths are relative to it. -/
structure Store where
  records : Tree
  staging : Tree
  quarantine : Tree
  deadLetter : Tree
  entities : Tree
  audit : Tree
  cold : Tree
  tombstoneLog : Option Bytes
  holdLog : Option Bytes
  keys : Tree
  index : Index.Tables

/-- An operation of the store. -/
abbrev StoreM := Eff Store Error

/-- An operation on the key store. -/
def keyed {α : Type} (x : Eff Tree Crypto.Error α) : StoreM α :=
  zoom Store.keys (fun s t => { s with keys := t }) (mapError .crypto x)

/-- A transaction on the index. -/
def indexed {α : Type} (x : Eff Index.Tables Index.Error α) : StoreM α :=
  zoom Store.index (fun s i => { s with index := i }) (mapError .store (atomically x))

/-- A write inside an open transaction on the index. -/
def inBatch {α : Type} (x : Eff Index.Tables Index.Error α) : StoreM α :=
  zoom Store.index (fun s i => { s with index := i }) (mapError .store x)

/-- A transaction on the index that other work runs inside of: a failure takes back
    what was written to the index, and nothing else. -/
def transaction {α : Type} (x : StoreM α) : StoreM α := fun s =>
  match x s with
  | (.ok a, s') => (.ok a, s')
  | (.error e, s') => (.error e, { s' with index := s.index })

/-- Reads a file of a directory. -/
def readFile (dir : Store → Tree) (p : Path) : StoreM Text := do
  match (dir (← state)).readToString p with
  | .ok t => return t
  | .error e => fail (.io e)

def liftMd {α : Type} (x : Except Md.Error α) : StoreM α :=
  ofExcept (x.mapError .markdown)

def liftContract {α : Type} (x : Except Contract.Error α) : Except Error α := x.mapError .invalid

/-! ## Layout -/

/-- A parsed server timestamp: the instant and its UTC date. -/
structure Stamp where
  ms : ℤ
  year : ℤ
  month : ℤ
  day : ℤ
deriving DecidableEq

/-- The date as `YYYY-MM-DD`. -/
def Stamp.date (s : Stamp) : Text :=
  padInt 4 s.year ++ '-' :: padInt 2 s.month ++ '-' :: padInt 2 s.day

def stamp (t : Text) : Option Stamp :=
  (parseMs t).map fun ms =>
    let (year, month, day) := civilFromMs ms
    { ms, year, month, day }

/-- The server stamp of a record. -/
def stampOf (r : ActionRecord) : Except Error Stamp :=
  match stamp r.receivedAt with
  | some s => .ok s
  | none => .error (invalid (s!"record `{String.ofList r.recordId.text}` has an unreadable " ++
      s!"received_at `{String.ofList r.receivedAt}`"))

def recordExt : Text := "md".toList

/-- The name of a record's file. -/
def recordFile (id : RecordId) : Text := id.text ++ '.' :: recordExt

/-- The directory of one owner's records: one segment that cannot climb. -/
def ownerSegment (agent : Text) : Except Error Text :=
  let segment := toPathSegment agent
  if segment = [] ∨ segment = ".".toList ∨ segment = "..".toList ∨ '\\' ∈ segment ∨
      Char.ofNat 0 ∈ segment then
    .error (invalid s!"agent `{String.ofList agent}` cannot name an owner directory")
  else .ok segment

/-- The dated directory and file name of a record. -/
def datedPath (id : RecordId) (s : Stamp) : Path :=
  [padInt 4 s.year, padInt 2 s.month, padInt 2 s.day, recordFile id]

/-- A record's path in the record tree: an owner-visible record is filed under its
    owner first. -/
def publishedPath (r : ActionRecord) (s : Stamp) : Except Error Path :=
  if r.visibility = .owner then do
    let segment ← ownerSegment r.agent
    .ok ("owner".toList :: segment :: datedPath r.recordId s)
  else .ok (datedPath r.recordId s)

/-- Where a record is filed, when its stamp and its owner say. -/
def destination (r : ActionRecord) : Except Error Path := do
  let s ← stampOf r
  publishedPath r s

theorem extension_recordFile (dir : Path) (id : RecordId) :
    extension (dir ++ [recordFile id]) = some recordExt :=
  extension_concat dir id.text_ne_nil (by decide)

theorem fileStem_recordFile (dir : Path) (id : RecordId) :
    fileStem (dir ++ [recordFile id]) = some id.text :=
  fileStem_concat dir id.text_ne_nil (by decide)

/-- A record's path ends with its file's name. -/
theorem publishedPath_ok {r : ActionRecord} {s : Stamp} {p : Path} (h : publishedPath r s = .ok p) :
    ∃ dir, p = dir ++ [recordFile r.recordId] := by
  unfold publishedPath at h
  split_ifs at h
  · obtain ⟨seg, -, h⟩ := Contract.bind_ok.1 h
    cases h
    exact ⟨["owner".toList, seg, padInt 4 s.year, padInt 2 s.month, padInt 2 s.day], rfl⟩
  · cases h
    exact ⟨[padInt 4 s.year, padInt 2 s.month, padInt 2 s.day], rfl⟩

theorem destination_ok {r : ActionRecord} {p : Path} (h : destination r = .ok p) :
    ∃ dir, p = dir ++ [recordFile r.recordId] := by
  obtain ⟨s, -, h⟩ := Contract.bind_ok.1 h
  exact publishedPath_ok h

/-- What a record's place depends on. -/
structure SamePlace (r r' : ActionRecord) : Prop where
  recordId : r'.recordId = r.recordId
  receivedAt : r'.receivedAt = r.receivedAt
  visibility : r'.visibility = r.visibility
  agent : r'.agent = r.agent

theorem SamePlace.destination {r r' : ActionRecord} (h : SamePlace r r') :
    destination r' = destination r := by
  simp only [Core.destination, stampOf, publishedPath, h.recordId, h.receivedAt, h.visibility,
    h.agent]

end Yaam.Core
