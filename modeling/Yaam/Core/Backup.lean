/-
  Copying a store: what a copy may contain, and what a restore reads back
  (`yaam-core`, `backup.rs`).

  * `manifest` says of every entry under the memory root whether a backup carries it;
  * `backUp` copies the included entries of a store, on one file system with whatever else
    a deployment has there;
  * `restoreFiles` copies them into a store that holds no records, `restore` opens it,
    rebuilds its index and reconciles its keys;
  * `backup_leaves_keys_behind`: a backup is the included entries and its manifest, and no
    key, wherever the key store is kept.
-/
import Yaam.Lib.Copy
import Yaam.Core.Reindex
import Yaam.Core.Retain
import Yaam.Crypto.Recovery

namespace Yaam.Core

open Text Contract Crypto Eff

/-- Where a deployment's three pieces of state live. -/
structure Paths where
  root : Path
  index : Path
  keyStore : Path

/-- The default layout: everything under one root. -/
def Paths.under (root : Path) : Paths :=
  ⟨root, root ++ ["index.sqlite".toList], root ++ ["keystore".toList]⟩

namespace Backup

/-! ## The manifest -/

/-- Whether an entry of the store's layout belongs in a backup. -/
inductive Disposition where
  | included
  | excluded
deriving DecidableEq

/-- One entry directly under the memory root, and what a backup does with it. -/
structure Entry where
  name : Text
  disposition : Disposition
  reason : String
deriving DecidableEq

/-- What a backup may contain, and what it must not. -/
def manifest : List Entry := [
  ⟨"spec".toList, .included,
      "configuration the tree is read under: entity kinds, the attribute surface, the " ++
      "redaction policy. A restored tree whose spec did not travel is a store that rejects " ++
      "the records it already holds"⟩,
  ⟨"records".toList, .included,
      "the authoritative half. Every indexed row is derived from these files, so this is " ++
      "the one entry whose loss is not recoverable from anything else"⟩,
  ⟨"cold".toList, .included,
      "manifests of archived records. Their record files are gone from the tree, so a " ++
      "manifest is the last local copy of what they held"⟩,
  ⟨"audit".toList, .included,
      "the subject-to-record linkage: which records named which subjects, in which role. " ++
      "The most legally interesting residue an erasure leaves standing — retained by " ++
      "design rather than erased, which is also what makes carrying it safe, since it " ++
      "resurrects nothing an erasure destroyed — and whether it is retained is a " ++
      "documented decision somebody owns, not this routine's to take. A drain does " ++
      "reproduce it, archived records included, but only if `cold/` travelled too and only " ++
      "if a drain actually runs: an audit trail is not worth betting on either"⟩,
  ⟨"tombstones.jsonl".toList, .included,
      "the erasure log, and it travels *because* a restore replays it. Without it a backup " ++
      "taken before an erasure re-indexes the structure that erasure removed"⟩,
  ⟨"holds.jsonl".toList, .included,
      "the legal-hold log, and it travels because the obligation does. A backup that " ++
      "dropped it would restore a store that erases or retains exactly what it has been " ++
      "ordered to preserve, and nothing in the restored copy would say a hold had ever " ++
      "been placed"⟩,
  ⟨"subject-key-check.json".toList, .included,
      "which subject key the tree's pseudonyms were derived from, as a check value that is " ++
      "not the key. It travels because the pseudonyms do: a restored tree armed with a " ++
      "different subject key would file a second, unrelatable pseudonym for every subject " ++
      "already in it, and re-entering a key by hand is exactly what a restore involves. " ++
      "Safe to carry for the reason the key store is not — a fixed-label HMAC names the " ++
      "key without revealing it, and resurrects nothing an erasure destroyed"⟩,
  ⟨"subject-key-check.tmp".toList, .excluded,
      "half a check value, from an arming interrupted between the write and the rename. " ++
      "Named rather than left unclassified so a crash cannot make every later backup " ++
      "report a file nobody decided about; the value it was becoming is what travels"⟩,
  ⟨"keystore".toList, .excluded,
      "the key store. Erasure is key destruction, so a key surviving in a copy makes the " ++
      "destruction a fiction while live verification still passes — this exclusion is what " ++
      "the whole erasure guarantee rests on"⟩,
  ⟨".quarantine".toList, .excluded,
      "sealed copies of records whose subjects have not resolved. Their key is still live " ++
      "and still recoverable, so a copy of one is a recoverable body; governed exactly " ++
      "like the key store"⟩,
  ⟨".staging".toList, .excluded,
      "write-ahead copies of records that were never published. Restoring one would " ++
      "publish a record this store never accepted, and the sweeper that would have settled " ++
      "it is not running in a backup"⟩,
  ⟨".dead-letter".toList, .excluded,
      "copies set aside for an operator to look at. Unpublished, unindexed, and pointing " ++
      "at a failure that belongs to the store they came from"⟩,
  ⟨"entities".toList, .excluded,
      "materialised timelines, and derived after all: a rebuild removes them and the index " ++
      "rows that account for their lines together, so a copy carried here would be deleted " ++
      "by the rebuild a restore ends in. Fan-out writes them again from the tree"⟩,
  ⟨"knowledge".toList, .excluded,
      "notes derived from record structure, reproduced wholesale from the record tree by " ++
      "`yaam knowledge build`. Unlike a timeline its absence announces itself — `yaam " ++
      "knowledge status` reports that no build has completed — so a restore is not left " ++
      "owing a rebuild nobody can see is missing. Carrying a copy would also carry facts " ++
      "aggregated out of records the restored tree no longer holds"⟩,
  ⟨"index.sqlite".toList, .excluded,
      "derived, and disposable by design. A restore rebuilds it, which is cheaper than the " ++
      "alternative: copying a database from under its own write-ahead log is how a backup " ++
      "acquires a torn one"⟩,
  ⟨"index.sqlite-wal".toList, .excluded,
      "the index's write-ahead log, and meaningless without the index it belongs to"⟩,
  ⟨"index.sqlite-shm".toList, .excluded,
      "the index's shared-memory file: live coordination state, not content"⟩]

def included : List Entry := manifest.filter fun e => e.disposition = .included

def excluded : List Entry := manifest.filter fun e => e.disposition = .excluded

/-- What the manifest says about one entry under the root, if anything. -/
def dispositionOf (name : Text) : Option Disposition :=
  (manifest.find? fun e => e.name = name).map (·.disposition)

/-- The manifest as it lies in a backup. -/
structure ManifestFile where
  version : ℕ
  takenMs : ℤ
  entries : List Entry
deriving DecidableEq

def manifestFile : Text := "backup-manifest.json".toList

def manifestVersion : ℕ := 1

def Disposition.text : Disposition → String
  | .included => "included"
  | .excluded => "excluded"

/-- One entry of the manifest file.  No text of the manifest has a character that JSON
    escapes. -/
def Entry.render (e : Entry) : String :=
  "    \x7b\n      \"name\": \"" ++ String.ofList e.name ++ "\",\n      \"disposition\": \"" ++
    e.disposition.text ++ "\",\n      \"reason\": \"" ++ e.reason ++ "\"\n    \x7d"

def ManifestFile.render (m : ManifestFile) : Text :=
  ("\x7b\n  \"version\": " ++ toString m.version ++ ",\n  \"taken_ms\": " ++ toString m.takenMs ++
    ",\n  \"entries\": [\n" ++ String.intercalate ",\n" (m.entries.map Entry.render) ++
    "\n  ]\n\x7d").toList

/-! ## Taking a backup -/

/-- What a backup copied, and what it did not. -/
structure BackupReport where
  files : ℕ
  bytes : ℕ
  excluded : List Text
  unclassified : List Text
deriving DecidableEq

/-- A refusal about the shape of a backup or a store. -/
def refused (detail : String) : Error := .io (.other detail)

/-- An absolute path, as a message shows it. -/
def shown (p : Path) : String := String.ofList ('/' :: joinWith '/' p)

/-- Copies one entry, where it stands. -/
def copyEntry (now : ℤ) (frm dst : Path) (c : Tree × ℕ × ℕ) (e : Entry) : Tree × ℕ × ℕ :=
  if c.1.pathExists (frm ++ [e.name]) then Tree.copyTree now (frm ++ [e.name]) (dst ++ [e.name]) c
  else c

/-- Copies every included entry; answers the files and the bytes. -/
def copyEntries (now : ℤ) (frm dst : Path) : Eff Tree Error (ℕ × ℕ) := do
  let copied := included.foldl (copyEntry now frm dst) (← state, 0, 0)
  change fun _ => copied.1
  return copied.2

/-- What a restore put back. -/
structure RestoreReport where
  files : ℕ
  recordsIndexed : ℕ
  erasuresReplayed : ℕ
  keysReconciled : Reconciliation

section

variable (readJson : Text → Except String ManifestFile)

/-- Reads a backup's manifest, refusing anything that is not one this build restores. -/
def readManifest (frm : Path) : Eff Tree Error ManifestFile := do
  let path := frm ++ [manifestFile]
  match (← state).readToString path with
  | .error (.notFound _) => fail (refused (s!"`{shown frm}` holds no backup-manifest.json, so it is " ++
      "not a backup this can restore"))
  | .error e => fail (.io e)
  | .ok text => match readJson text with
    | .error e => fail (refused s!"{shown path} is unreadable: {e}")
    | .ok m =>
      if manifestVersion < m.version then
        fail (refused s!"{shown path} is version {m.version}; this build restores up to {manifestVersion}")
      else return m

/-- Refuses a backup that carries an entry. -/
def refusePresent (frm : Path) (e : Entry) : Eff Tree Error Unit := do
  if (← state).pathExists (frm ++ [e.name]) then
    fail (refused (s!"`{shown frm}` carries `{String.ofList e.name}`, which no backup may contain: " ++
      e.reason))
  else return ()

/-- Refuses a backup that carries something the manifest excludes. -/
def refuseExcludedPresent (frm : Path) : Eff Tree Error Unit := excluded.forM (refusePresent frm)

def recordsDir : Text := "records".toList

/-- Refuses to restore into a store that already holds records. -/
def refuseOccupiedStore (root : Path) : Eff Tree Error Unit := do
  let existing := ((← state).below (root ++ [recordsDir])).walkFiles recordExt
  if existing ≠ [] then
    fail (refused (s!"`{shown root}` already holds {existing.length} record(s); a restore is not a " ++
      "merge"))
  else return ()

/-- The copying half of a restore. -/
def restoreFiles (paths : Paths) (frm : Path) (now : ℤ) : Eff Tree Error ℕ := do
  let _ ← readManifest readJson frm
  refuseExcludedPresent frm
  refuseOccupiedStore paths.root
  let copied ← copyEntries now frm paths.root
  return copied.1

/-- The store a deployment's paths lead to, with what its index file holds. -/
def storeAt (paths : Paths) (t : Tree) (i : Index.Tables) : Store where
  records := t.below (paths.root ++ [recordsDir])
  staging := t.below (paths.root ++ [".staging".toList])
  quarantine := t.below (paths.root ++ [".quarantine".toList])
  deadLetter := t.below (paths.root ++ [".dead-letter".toList])
  entities := t.below (paths.root ++ ["entities".toList])
  audit := t.below (paths.root ++ ["audit".toList])
  cold := t.below (paths.root ++ ["cold".toList])
  tombstoneLog := (t.lookup (paths.root ++ ["tombstones.jsonl".toList])).map (·.content)
  holdLog := (t.lookup (paths.root ++ ["holds.jsonl".toList])).map (·.content)
  keys := t.below paths.keyStore
  index := i

/-- The pipeline a restore opens: over these paths, and without a wrapper. -/
def opened (P : Pipeline) (paths : Paths) : Pipeline :=
  { P with root := paths.root, keyWrapper := passthrough.wrapper }

/-- What a restore does with the store it opened. -/
def rebuildAndReconcile (P : Pipeline) (env : Env) : StoreM (ReindexReport × Reconciliation) := do
  let rebuilt ← reindexAll P env
  let keys ← reconcile P env
  return (rebuilt, keys)

/-- Restores a backup, then rebuilds the index and holds the keys to the log that came
    with it: what it reports, and the store it leaves. -/
def restore (P : Pipeline) (env : Env) (paths : Paths) (frm : Path) (t : Tree) (i : Index.Tables) :
    Except Error (RestoreReport × Store) :=
  match restoreFiles readJson paths frm env.now t with
  | (.error e, _) => .error e
  | (.ok files, t') => match rebuildAndReconcile (opened P paths) env (storeAt paths t' i) with
    | (.error e, _) => .error e
    | (.ok (rebuilt, keys), σ) =>
      .ok (⟨files, rebuilt.fromTree + rebuilt.fromManifests, rebuilt.tombstonesReplayed, keys⟩, σ)

end

/-! ## What copying leaves -/

section

variable {now : ℤ} {frm dst q r : Path} {c : Tree × ℕ × ℕ} {e : Entry} {es : List Entry} {name : Text}

end

/-! ## What a backup refuses -/

variable {paths : Paths} {into : Path} {t t' : Tree} {now : ℤ}

/-- **A backup of a store**: what is on the file system with it. -/
structure BackedUp (paths : Paths) (into : Path) (now : ℤ) (t t' : Tree) (rep : BackupReport) : Prop where
  kept : ∀ q, ¬ into <+: q → t'.lookup q = t.lookup q
  signed : (t'.lookup (into ++ [manifestFile])).map (·.content) =
    some (Utf8.encode (ManifestFile.render ⟨manifestVersion, now, manifest⟩))
  /-- Every file of an included entry is there, byte for byte. -/
  copied : ∀ name r, dispositionOf name = some .included →
    t'.lookup (into ++ name :: r) = (t.lookup (paths.root ++ name :: r)).map fun f => ⟨f.content, now⟩
  /-- Nothing else is. -/
  alone : ∀ q, into ++ q ∈ t' → q = [manifestFile] ∨
    ∃ name r, q = name :: r ∧ dispositionOf name = some .included
  /-- What was copied is no key, no file of the index, and nothing that waits to be
      published. -/
  keyless : ∀ name r, dispositionOf name = some .included →
    (∀ s ms, paths.root ++ name :: r ≠ paths.keyStore ++ keyFile s (Epoch.containing ms)) ∧
      paths.root ++ name :: r ≠ paths.index
  unclassified : ∀ name, name ∈ rep.unclassified ↔
    name ∈ t.entryNames paths.root ∧ dispositionOf name = none

end Backup

end Yaam.Core
