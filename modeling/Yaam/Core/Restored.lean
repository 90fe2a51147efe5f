/-
  What a restored store answers from.

  * `Alike` relates two stores that hold the same records, manifests and logs, and nothing
    held back; `reindexAll_alike`: a rebuild derives the same index from both;
  * `restore_gives_back`: a backup of a store, restored elsewhere, is that store rebuilt,
    but for what was held back;
  * `restored_like_live`: after a run of writes it has the rows that the live index had.
-/
import Yaam.Lib.Related
import Yaam.Core.Backup
import Yaam.Core.Frames
import Yaam.Core.Rebuilt
import Yaam.Core.Reconcile

namespace Yaam.Core

open Text Contract Crypto Md Eff

namespace Backup

/-- Two stores with the same records, manifests and logs, and nothing held back. -/
structure SameFiles (σ τ : Store) : Prop where
  records : σ.records.SameContent τ.records
  cold : σ.cold.SameContent τ.cold
  tombstoneLog : σ.tombstoneLog = τ.tombstoneLog
  holdLog : σ.holdLog = τ.holdLog
  spool : σ.quarantine = ∅ ∧ τ.quarantine = ∅

/-- Two stores a rebuild cannot tell apart: their files are filed deep enough that the root
    does not show in the order they are read in. -/
structure Alike (σ τ : Store) : Prop extends SameFiles σ τ where
  deep : ∀ p ∈ σ.records, 3 ≤ p.length

/-- Alike, with one index. -/
structure AlikeIndexed (σ τ : Store) : Prop extends Alike σ τ where
  index : σ.index = τ.index

variable {P : Pipeline} {env env' : Env} {paths : Paths} {σ τ : Store}

/-! ## Replay -/

theorem keyed_change (f : Tree → Tree) :
    (keyed (change f) : StoreM Unit) = change fun σ => { σ with keys := f σ.keys } := rfl

theorem Alike.keys (h : Alike σ τ) (k k' : Tree) : Alike { σ with keys := k } { τ with keys := k' } :=
  ⟨⟨h.records, h.cold, h.tombstoneLog, h.holdLog, h.spool⟩, h.deep⟩

theorem readFile_related {R : Store → Store → Prop} (dir : Store → Tree) (p : Path)
    (hR : ∀ σ τ, R σ τ → (dir σ).SameContent (dir τ)) : Related R (readFile dir p) (readFile dir p) Eq := by
  refine Related.state_bind fun σ τ h => ?_
  rw [(hR σ τ h).readToString p]
  cases (dir τ).readToString p with
  | ok text => exact Related.pure rfl
  | error e => exact Related.fail _ _

theorem replayTombstones_opened : replayTombstones (opened P paths) env = replayTombstones P env := rfl

theorem indexFile_opened : indexFile (opened P paths) = indexFile P := rfl

theorem indexManifest_opened : indexManifest (opened P paths) = indexManifest P := rfl

theorem readLog_related : Related Alike (readLog P) (readLog P) Eq := by
  refine Related.state_bind fun σ τ h => ?_
  rw [h.tombstoneLog]
  cases LineLog.entries P.tombstoneLine τ.tombstoneLog with
  | ok es => exact Related.pure rfl
  | error e => exact Related.fail _ _

theorem mem_of_replaceAtomically {t : Tree} {p q : Path} {bytes : Bytes} {now : ℤ}
    (h : q ∈ t.replaceAtomically p bytes now) : q = p ∨ q ∈ t := by
  rw [Tree.replaceAtomically, AList.mem_insert, AList.mem_erase, Tree.write, AList.mem_insert] at h
  rcases h with h | ⟨hne, h⟩
  · exact .inl h
  · exact .inr (h.resolve_left hne)

theorem dropBody_related (s : SubjectHash) (n : ℕ) {p : Path} (hp : 3 ≤ p.length) :
    Related Alike (dropBody P env s n p) (dropBody P env' s n p) Eq := by
  refine (readFile_related _ _ fun σ τ h => h.records).bind_eq fun text => ?_
  cases Document.parse P.yaml text with
  | error e => exact Related.pure rfl
  | ok d =>
    dsimp only
    split_ifs
    · exact Related.pure rfl
    · refine (Related.change fun σ τ h => ?_).bind_eq fun _ => Related.pure rfl
      refine ⟨⟨h.records.replaceAtomically _ _ _ _, h.cold, h.tombstoneLog, h.holdLog, h.spool⟩, ?_⟩
      intro q hq
      rcases mem_of_replaceAtomically hq with rfl | hq
      · exact hp
      · exact h.deep q hq

theorem dropBodies_related (s : SubjectHash) :
    Related Alike (dropBodies P env s) (dropBodies P env' s) Eq := by
  refine Related.state_bind fun σ τ h => ?_
  rw [← h.records.walkFiles recordExt]
  refine Related.foldlM (fun n m p hp hnm => ?_) rfl
  subst hnm
  exact dropBody_related s n (h.deep p (Tree.mem_walkFiles.1 hp).1)

theorem sweepQuarantine_related (s : SubjectHash) :
    Related Alike (sweepQuarantine P env s) (sweepQuarantine P env' s) Eq := by
  refine Related.state_bind fun σ τ h => ?_
  rw [h.spool.1, h.spool.2]
  exact Related.pure rfl

theorem replayTombstone_related (e : Tombstone) :
    Related Alike (replayTombstone P env e) (replayTombstone P env' e) Eq := by
  refine (Related.ofExcept _).bind_eq fun s => ?_
  refine (Related.change fun σ τ h => h.keys _ _).bind_eq fun _ => ?_
  refine (Related.change fun σ τ h => h.keys _ _).bind_eq fun _ => ?_
  exact (dropBodies_related s).bind_eq fun _ => (sweepQuarantine_related s).bind_eq fun _ => Related.pure rfl

/-- **Replaying one log does alike in stores that are alike.** -/
theorem replayTombstones_related :
    Related Alike (replayTombstones P env) (replayTombstones P env') Eq :=
  readLog_related.bind_eq fun _ =>
    (Related.forM fun e _ => replayTombstone_related e).bind_eq fun _ => Related.pure rfl

/-! ## Rebuild -/

theorem inBatch_related {α : Type} (x : Eff Index.Tables Index.Error α) :
    Related AlikeIndexed (inBatch x) (inBatch x) Eq := by
  refine Related.zoom (fun _ _ h => h.index) (fun σ τ i h => ?_) _
  exact ⟨⟨⟨h.records, h.cold, h.tombstoneLog, h.holdLog, h.spool⟩, h.deep⟩, rfl⟩

theorem indexFile_related (n : ℕ × ℕ) (p : Path) :
    Related AlikeIndexed (indexFile P n p) (indexFile P n p) Eq := by
  refine (readFile_related _ _ fun σ τ h => h.records).bind_eq fun text => ?_
  cases Document.parse P.yaml text with
  | error e => exact Related.pure rfl
  | ok d => exact (inBatch_related _).bind_eq fun _ => Related.pure rfl

theorem indexLine_related (n : ℕ × ℕ) (l : Text) :
    Related AlikeIndexed (indexLine P n l) (indexLine P n l) Eq := by
  unfold indexLine
  cases manifestRecord P l with
  | error e => exact Related.pure rfl
  | ok r => exact (inBatch_related _).bind_eq fun _ => Related.pure rfl

theorem indexManifest_related (n : ℕ × ℕ) (p : Path) :
    Related AlikeIndexed (indexManifest P n p) (indexManifest P n p) Eq := by
  refine (readFile_related _ _ fun σ τ h => h.cold).bind_eq fun text => ?_
  refine Related.foldlM (fun a b l _ hab => ?_) rfl
  subst hab
  exact indexLine_related a l

theorem dropTimelines_related : Related AlikeIndexed dropTimelines dropTimelines fun _ _ => True := by
  refine Related.state_bind fun σ τ h => ?_
  refine (Related.change fun σ τ h => ?_).bind_eq fun _ => Related.pure trivial
  exact ⟨⟨⟨h.records, h.cold, h.tombstoneLog, h.holdLog, h.spool⟩, h.deep⟩, h.index⟩

/-- Two reports that agree on what was indexed and replayed. -/
structure SameCounts (a b : ReindexReport) : Prop where
  tree : a.fromTree = b.fromTree
  manifests : a.fromManifests = b.fromManifests
  replayed : a.tombstonesReplayed = b.tombstonesReplayed

theorem arrivalKey_of_deep {p : Path} (hp : 3 ≤ p.length) :
    arrivalKey P p = (recordsDir :: p).drop (p.length - 3) := by
  have hlen : (dirPath P "records" p).length - 4 = P.root.length + (p.length - 3) := by
    simp only [dirPath, List.length_append, List.length_cons]
    omega
  rw [arrivalKey, hlen, dirPath, ← List.drop_drop, List.drop_left]
  rfl

/-- Stores that are alike are read in one order. -/
theorem Alike.sources (h : Alike σ τ) :
    Sources.list (opened P paths) τ = Sources.list P σ ∧ (Sources.list P σ).quarantine = [] := by
  have htree : ∀ {ps : List Path}, (∀ p ∈ ps, 3 ≤ p.length) →
      (ps.insertionSort fun p q => arrivalKey (opened P paths) p ≤ arrivalKey (opened P paths) q) =
        ps.insertionSort fun p q => arrivalKey P p ≤ arrivalKey P q := by
    intro ps hps
    have hmap := List.map_insertionSort (f := id) (r := fun p q => arrivalKey (opened P paths) p ≤
      arrivalKey (opened P paths) q) (s := fun p q => arrivalKey P p ≤ arrivalKey P q) ps ?_
    · simpa using hmap
    · intro p hp q hq
      rw [arrivalKey_of_deep (hps p hp), arrivalKey_of_deep (hps q hq), id, id, arrivalKey_of_deep (hps p hp),
        arrivalKey_of_deep (hps q hq)]
  constructor
  · rw [Sources.list, Sources.list, ← h.records.walkFiles, ← h.cold.walkFiles, h.spool.1, h.spool.2,
      htree fun p hp => h.deep p (Tree.mem_walkFiles.1 hp).1]
  · rw [Sources.list, h.spool.1]
    rfl

theorem transaction_eq_ok {α : Type} {x : StoreM α} {σ' : Store} {a : α} :
    transaction x σ = (.ok a, σ') ↔ x σ = (.ok a, σ') := by
  rw [transaction]
  rcases x σ with ⟨_ | b, ρ⟩ <;> simp

/-- **A rebuild derives one index from stores that are alike.** -/
theorem Alike.rebuild (h : Alike σ τ) {sources : Sources} (hq : sources.quarantine = []) {n : ℕ}
    {rep : ReindexReport} {σ' : Store} (hσ : Core.rebuild P env n sources σ = (.ok rep, σ')) :
    ∃ rep' τ', Core.rebuild (opened P paths) env' n sources τ = (.ok rep', τ') ∧ SameCounts rep rep' ∧
      AlikeIndexed σ' τ' := by
  have hfirst : ∀ ρ : Store, (inBatch (change Index.truncateDerived) : StoreM Unit) ρ =
      (.ok (), { ρ with index := .empty }) := fun _ => rfl
  have hempty : AlikeIndexed { σ with index := .empty } { τ with index := .empty } :=
    ⟨⟨⟨h.records, h.cold, h.tombstoneLog, h.holdLog, h.spool⟩, h.deep⟩, rfl⟩
  have hrest : Related AlikeIndexed
      (do let dropped ← dropTimelines
          let tree ← sources.tree.foldlM (indexFile P) (0, 0)
          let manifests ← sources.manifests.foldlM (indexManifest P) (0, 0)
          sources.quarantine.forM (reregisterFile P env)
          return (⟨tree.1, manifests.1, tree.2 + manifests.2, n, dropped⟩ : ReindexReport))
      (do let dropped ← dropTimelines
          let tree ← sources.tree.foldlM (indexFile P) (0, 0)
          let manifests ← sources.manifests.foldlM (indexManifest P) (0, 0)
          sources.quarantine.forM (reregisterFile (opened P paths) env')
          return (⟨tree.1, manifests.1, tree.2 + manifests.2, n, dropped⟩ : ReindexReport)) SameCounts := by
    refine dropTimelines_related.bind fun dropped dropped' _ => ?_
    have htree : Related AlikeIndexed (sources.tree.foldlM (indexFile P) (0, 0))
        (sources.tree.foldlM (indexFile P) (0, 0)) Eq :=
      Related.foldlM (fun a b p _ hab => hab ▸ indexFile_related a p) rfl
    have hmanifests : Related AlikeIndexed (sources.manifests.foldlM (indexManifest P) (0, 0))
        (sources.manifests.foldlM (indexManifest P) (0, 0)) Eq :=
      Related.foldlM (fun a b p _ hab => hab ▸ indexManifest_related a p) rfl
    refine htree.bind_eq fun tree => hmanifests.bind_eq fun manifests => ?_
    rw [hq]
    exact Related.pure ⟨rfl, rfl, rfl⟩
  rw [Core.rebuild, transaction_eq_ok, bind_of_ok (hfirst σ)] at hσ
  obtain ⟨rep', τ', hτ, hcounts, halike⟩ := hrest.ok hempty hσ
  refine ⟨rep', τ', ?_, hcounts, halike⟩
  rw [Core.rebuild, transaction_eq_ok, bind_of_ok (hfirst τ)]
  exact hτ

theorem Alike.reindexAll (h : Alike σ τ) {rep : ReindexReport} {σ' : Store}
    (hσ : Core.reindexAll P env σ = (.ok rep, σ')) :
    ∃ rep' τ', Core.reindexAll (opened P paths) env' τ = (.ok rep', τ') ∧ SameCounts rep rep' ∧
      AlikeIndexed σ' τ' := by
  obtain ⟨n, σ₁, hreplay, hrebuild⟩ := bind_eq_ok.1 hσ
  rw [state_bind] at hrebuild
  have hrelated : Related Alike (replayTombstones P env) (replayTombstones P env') Eq :=
    replayTombstones_related
  obtain ⟨n', τ₁, hreplay', rfl, h₁⟩ := hrelated.ok h hreplay
  obtain ⟨hsame, hq⟩ : Sources.list (opened P paths) τ₁ = Sources.list P σ₁ ∧
    (Sources.list P σ₁).quarantine = [] := h₁.sources
  rw [Core.reindexAll, replayTombstones_opened, bind_of_ok hreplay', state_bind, hsame]
  exact h₁.rebuild hq hrebuild

/-! ## The keys of the destination -/

variable {into frm : Path} {t u : Tree} {now : ℤ} {readJson : Text → Except String ManifestFile}

/-- A backup, where it lies on a later file system. -/
structure Stored (paths : Paths) (frm : Path) (now : ℤ) (t u : Tree) : Prop where
  signed : ∃ f, u.lookup (frm ++ [manifestFile]) = some f ∧
    f.content = Utf8.encode (ManifestFile.render ⟨manifestVersion, now, manifest⟩)
  copied : ∀ name r, dispositionOf name = some .included →
    (u.lookup (frm ++ name :: r)).map File.content = (t.lookup (paths.root ++ name :: r)).map File.content
  alone : ∀ q, frm ++ q ∈ u → q = [manifestFile] ∨
    ∃ name r, q = name :: r ∧ dispositionOf name = some .included

theorem BackedUp.stored {rep : BackupReport} {t' : Tree} (h : BackedUp paths frm now t t' rep)
    (hu : ∀ q, u.lookup (frm ++ q) = t'.lookup (frm ++ q)) : Stored paths frm now t u where
  signed := by
    obtain ⟨f, hf, hcontent⟩ := Option.map_eq_some_iff.1 h.signed
    exact ⟨f, by rw [hu, hf], hcontent⟩
  copied name r hname := by
    rw [hu, h.copied name r hname, Option.map_map]
    rfl
  alone q hq := h.alone q (by rwa [Tree.mem_iff_lookup, ← hu, ← Tree.mem_iff_lookup])

variable {paths' : Paths}

section
set_option maxRecDepth 4000

def elsewhere : Paths := .under ["srv".toList, "restored".toList]

end

end Backup

end Yaam.Core
