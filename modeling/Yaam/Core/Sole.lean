/-
  A document that stands alone under its identifier, and the passes that leave it so.

  * `Sole` says that one record file carries the document, that nothing else in the store
    goes by its identifier, and that the index has what publishing the file leaves;
  * `OneFile.inspect` is what a read of it answers;
  * `Sole.later`: no erasure, retention pass, sweep or rebuild takes it away or changes
    it, as long as its body is prose.
-/
import Yaam.Core.Rebuilt
import Yaam.Core.Confined
import Yaam.Core.Unseal

namespace Yaam.Core

open Text Contract Crypto Md Eff Index

variable {P : Pipeline} {env : Env} {p : Path} {d : Document} {E : Entry → Prop} {σ : Store}

/-! ## One file, one entry -/

/-- A document as the file at a path publishes it. -/
structure Filed (P : Pipeline) (p : Path) (d : Document) : Prop where
  name : ∃ dir, p = dir ++ [recordFile d.record.recordId]
  reads_back : Document.parse P.yaml (Document.render P.yaml d) = .ok d

/-- Another record file of the tree carries this document. -/
def Elsewhere (P : Pipeline) (p : Path) (t : Tree) (d : Document) : Prop :=
  ∃ q f, q ≠ p ∧ extension q = some recordExt ∧ t.lookup q = some f ∧ Carries P f d

/-- The document's file stands, and no other file goes by its identifier. -/
structure OneFile (P : Pipeline) (p : Path) (d : Document) (σ : Store) : Prop where
  file : ∃ f, σ.records.lookup p = some f ∧ f.content = fileBytes P d
  named : ∀ q ∈ σ.records, extension q = some recordExt →
    fileStem q = some d.record.recordId.text → q = p
  records : ∀ d', Elsewhere P p σ.records d' → d'.record.recordId ≠ d.record.recordId
  staging : ∀ d', FileDoc P σ.staging d' → d'.record.recordId ≠ d.record.recordId
  quarantine : ∀ d', FileDoc P σ.quarantine d' → d'.record.recordId ≠ d.record.recordId
  cold : ∀ d', ManifestDoc P σ d' → d'.record.recordId ≠ d.record.recordId

/-- The document's one file stands, and its index entry has a property. -/
structure Standing (P : Pipeline) (p : Path) (d : Document) (E : Entry → Prop) (σ : Store) : Prop where
  oneFile : OneFile P p d σ
  entry : E (σ.index.entry d.record.recordId)

/-- **A document alone under its identifier**: one file carries it, and the index holds
    what publishing that file alone leaves. -/
def Sole (P : Pipeline) (p : Path) (d : Document) (σ : Store) : Prop := Standing P p d (· = alone d) σ

theorem Filed.extension (h : Filed P p d) : extension p = some recordExt := by
  obtain ⟨dir, rfl⟩ := h.name
  exact extension_recordFile dir _

theorem Filed.stem (h : Filed P p d) : fileStem p = some d.record.recordId.text := by
  obtain ⟨dir, rfl⟩ := h.name
  exact fileStem_recordFile dir _

theorem OneFile.mem (h : OneFile P p d σ) : p ∈ σ.records := by
  obtain ⟨f, hf, -⟩ := h.file
  exact Tree.mem_iff_lookup.2 ⟨f, hf⟩

/-- What is read at the document's path is the document. -/
theorem OneFile.read (h : OneFile P p d σ) {text : Text} (hread : σ.records.readToString p = .ok text) :
    text = Document.render P.yaml d := by
  obtain ⟨f, hf, hc⟩ := h.file
  obtain ⟨g, hg, hgc⟩ := Tree.readToString_ok.1 hread
  obtain rfl : f = g := Option.some.inj (hf.symm.trans hg)
  exact Utf8.encode_inj (hgc.symm.trans hc)

/-- What is read at another path and parses has another identifier. -/
theorem OneFile.elsewhere (h : OneFile P p d σ) {q : Path} (hne : q ≠ p)
    (hq : extension q = some recordExt) {text : Text} {d' : Document}
    (hread : σ.records.readToString q = .ok text) (hd : Document.parse P.yaml text = .ok d') :
    d'.record.recordId ≠ d.record.recordId := by
  obtain ⟨f, hf, hc⟩ := carries_of_read hread hd
  exact h.records d' ⟨q, f, hne, hq, hf, hc⟩

/-! ## Writes beside it -/

theorem OneFile.ne_of_stem (hp : Filed P p d) {q : Path}
    (h : fileStem q ≠ some d.record.recordId.text) : q ≠ p := by
  rintro rfl
  exact h hp.stem

theorem stem_publishedPath_ne {d' : Document} {st : Stamp} {dest : Path}
    (hdest : publishedPath d'.record st = .ok dest)
    (hne : d'.record.recordId ≠ d.record.recordId) :
    fileStem dest ≠ some d.record.recordId.text := by
  obtain ⟨dir, rfl⟩ := publishedPath_ok hdest
  rw [fileStem_recordFile]
  intro h
  exact hne (RecordId.ext_text (Option.some.inj h))

/-- A file of another identifier is put into the tree. -/
theorem OneFile.insert (hp : Filed P p d) (h : OneFile P p d σ) {dest : Path} {f : File}
    (hdest : fileStem dest ≠ some d.record.recordId.text)
    (hf : ∀ d', Carries P f d' → d'.record.recordId ≠ d.record.recordId) :
    OneFile P p d { σ with records := σ.records.insert dest f } := by
  have hne : dest ≠ p := OneFile.ne_of_stem hp hdest
  refine ⟨?_, fun q hq hext hstem => ?_, fun d' h' => ?_, h.staging, h.quarantine, h.cold⟩
  · obtain ⟨g, hg, hc⟩ := h.file
    exact ⟨g, by rwa [AList.lookup_insert_ne hne.symm], hc⟩
  · rcases (AList.mem_insert _).1 hq with rfl | hq
    · exact absurd hstem hdest
    · exact h.named q hq hext hstem
  · obtain ⟨q, g, hqp, hext, hg, hc⟩ := h'
    by_cases hqd : q = dest
    · subst hqd
      rw [AList.lookup_insert] at hg
      exact hf d' (Option.some.inj hg ▸ hc)
    · rw [AList.lookup_insert_ne hqd] at hg
      exact h.records d' ⟨q, g, hqp, hext, hg, hc⟩

/-- Another file of the tree is replaced. -/
theorem OneFile.replaceAtomically (hp : Filed P p d) (h : OneFile P p d σ) {q : Path} {bytes : Bytes}
    {now : ℤ} (hq : q ∈ σ.records) (hext : extension q = some recordExt) (hne : q ≠ p)
    (hf : ∀ d', Carries P ⟨bytes, now⟩ d' → d'.record.recordId ≠ d.record.recordId) :
    OneFile P p d { σ with records := σ.records.replaceAtomically q bytes now } := by
  have hkept : ∀ x, extension x = some recordExt → x ≠ q →
      (σ.records.replaceAtomically q bytes now).lookup x = σ.records.lookup x := by
    intro x hx hxq
    refine Tree.lookup_replaceAtomically_of_ne _ bytes now hxq ?_
    rintro rfl
    rw [extension_temporary hext] at hx
    exact absurd (Option.some.inj hx) (by decide)
  refine ⟨?_, fun x hx hxe hstem => ?_, fun d' h' => ?_, h.staging, h.quarantine, h.cold⟩
  · obtain ⟨g, hg, hc⟩ := h.file
    exact ⟨g, by rwa [hkept p hp.extension hne.symm], hc⟩
  · refine h.named x ?_ hxe hstem
    by_cases hxq : x = q
    · exact hxq ▸ hq
    · obtain ⟨g, hg⟩ := Tree.mem_iff_lookup.1 hx
      exact Tree.mem_iff_lookup.2 ⟨g, by rwa [hkept x hxe hxq] at hg⟩
  · obtain ⟨x, g, hxp, hxe, hg, hc⟩ := h'
    by_cases hxq : x = q
    · subst hxq
      rw [Tree.lookup_replaceAtomically] at hg
      exact hf d' (Option.some.inj hg ▸ hc)
    · rw [hkept x hxe hxq] at hg
      exact h.records d' ⟨x, g, hxp, hxe, hg, hc⟩

/-- A copy is staged and taken out again. -/
theorem FileDoc.unstaged {t : Tree} {q : Path} {bytes : Bytes} {now : ℤ}
    (h : FileDoc P ((t.write q bytes now).erase q) d) : FileDoc P t d := by
  obtain ⟨x, f, hx, hf, hc⟩ := h
  have hne : x ≠ q := by
    rintro rfl
    rw [AList.lookup_erase] at hf
    cases hf
  rw [AList.lookup_erase_ne hne, Tree.write, AList.lookup_insert_ne hne] at hf
  exact ⟨x, f, hx, hf, hc⟩

/-- **Publishing another document leaves a document its one file.** -/
theorem OneFile.placedIn (hp : Filed P p d) (h : OneFile P p d σ) {d' : Document} {st : Stamp}
    {dest : Path} (hdest : publishedPath d'.record st = .ok dest)
    (hne : d'.record.recordId ≠ d.record.recordId)
    (hf : ∀ e, Carries P ⟨fileBytes P d', env.now⟩ e → e.record.recordId ≠ d.record.recordId) :
    OneFile P p d (placedIn P env d' dest σ) := by
  have hin := h.insert hp (f := ⟨fileBytes P d', env.now⟩) (stem_publishedPath_ne hdest hne) hf
  exact ⟨hin.file, hin.named, hin.records, fun e he => h.staging e he.unstaged, h.quarantine, h.cold⟩

/-! ## Erasures -/

/-- What an erasure changes of the store besides files: nothing a document's one file
    rests on. -/
theorem OneFile.keyed {α : Type} (x : Eff Tree Crypto.Error α) : Keeps (OneFile P p d) (keyed x) :=
  fun _ h => ⟨h.file, h.named, h.records, h.staging, h.quarantine, h.cold⟩

theorem dropBody_oneFile (hY : P.yaml.Inverts) (hp : Filed P p d) (hplain : isPlain d = true)
    (s : SubjectHash) (n : ℕ) {q : Path} (hq : extension q = some recordExt) :
    Keeps (OneFile P p d) (dropBody P env s n q) := by
  refine keeps_readFile_bind fun σ text h hread => ?_
  cases hd : Document.parse P.yaml text with
  | error e => exact h
  | ok d' =>
    dsimp only
    split_ifs with hskip
    · exact h
    · -- the document's own file has no body to drop
      have hne : q ≠ p := by
        rintro rfl
        rw [h.read hread, hp.reads_back] at hd
        obtain rfl := Except.ok.inj hd
        exact hskip (.inr hplain)
      have hid := h.elsewhere hne hq hread hd
      obtain ⟨f, hf, -⟩ := Tree.readToString_ok.1 hread
      refine h.replaceAtomically hp (Tree.mem_iff_lookup.2 ⟨f, hf⟩) hq hne fun e he => ?_
      rw [carries_structureOf hY (Document.parse_validate hd) he]
      exact hid

theorem dropBodies_oneFile (hY : P.yaml.Inverts) (hp : Filed P p d) (hplain : isPlain d = true)
    (s : SubjectHash) : Keeps (OneFile P p d) (dropBodies P env s) :=
  Keeps.state_bind fun σ h => Keeps.foldlM (fun n _ hq =>
    dropBody_oneFile hY hp hplain s n (Tree.mem_walkFiles.1 hq).2) 0 σ h

theorem publishStructureOnly_oneFile (hY : P.yaml.Inverts) (hp : Filed P p d) {held : Document}
    (hv : held.record.validate = .ok ()) (hne : held.record.recordId ≠ d.record.recordId) :
    Keeps (OneFile P p d) (publishStructureOnly P env held) := by
  refine (Keeps.ofExcept _).bind fun st => ?_
  cases hdest : publishedPath (structureOf held).record st with
  | error e => exact Keeps.fail _
  | ok dest =>
    rw [ofExcept_ok_bind]
    refine Keeps.state_bind fun σ h => ?_
    split_ifs
    · exact h
    · simp only [bind_of_ok (stage_apply _ _), bind_of_ok (place_stagedIn hdest _)]
      refine h.placedIn hp hdest hne fun e he => ?_
      rw [carries_structureOf hY hv he]
      exact hne

theorem sweepQuarantine_oneFile (hY : P.yaml.Inverts) (hp : Filed P p d) (s : SubjectHash) :
    Keeps (OneFile P p d) (sweepQuarantine P env s) := by
  refine Keeps.state_bind fun σ h => Keeps.foldlM (fun n _ hq => ?_) 0 σ h
  have hext := (Tree.mem_walkFiles.1 hq).2
  refine keeps_readFile_bind fun τ text hτ hread => ?_
  cases hd : Document.parse P.yaml text with
  | error e => exact hτ
  | ok d' =>
    dsimp only
    split_ifs with hn
    · have hne := hτ.quarantine d' (FileDoc.of_read hext hread hd)
      refine Keeps.bind (publishStructureOnly_oneFile hY hp (Document.parse_validate hd) hne)
        (fun _ => ?_) τ hτ
      exact Keeps.bind (Keeps.change fun u hu => ⟨hu.file, hu.named, hu.records, hu.staging,
        fun e he => hu.quarantine e he.erase, hu.cold⟩) fun _ => Keeps.pure _
    · exact hτ

theorem replayTombstones_oneFile (hY : P.yaml.Inverts) (hp : Filed P p d) (hplain : isPlain d = true) :
    Keeps (OneFile P p d) (replayTombstones P env) := by
  refine readLog_keeps.bind fun log => ?_
  refine Keeps.bind (Keeps.forM fun e _ => ?_) fun _ => Keeps.pure _
  exact (Keeps.ofExcept _).bind fun s => (OneFile.keyed _).bind fun _ => (OneFile.keyed _).bind fun _ =>
    (dropBodies_oneFile hY hp hplain s).bind fun _ => (sweepQuarantine_oneFile hY hp s).bind fun _ =>
      Keeps.pure _

/-! ## Indexing -/

/-- A document the index knows nothing about gets the rows it has alone. -/
theorem entry_of_unknown {i : Tables} {row : RecordRow} {ms : ℤ}
    (hrow : Publishable (publishInput d) row)
    (hms : receivedMsOf d.record.recordId (insertRecord row i.records) = some ms)
    (hnew : i.Unknown d.record.recordId) :
    (published (publishInput d) row ms i).entry d.record.recordId = alone d := by
  have hid : row.recordId = d.record.recordId := (recordRow_ok hrow.row).1
  have hnone : ∀ r ∈ i.records, r.recordId ≠ d.record.recordId := by
    have hrows : i.records.filter (fun r => r.recordId = d.record.recordId) = [] :=
      congrArg Entry.records hnew
    simpa using List.filter_eq_nil_iff.1 hrows
  have hfind : i.records.find? (fun r => r.recordId = d.record.recordId) = none := by
    simpa using hnone
  have happ : insertRecord row i.records = i.records ++ [row] :=
    upsert_of_new fun r hr => by rw [hid]; exact hnone r hr
  rw [happ, receivedMsOf, List.find?_append, hfind] at hms
  obtain rfl : row.receivedMs = ms := by simpa [hid] using hms
  rw [alone_eq hrow]
  exact entry_published hid hnew

/-- **Committing another document leaves a document alone.** -/
theorem commit_standing {d' : Document} (hne : d'.record.recordId ≠ d.record.recordId) :
    Keeps (Standing P p d E) (commit d') := by
  intro σ h
  rcases commit_cases d' σ with ⟨row, ms, hrow, -, hc⟩ | ⟨-, e, hc⟩
  · rw [hc]
    have hoid := h.oneFile
    refine ⟨⟨hoid.file, hoid.named, hoid.records, hoid.staging, hoid.quarantine, hoid.cold⟩, ?_⟩
    show E ((published (publishInput d') row ms σ.index).entry _)
    rw [entry_published_of_ne (recordRow_ok hrow.row).1 hne]
    exact h.entry
  · rw [hc]
    exact h

/-- A step that keeps the files and the document's rows. -/
theorem Standing.of_same {σ' : Store} (h : Standing P p d E σ) (hrecords : σ'.records = σ.records)
    (hstaging : σ'.staging = σ.staging) (hquarantine : σ'.quarantine = σ.quarantine)
    (hcold : σ'.cold = σ.cold) (hentry : σ'.index.entry d.record.recordId =
      σ.index.entry d.record.recordId) : Standing P p d E σ' := by
  have ho := h.oneFile
  refine ⟨⟨?_, ?_, ?_, ?_, ?_, ?_⟩, by rw [hentry]; exact h.entry⟩
  · rw [hrecords]
    exact ho.file
  · rw [hrecords]
    exact ho.named
  · rw [hrecords]
    exact ho.records
  · rw [hstaging]
    exact ho.staging
  · rw [hquarantine]
    exact ho.quarantine
  · rintro d' ⟨q, text, l, r, hread, hl, hr, rfl⟩
    rw [hcold] at hread
    exact ho.cold _ ⟨q, text, l, r, hread, hl, hr, rfl⟩

/-! ## Sweeps -/

theorem redriveDocument_standing (hp : Filed P p d) {q : Path} (hq : extension q = some recordExt)
    {d' : Document} (hne : d'.record.recordId ≠ d.record.recordId) :
    Keeps (Standing P p d E) (redriveDocument P q d') := by
  have hdrop : ∀ τ, Standing P p d E τ → Standing P p d E { τ with staging := τ.staging.erase q } := by
    intro τ h
    have ho := h.oneFile
    exact ⟨⟨ho.file, ho.named, ho.records, fun e he => ho.staging e he.erase, ho.quarantine, ho.cold⟩,
      h.entry⟩
  refine (Keeps.ofExcept _).bind fun st => ?_
  cases hdest : publishedPath d'.record st with
  | error e => exact Keeps.fail _
  | ok dest =>
    rw [ofExcept_ok_bind]
    have hstem := stem_publishedPath_ne hdest hne
    refine Keeps.state_bind fun σ h => ?_
    split_ifs with hmem
    · refine keeps_readFile_bind (fun u text hu hread => ?_) σ h
      cases hparse : Document.parse P.yaml text with
      | error e => exact hu
      | ok pub =>
        have hpub := hu.oneFile.elsewhere (OneFile.ne_of_stem hp hstem) (publishedPath_ext hdest)
          hread hparse
        exact Keeps.bind (commit_standing hpub) (fun _ => Keeps.change hdrop) u hu
    · have hplace : Keeps (Standing P p d E) (place d' q st) := by
        unfold place
        rw [hdest, ofExcept_ok_bind]
        refine Keeps.state_bind fun u hu => ?_
        unfold Tree.rename
        cases hf : u.staging.lookup q with
        | none =>
          dsimp only
          split_ifs
          · exact hu
          · exact hu
        | some f =>
          have hin := hu.oneFile.insert hp (f := f) hstem fun e he =>
            hu.oneFile.staging e ⟨q, f, hq, hf, he⟩
          exact ⟨⟨hin.file, hin.named, hin.records, fun e he => hu.oneFile.staging e he.erase,
            hin.quarantine, hin.cold⟩, hu.entry⟩
      exact hplace.bind (fun _ => commit_standing hne) σ h

theorem redriveFile_standing (hp : Filed P p d) (n : ℕ) {q : Path} (hq : extension q = some recordExt) :
    Keeps (Standing P p d E) (redriveFile P n q) := by
  refine keeps_readFile_bind fun σ text h hread => ?_
  cases hparse : Document.parse P.yaml text with
  | error e =>
    have hset : Keeps (Standing P p d E) (setAside q) := by
      refine Keeps.state_bind fun u hu => ?_
      unfold Tree.rename
      cases u.staging.lookup q with
      | none => exact hu
      | some f =>
        have ho := hu.oneFile
        exact ⟨⟨ho.file, ho.named, ho.records, fun e he => ho.staging e he.erase, ho.quarantine,
          ho.cold⟩, hu.entry⟩
    exact hset.bind (fun _ => Keeps.pure _) σ h
  | ok d' =>
    have hne := h.oneFile.staging d' (FileDoc.of_read hq hread hparse)
    exact (redriveDocument_standing hp hq hne).bind (fun _ => Keeps.pure _) σ h

/-- A document that stands alone has a row. -/
theorem Sole.has {row : RecordRow} (hrow : Publishable (publishInput d) row) (h : Sole P p d σ) :
    σ.index.has d.record.recordId.text = true := by
  have hid : row.recordId = d.record.recordId := (recordRow_ok hrow.row).1
  have hrecords := congrArg Entry.records h.entry
  rw [alone_eq hrow] at hrecords
  have hmem : row ∈ σ.index.records.filter fun r => r.recordId = d.record.recordId := by
    rw [show σ.index.records.filter (fun r => r.recordId = d.record.recordId) = _ from hrecords]
    show row ∈ [row].filter fun r => r.recordId = d.record.recordId
    simp [hid]
  rw [Tables.has, List.any_eq_true]
  exact ⟨row, (List.mem_filter.1 hmem).1, by simp [hid]⟩

/-- A sweep keeps the document's one file, and its entry when committing the document
    again does or is not asked for. -/
theorem sweep_standing (hp : Filed P p d) (hown : (∀ σ, Standing P p d E σ →
      σ.index.has d.record.recordId.text = true) ∨ Keeps (Standing P p d E) (commit d)) :
    Keeps (Standing P p d E) (sweep P env) := by
  have hstaging : Keeps (Standing P p d E) (redriveStaging P env) :=
    Keeps.state_bind fun σ h => Keeps.foldlM (fun n q hq =>
      redriveFile_standing hp n (Tree.mem_walkFiles.1 (List.mem_filter.1 hq).1).2) 0 σ h
  have htree : Keeps (Standing P p d E) (indexTheUnindexed P env) := by
    refine Keeps.state_bind fun σ h => Keeps.foldlM (fun n q hq => ?_) 0 σ h
    obtain ⟨hq, hun⟩ := List.mem_filter.1 hq
    have hext := (Tree.mem_walkFiles.1 hq).2
    refine keeps_readFile_bind fun u text hu hread => ?_
    cases hparse : Document.parse P.yaml text with
    | error e => exact hu
    | ok d' =>
      by_cases hqp : q = p
      · subst hqp
        -- the document's own file is committed when it has no row yet
        have hkeeps : Keeps (Standing P q d E) (commit d) := hown.resolve_left fun hhas => by
          simp [hp.stem, hhas σ h] at hun
        rw [hu.oneFile.read hread, hp.reads_back] at hparse
        obtain rfl := Except.ok.inj hparse
        exact hkeeps.bind (fun _ => Keeps.pure _) u hu
      · have hid := hu.oneFile.elsewhere hqp hext hread hparse
        exact (commit_standing hid).bind (fun _ => Keeps.pure _) u hu
  have hheads : Keeps (Standing P p d E) (repairTimelineHeads env) :=
    fun σ h => h.of_same rfl rfl rfl rfl rfl
  have hclaims : Keeps (Standing P p d E) (reclaimFanout env) :=
    fun σ h => h.of_same rfl rfl rfl rfl ((sameJobs_reclaim _ _).entry _)
  exact hstaging.bind fun _ => htree.bind fun _ => hheads.bind fun _ => hclaims.bind fun _ =>
    Keeps.pure _

/-- **A sweep leaves a document alone.** -/
theorem sweep_sole (hp : Filed P p d) {row : RecordRow} (hrow : Publishable (publishInput d) row) :
    Keeps (Sole P p d) (sweep P env) :=
  sweep_standing hp (.inl fun _ h => Sole.has hrow h)

/-- A property of the document's one file, as one of its standing. -/
theorem keeps_oneFile {α : Type} {x : StoreM α} (h : Keeps (Standing P p d fun _ => True) x) :
    Keeps (OneFile P p d) x := fun σ hσ => (h σ ⟨hσ, trivial⟩).oneFile

/-- A sweep leaves a document its one file, indexed or not. -/
theorem sweep_oneFile (hp : Filed P p d) : Keeps (OneFile P p d) (sweep P env) :=
  keeps_oneFile (sweep_standing hp (.inr fun σ h => by
    have ho := h.oneFile
    rcases commit_cases d σ with ⟨row, ms, -, -, hc⟩ | ⟨-, e, hc⟩
    · rw [hc]
      exact ⟨⟨ho.file, ho.named, ho.records, ho.staging, ho.quarantine, ho.cold⟩, trivial⟩
    · rw [hc]
      exact h))

/-! ## Rebuilds -/

/-- While a rebuild goes well: the document's one file, and what the index has of it. -/
def Derived.Has (P : Pipeline) (p : Path) (d : Document) (e : Entry) (σ : Store) : Prop :=
  OneFile P p d σ ∧ σ.index.entry d.record.recordId = e

variable {e : Entry}

/-- A write of a rebuild that leaves the document's rows. -/
theorem inBatch_has {x : Eff Tables Index.Error Unit}
    (h : ∀ i j, x i = (.ok (), j) → j.entry d.record.recordId = i.entry d.record.recordId) :
    Triple (Derived.Has P p d e) (inBatch x) (fun _ => Derived.Has P p d e) Undone := by
  refine Triple.of_cases (fun σ σ' u hσ hx => ?_) fun _ _ _ _ _ => trivial
  obtain ⟨j, hj, rfl⟩ := zoom_eq_ok.1 hx
  have ho := hσ.1
  exact ⟨⟨ho.file, ho.named, ho.records, ho.staging, ho.quarantine, ho.cold⟩,
    (h _ _ (mapError_eq_ok.1 hj)).trans hσ.2⟩

theorem publishDocument_has {d' : Document} (hne : d'.record.recordId ≠ d.record.recordId) :
    Triple (Derived.Has P p d e) (inBatch (publishDocument d')) (fun _ => Derived.Has P p d e)
      Undone := by
  refine inBatch_has fun i j hij => ?_
  obtain ⟨row, ms, hrow, -, rfl⟩ := publish_eq_ok.1 hij
  exact entry_published_of_ne (recordRow_ok hrow.row).1 hne

theorem indexFile_has {q : Path} (hq : extension q = some recordExt) (hne : q ≠ p) (n : ℕ × ℕ) :
    Triple (Derived.Has P p d e) (indexFile P n q) (fun _ => Derived.Has P p d e) Undone := by
  refine readFile_triple.bind fun text => ?_
  cases hparse : Document.parse P.yaml text with
  | error err => exact Triple.pure fun σ hσ => hσ.1
  | ok d' =>
    rintro σ ⟨hσ, hread⟩
    have hid := hσ.1.elsewhere hne hq hread hparse
    have hpub : Triple (Derived.Has P p d e)
        (inBatch (publishDocument d') >>= fun _ => (Pure.pure (n.1 + 1, n.2) : StoreM (ℕ × ℕ)))
        (fun _ => Derived.Has P p d e) Undone :=
      (publishDocument_has hid).bind fun _ => Triple.pure fun _ h => h
    exact hpub σ hσ

/-- Indexing the document's own file gives it the rows it has alone. -/
theorem indexFile_own (hp : Filed P p d) (n : ℕ × ℕ) :
    Triple (Derived.Has P p d (Tables.empty.entry d.record.recordId)) (indexFile P n p)
      (fun _ => Derived.Has P p d (alone d)) Undone := by
  refine readFile_triple.bind fun text => ?_
  rintro σ ⟨hσ, hread⟩
  rw [hσ.1.read hread, hp.reads_back]
  have hpub : Triple (Derived.Has P p d (Tables.empty.entry d.record.recordId))
      (inBatch (publishDocument d) >>= fun _ => (Pure.pure (n.1 + 1, n.2) : StoreM (ℕ × ℕ)))
      (fun _ => Derived.Has P p d (alone d)) Undone := by
    refine Triple.bind (Q := fun _ => Derived.Has P p d (alone d)) ?_ fun _ => Triple.pure fun _ h => h
    refine Triple.of_cases (fun τ τ' u hτ hx => ?_) fun _ _ _ _ _ => trivial
    obtain ⟨j, hj, rfl⟩ := zoom_eq_ok.1 hx
    obtain ⟨row, ms, hrow, hms, rfl⟩ := publish_eq_ok.1 (mapError_eq_ok.1 hj)
    have ho := hτ.1
    exact ⟨⟨ho.file, ho.named, ho.records, ho.staging, ho.quarantine, ho.cold⟩,
      entry_of_unknown hrow hms hτ.2⟩
  exact hpub σ hσ

theorem indexManifest_has (n : ℕ × ℕ) (q : Path) :
    Triple (Derived.Has P p d e) (indexManifest P n q) (fun _ => Derived.Has P p d e) Undone := by
  refine readFile_triple.bind fun text => ?_
  rintro σ ⟨hσ, hread⟩
  have hcold : ∀ l ∈ lines text, ∀ r, manifestRecord P l = .ok r →
      r.recordId ≠ d.record.recordId := fun l hl r hr => hσ.1.cold _ ⟨q, text, l, r, hread, hl, hr, rfl⟩
  have hline : ∀ (n : ℕ × ℕ), ∀ l ∈ (lines text).filter fun l => trim l ≠ [],
      Triple (Derived.Has P p d e) (indexLine P n l) (fun _ => Derived.Has P p d e) Undone := by
    intro n l hl
    unfold indexLine
    cases hr : manifestRecord P l with
    | error err => exact Triple.pure fun _ h => h
    | ok r =>
      have hpub : Triple (Derived.Has P p d e) (inBatch (Index.publish ⟨r, [], []⟩))
          (fun _ => Derived.Has P p d e) Undone := by
        refine inBatch_has fun i j hij => ?_
        obtain ⟨row, ms, hrow, -, rfl⟩ := publish_eq_ok.1 hij
        exact entry_published_of_ne (recordRow_ok hrow.row).1
          (hcold l (List.mem_filter.1 hl).1 r hr)
      exact hpub.bind fun _ => Triple.pure fun _ h => h
  exact Triple.foldlM hline n σ hσ

theorem reregisterFile_has (q : Path) :
    Triple (Derived.Has P p d e) (reregisterFile P env q) (fun _ => Derived.Has P p d e) Undone := by
  refine readFile_triple.bind fun text => ?_
  cases Document.parse P.yaml text with
  | error err => exact Triple.pure fun σ hσ => hσ.1
  | ok d' =>
    suffices hreg : Triple (Derived.Has P p d e) (do
        let st ← Eff.ofExcept (stampOf d'.record)
        inBatch (change (enqueueQuarantine d'.record.recordId st.date (dirPath P ".quarantine" q)
          env.now))) (fun _ => Derived.Has P p d e) Undone from
      hreg.conseq (fun _ h => h.1) (fun _ _ h => h) fun _ _ h => h
    refine Triple.bind (Q := fun _ => Derived.Has P p d e) (fun σ hσ => ?_) fun st => ?_
    · cases hst : stampOf d'.record with
      | ok st => simpa [hst] using hσ
      | error err => simp [Undone]
    · exact inBatch_has fun i j hij => by
        obtain rfl := change_eq_ok.1 hij
        exact (sameJobs_quarantine _ _).entry _

/-- **The transaction of a rebuild derives the document's rows again.** -/
theorem rebuild_has (env : Env) (hp : Filed P p d) (n : ℕ) (h : OneFile P p d σ) :
    Triple (Derived.Has P p d (Tables.empty.entry d.record.recordId)) (do
      let dropped ← dropTimelines
      let tree ← (Sources.list P σ).tree.foldlM (indexFile P) (0, 0)
      let manifests ← (Sources.list P σ).manifests.foldlM (indexManifest P) (0, 0)
      forM (Sources.list P σ).quarantine (reregisterFile P env)
      return (⟨tree.1, manifests.1, tree.2 + manifests.2, n, dropped⟩ : ReindexReport))
      (fun _ => Derived.Has P p d (alone d)) Undone := by
  have hmem : ∀ q, q ∈ (Sources.list P σ).tree ↔ q ∈ σ.records ∧ extension q = some recordExt := by
    intro q
    rw [Sources.list, List.mem_insertionSort, Tree.mem_walkFiles]
  have hnd : (Sources.list P σ).tree.Nodup :=
    (List.perm_insertionSort _ _).nodup_iff.2 (Tree.nodup_walkFiles _ _)
  -- the walk meets the document's file once
  obtain ⟨before, after, hsplit⟩ := List.append_of_mem ((hmem p).2 ⟨h.mem, hp.extension⟩)
  rw [hsplit] at hnd hmem ⊢
  have hbefore : ∀ q ∈ before, q ≠ p := fun q hq =>
    (List.nodup_append.1 hnd).2.2 q hq p List.mem_cons_self
  have hafter : ∀ q ∈ after, q ≠ p := by
    rintro q hq rfl
    exact (List.nodup_cons.1 (List.nodup_append.1 hnd).2.1).1 hq
  have hext : ∀ q ∈ before ++ p :: after, extension q = some recordExt := fun q hq => ((hmem q).1 hq).2
  have hdrop : ∀ e, Triple (Derived.Has P p d e) dropTimelines (fun _ => Derived.Has P p d e) Undone := by
    intro e τ hτ
    have ho := hτ.1
    exact ⟨⟨ho.file, ho.named, ho.records, ho.staging, ho.quarantine, ho.cold⟩, hτ.2⟩
  refine (hdrop _).bind fun dropped => ?_
  refine Triple.bind (Q := fun _ => Derived.Has P p d (alone d)) ?_ fun tree => ?_
  · rw [List.foldlM_append]
    refine (Triple.foldlM (fun n q hq => ?_) (0, 0)).bind fun m => ?_
    · exact indexFile_has (hext q (by simp [hq])) (hbefore q hq) n
    · rw [List.foldlM_cons]
      refine (indexFile_own hp m).bind fun m' => Triple.foldlM (fun n q hq => ?_) m'
      exact indexFile_has (hext q (by simp [hq])) (hafter q hq) n
  · refine (Triple.foldlM (fun n q _ => indexManifest_has n q) (0, 0)).bind fun manifests => ?_
    exact (Triple.forM fun q _ => reregisterFile_has q).bind fun _ => Triple.pure fun _ h => h

/-- Nothing a rebuild derives matters to a document's one file. -/
theorem oneFile_frame : DerivedFrame (OneFile P p d) where
  index _ _ h := ⟨h.file, h.named, h.records, h.staging, h.quarantine, h.cold⟩
  entities _ _ h := ⟨h.file, h.named, h.records, h.staging, h.quarantine, h.cold⟩

/-- A rebuild leaves a document its one file. -/
theorem reindexAll_oneFile (hY : P.yaml.Inverts) (hp : Filed P p d) (hplain : isPlain d = true) :
    Keeps (OneFile P p d) (reindexAll P env) :=
  (replayTombstones_oneFile hY hp hplain).bind fun _ => Keeps.state.bind fun _ =>
    rebuild_keeps oneFile_frame _ _

/-- **A rebuild leaves a document alone**, whether it goes through or is undone. -/
theorem reindexAll_sole (hY : P.yaml.Inverts) (hp : Filed P p d) (hplain : isPlain d = true) :
    Keeps (Sole P p d) (reindexAll P env) := by
  intro σ h
  have hfiles : OneFile P p d (replayTombstones P env σ).2 :=
    replayTombstones_oneFile hY hp hplain σ h.oneFile
  have hindex := (replayTombstones_replayed hY env σ).index
  unfold reindexAll
  cases hx : replayTombstones P env σ with
  | mk res σ₁ =>
    rw [hx] at hfiles hindex
    cases res with
    | error err =>
      rw [bind_of_error hx]
      exact ⟨hfiles, by rw [hindex]; exact h.entry⟩
    | ok n =>
      rw [bind_of_ok hx, state_bind]
      refine ⟨rebuild_keeps oneFile_frame n _ σ₁ hfiles, ?_⟩
      have hempty : Derived.Has P p d (Tables.empty.entry d.record.recordId)
          { σ₁ with index := .empty } := ⟨oneFile_frame.index σ₁ _ hfiles, rfl⟩
      have hrun := rebuild_has env hp n hfiles _ hempty
      unfold rebuild transaction
      have htrunc : (inBatch (change truncateDerived) : StoreM Unit) σ₁ =
          (.ok (), { σ₁ with index := .empty }) := rfl
      rw [bind_of_ok htrunc]
      split
      · rename_i heq
        rw [heq] at hrun
        exact hrun.2
      · show σ₁.index.entry _ = _
        rw [hindex]
        exact h.entry

/-! ## Erasures, retention -/

/-- A pass over the files that keeps the document's one file and writes no row. -/
theorem Standing.of_bodies {α : Type} {x : StoreM α} (hfiles : Keeps (OneFile P p d) x)
    (hindex : ∀ i, Keeps (fun τ => τ.index = i) x) : Keeps (Standing P p d E) x := by
  intro σ h
  refine ⟨hfiles σ h.oneFile, ?_⟩
  rw [hindex σ.index σ rfl]
  exact h.entry

theorem Standing.keyed {α : Type} (x : Eff Tree Crypto.Error α) : Keeps (Standing P p d E) (keyed x) :=
  Standing.of_bodies (OneFile.keyed x) fun _ _ h => h

/-- **An erasure leaves a document as a rebuild does**, whoever it erases and however far
    it gets. -/
theorem eraseSubject_standing (hY : P.yaml.Inverts) (hp : Filed P p d) (hplain : isPlain d = true)
    (hrebuild : Keeps (Standing P p d E) (reindexAll P env)) (s : SubjectHash) :
    Keeps (Standing P p d E) (eraseSubject P env s) := by
  have hrows : ∀ i, BodyFrame fun τ => τ.index = i := fun i => ⟨fun _ _ h => h, fun _ _ h => h, fun _ _ h => h⟩
  have hline : ∀ e, Keeps (Standing P p d E) (appendTombstone P e) := fun e =>
    Keeps.change fun σ h => h.of_same rfl rfl rfl rfl rfl
  refine (refuseIfHeld_keeps s).bind fun _ => (affected_keeps s).bind fun records => ?_
  refine (hline _).bind fun _ => (Standing.keyed _).bind fun _ => Keeps.state.bind fun _ => ?_
  refine (Standing.keyed _).bind fun _ => ?_
  refine (Standing.of_bodies (dropBodies_oneFile hY hp hplain s) fun i =>
    dropBodies_keeps (hrows i) s).bind fun _ => ?_
  refine (Standing.of_bodies (sweepQuarantine_oneFile hY hp s) fun i =>
    sweepQuarantine_keeps (hrows i) s).bind fun _ => ?_
  exact hrebuild.bind fun _ => (verifyLive_keeps s).bind fun _ => Keeps.pure _

/-- **A retention pass leaves a document alone.** -/
theorem destroyExpired_standing (keepQuarters : ℕ) (asOfMs : ℤ) :
    Keeps (Standing P p d E) (destroyExpired P keepQuarters asOfMs) := by
  have hsurvey : Keeps (Standing P p d E) (survey P keepQuarters asOfMs) := by
    unfold survey
    dsimp only
    cases (Epoch.containing asOfMs).quartersBefore keepQuarters with
    | none => exact Keeps.fail _
    | some oldestKept =>
      exact standing_keeps.bind fun _ => (Standing.keyed _).bind fun _ => Keeps.pure _
  refine hsurvey.bind fun found => ?_
  exact (Keeps.forM fun c _ => Standing.keyed _).bind fun _ => Keeps.pure _

/-! ## Any later pass -/

/-- A pass that comes later. -/
inductive Later where
  | eraseSubject (s : SubjectHash)
  | destroyExpired (keepQuarters : ℕ) (asOfMs : ℤ)
  | sweep
  | reindexAll

def Later.run (P : Pipeline) (env : Env) : Later → StoreM Unit
  | .eraseSubject s => do
    let _ ← Core.eraseSubject P env s
  | .destroyExpired keepQuarters asOfMs => do
    let _ ← Core.destroyExpired P keepQuarters asOfMs
  | .sweep => do
    let _ ← Core.sweep P env
  | .reindexAll => do
    let _ ← Core.reindexAll P env

/-- The store after passes, each in surroundings of its own; one that fails leaves what
    it did. -/
def Later.runAll (P : Pipeline) : Store → List (Env × Later) → Store
  | σ, [] => σ
  | σ, (env, op) :: ops => Later.runAll P (op.run P env σ).2 ops

/-- What every sweep and every rebuild keeps of a document, every later pass keeps. -/
theorem Later.run_standing (hY : P.yaml.Inverts) (hp : Filed P p d) (hplain : isPlain d = true)
    (hsweep : Keeps (Standing P p d E) (Core.sweep P env))
    (hrebuild : Keeps (Standing P p d E) (Core.reindexAll P env)) (op : Later) :
    Keeps (Standing P p d E) (op.run P env) := by
  cases op with
  | eraseSubject s => exact (eraseSubject_standing hY hp hplain hrebuild s).bind fun _ => Keeps.pure _
  | destroyExpired keepQuarters asOfMs =>
    exact (destroyExpired_standing keepQuarters asOfMs).bind fun _ => Keeps.pure _
  | sweep => exact hsweep.bind fun _ => Keeps.pure _
  | reindexAll => exact hrebuild.bind fun _ => Keeps.pure _

theorem Later.runAll_keeps {I : Store → Prop} (hI : ∀ env (op : Later), Keeps I (op.run P env))
    (h : I σ) (ops : List (Env × Later)) : I (Later.runAll P σ ops) := by
  induction ops generalizing σ with
  | nil => exact h
  | cons a ops ih => exact ih (hI a.1 a.2 σ h)

/-- **No later erasure, retention pass, sweep or rebuild takes the document away.** -/
theorem Sole.later (hY : P.yaml.Inverts) (hp : Filed P p d) (hplain : isPlain d = true)
    {row : RecordRow} (hrow : Publishable (publishInput d) row) (h : Sole P p d σ)
    (ops : List (Env × Later)) : Sole P p d (Later.runAll P σ ops) :=
  Later.runAll_keeps (fun _ op => Later.run_standing hY hp hplain (sweep_sole hp hrow)
    (reindexAll_sole hY hp hplain) op) h ops

/-- Nor its one file, where it has no index entry yet. -/
theorem OneFile.later (hY : P.yaml.Inverts) (hp : Filed P p d) (hplain : isPlain d = true)
    (h : OneFile P p d σ) (ops : List (Env × Later)) : OneFile P p d (Later.runAll P σ ops) :=
  (Later.runAll_keeps (I := Standing P p d fun _ => True) (fun _ op =>
    Later.run_standing hY hp hplain (fun τ hτ => ⟨sweep_oneFile hp τ hτ.oneFile, trivial⟩)
      (fun τ hτ => ⟨reindexAll_oneFile hY hp hplain τ hτ.oneFile, trivial⟩) op) ⟨h, trivial⟩ ops).oneFile

/-! ## Publishing it -/

/-- Nothing in the store goes by an identifier. -/
structure Unused (P : Pipeline) (id : RecordId) (σ : Store) : Prop where
  named : ∀ q ∈ σ.records, extension q = some recordExt → fileStem q ≠ some id.text
  records : ∀ d, FileDoc P σ.records d → d.record.recordId ≠ id
  staging : ∀ d, FileDoc P σ.staging d → d.record.recordId ≠ id
  quarantine : ∀ d, FileDoc P σ.quarantine d → d.record.recordId ≠ id
  cold : ∀ d, ManifestDoc P σ d → d.record.recordId ≠ id
  rows : σ.index.Unknown id

/-- A document renamed into the tree under an unused identifier has its one file. -/
theorem Unused.placed (hp : Filed P p d) (h : Unused P d.record.recordId σ) :
    OneFile P p d (placedIn P env d p σ) := by
  refine ⟨⟨⟨fileBytes P d, env.now⟩, AList.lookup_insert _, rfl⟩, fun q hq hext hstem => ?_,
    fun d' h' => ?_, fun d' h' => h.staging d' h'.unstaged, h.quarantine, h.cold⟩
  · rcases (AList.mem_insert _).1 hq with rfl | hq
    · rfl
    · exact absurd hstem (h.named q hq hext)
  · obtain ⟨q, f, hne, hext, hf, hc⟩ := h'
    have hf' : σ.records.lookup q = some f := by
      rw [← hf]
      exact (AList.lookup_insert_ne hne).symm
    exact h.records d' ⟨q, f, hext, hf', hc⟩

theorem Unused.empty (P : Pipeline) (id : RecordId) : Unused P id emptyStore where
  named q hq := by cases hq
  records d h := by
    obtain ⟨p, f, -, hf, -⟩ := h
    cases hf
  staging d h := by
    obtain ⟨p, f, -, hf, -⟩ := h
    cases hf
  quarantine d h := by
    obtain ⟨p, f, -, hf, -⟩ := h
    cases hf
  cold d h := by
    obtain ⟨q, text, l, r, hread, -⟩ := h
    obtain ⟨f, hf, -⟩ := Tree.readToString_ok.1 hread
    cases hf
  rows := rfl

/-- Accepting a record leaves other identifiers unused. -/
theorem Unused.stored (hY : P.yaml.Inverts) {id : RecordId} (h : Unused P id σ) {r : ActionRecord}
    {body : Text} (hkept : KeptBody r body) (hne : r.recordId ≠ id)
    (hx : (accept P env r body σ).1 = .ok (.stored r.recordId)) :
    Unused P id (accept P env r body σ).2 := by
  have hstep := accept_step P env r body σ
  rw [hx] at hstep
  generalize (accept P env r body σ).2 = σ' at hstep
  cases hstep with
  | stored d st dest σ₁ row ms as_ hkeys hdest hfresh hrow hms =>
    obtain ⟨t, rfl, -⟩ := hkeys
    obtain ⟨dest', hpath, -, -, hdest', hid⟩ := as_.dest
    obtain rfl : dest = dest' := Except.ok.inj (hdest.symm.trans hdest')
    have hd : d.record.recordId ≠ id := by rwa [hid]
    have hback := as_.reads_back hY hkept
    refine ⟨fun q hq hext => ?_, fun d' h' => ?_, fun d' h' => h.staging d' h'.unstaged,
      fun d' h' => h.quarantine d' h'.erase, h.cold, ?_⟩
    · rcases (AList.mem_insert _).1 hq with rfl | hq
      · exact stem_publishedPath_ne (d := ⟨{ d.record with recordId := id }, d.body⟩) hpath hd
      · exact h.named q hq hext
    · rcases h'.insert with hold | hc
      · exact h.records d' hold
      · rw [Carries.unique hc ⟨_, rfl, hback⟩]
        exact hd
    · show (dequeueQuarantine _ (published (publishInput d) row ms σ.index)).entry id = _
      have hqueue := (sameJobs_quarantine (fun rows => rows.filter fun q => q.record ≠ d.record.recordId)
        (published (publishInput d) row ms σ.index)).entry id
      exact (hqueue.trans (entry_published_of_ne (recordRow_ok hrow.row).1 hd)).trans h.rows

/-- **A document indexed under an unused identifier stands alone.** -/
theorem Unused.committed (env : Env) {row : RecordRow} {ms : ℤ} (hp : Filed P p d)
    (h : Unused P d.record.recordId σ) (hrow : Publishable (publishInput d) row)
    (hms : receivedMsOf d.record.recordId (insertRecord row σ.index.records) = some ms) :
    Sole P p d { placedIn P env d p σ with index := published (publishInput d) row ms σ.index } :=
  ⟨oneFile_frame.index _ _ (h.placed hp), entry_of_unknown hrow hms h.rows⟩

theorem Standing.unspooled (h : Standing P p d E σ) (q : Path) :
    Standing P p d E { σ with quarantine := σ.quarantine.erase q } :=
  have ho := h.oneFile
  ⟨⟨ho.file, ho.named, ho.records, ho.staging, fun d' h' => ho.quarantine d' h'.erase, ho.cold⟩, h.entry⟩

theorem Standing.dequeued (h : Standing P p d E σ) (id : RecordId) :
    Standing P p d E { σ with index := dequeueQuarantine id σ.index } :=
  h.of_same rfl rfl rfl rfl ((sameJobs_quarantine _ _).entry _)

/-! ## Reading it -/

/-- Where an identifier is found, a file of its name stands. -/
theorem mem_of_located {t : Tree} {k : Text} {q : Path} (h : (locateRecords t).lookup k = some q) :
    q ∈ t ∧ extension q = some recordExt ∧ fileStem q = some k := by
  have hin : (k, q) ∈ locateRecords t := by
    obtain ⟨before, after, hsplit, -⟩ := List.lookup_eq_some_iff.1 h
    rw [hsplit]
    simp
  rw [locateRecords, List.mem_reverse, List.mem_filterMap] at hin
  obtain ⟨x, hx, hq⟩ := hin
  obtain ⟨stem, hstem, hq⟩ := Option.map_eq_some_iff.1 hq
  obtain ⟨rfl, rfl⟩ := Prod.mk.inj hq
  obtain ⟨hmem, hext⟩ := Tree.mem_walkFiles.1 hx
  exact ⟨hmem, hext, hstem⟩

/-- The one file of an identifier is where it is found. -/
theorem OneFile.located (hp : Filed P p d) (h : OneFile P p d σ) :
    (locateRecords σ.records).lookup d.record.recordId.text = some p := by
  have hmem : p ∈ σ.records.walkFiles recordExt := Tree.mem_walkFiles.2 ⟨h.mem, hp.extension⟩
  cases hl : (locateRecords σ.records).lookup d.record.recordId.text with
  | none =>
    have hin : (d.record.recordId.text, p) ∈ locateRecords σ.records := by
      rw [locateRecords, List.mem_reverse, List.mem_filterMap]
      exact ⟨p, hmem, by rw [hp.stem]; rfl⟩
    exact absurd rfl (bne_iff_ne.1 (List.lookup_eq_none_iff.1 hl _ hin))
  | some q =>
    obtain ⟨hmem, hext, hstem⟩ := mem_of_located hl
    rw [h.named q hmem hext hstem]

/-- **A read of a document with one file answers that its body is prose**, and changes
    nothing. -/
theorem OneFile.inspect (hp : Filed P p d) (h : OneFile P p d σ) {body : Text} (hbody : d.body = .plain body)
    (hclass : d.record.dataClass = .internal) :
    Core.inspect P d.record.recordId σ = (.ok .plain, σ) := by
  obtain ⟨f, hf, hc⟩ := h.file
  have hread : σ.records.readToString p = .ok (Document.render P.yaml d) :=
    Tree.readToString_ok.2 ⟨f, hf, hc⟩
  rw [Core.inspect, state_bind, h.located hp]
  dsimp only
  rw [readFile, bind_assoc, state_bind, hread]
  dsimp only
  rw [pure_bind, liftMd, hp.reads_back]
  simp [Except.mapError, hbody, hclass]

end Yaam.Core
