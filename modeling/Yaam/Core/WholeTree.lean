/-
  A rebuild over whatever the record tree holds (`yaam-core`, `reindex.rs`).

  A rebuild skips a file that does not parse, and fails on one that it cannot read as text or
  whose document the index refuses.

  * `Intact` is a store whose log, manifests and spool are in order;
  * `replayTombstones_fileAt` is what the erasures on record make of one record file, and
    `replayTombstones_total` says that they go through;
  * `rebuild_exactly`: when the transaction of a rebuild goes through, and what it counts;
  * `whole_tree_rebuilds_iff`: a rebuild indexes every file that parses and skips the others
    exactly where every file is text and every document is one the index takes;
  * `one_bad_file_stops_rebuild`: one file that is not text stops it.
-/
import Yaam.Core.HeldBack
import Yaam.Core.Rebuilt
import Yaam.Core.Redriven

namespace Yaam.Core

open Text Contract Crypto Md Eff Index

variable {P : Pipeline} {env : Env} {s : SubjectHash} {p : Path} {d : Document} {σ : Store}

/-! ## Documents the index takes -/

theorem firstRepeated_eq_none {ss : List SubjectHash} : firstRepeated ss = none ↔ ss.Nodup := by
  induction ss with
  | nil => simp [firstRepeated]
  | cons s ss ih =>
    rw [firstRepeated, List.nodup_cons]
    split_ifs with hs
    · simp [hs]
    · simp [hs, ih]

/-- Shares are taken of the named subjects only. -/
theorem firstUnnamed_publishInput (d : Document) : firstUnnamed (publishInput d) = none := by
  have hnamed : ∀ s ∈ (subjectKeys d).map (·.1), d.record.names s := by
    intro s hs
    obtain ⟨k, hk, rfl⟩ := List.mem_map.1 hs
    unfold subjectKeys at hk
    cases hb : d.body with
    | plain t => simp [hb] at hk
    | «sealed» b =>
      simp only [hb, List.mem_map, List.mem_filter, decide_eq_true_eq] at hk
      obtain ⟨share, ⟨-, hname⟩, rfl⟩ := hk
      exact hname
  have hnone : (((publishInput d).subjectKeys.map (·.1)).filter fun s =>
      ¬ (publishInput d).record.names s) = [] := by
    refine List.filter_eq_nil_iff.2 fun s hs => ?_
    exact fun h => of_decide_eq_true h (hnamed s hs)
  rw [firstUnnamed, hnone]
  rfl

/-- **What the index takes**: stamps it reads, no prose where the body should be sealed, and
    no subject keyed twice. -/
theorem indexes_iff (hv : d.record.validate = .ok ()) : Indexes d ↔
    (Indexable d.record.at_ ∧ Indexable d.record.receivedAt) ∧
      (d.record.dataClass = .subjectDerived → d.searchableText = []) ∧
      ((subjectKeys d).map (·.1)).Nodup := by
  have hkeys : checkKeys (publishInput d) = .ok () ↔ ((subjectKeys d).map (·.1)).Nodup := by
    have hinput : (publishInput d).subjectKeys = subjectKeys d := rfl
    rw [← firstRepeated_eq_none, checkKeys, firstUnnamed_publishInput, hinput]
    cases firstRepeated ((subjectKeys d).map (·.1)) with
    | none => simp
    | some s => simp [badInput]
  constructor
  · rintro ⟨row, hrow⟩
    obtain ⟨hstamps, hprose⟩ := (exists_recordRow_iff hv).1 ⟨row, hrow.row⟩
    exact ⟨hstamps, hprose, hkeys.1 hrow.keys⟩
  · rintro ⟨hstamps, hprose, hnodup⟩
    obtain ⟨row, hrow⟩ := (exists_recordRow_iff hv).2 ⟨hstamps, hprose⟩
    exact ⟨row, hprose, hrow, hkeys.2 hnodup⟩

/-- A document of the tree that the index takes once these subjects are erased. -/
structure Fits (ss : List SubjectHash) (d : Document) : Prop where
  stamps : Indexable d.record.at_ ∧ Indexable d.record.receivedAt
  prose : d.record.dataClass = .subjectDerived → d.searchableText = []
  shares : (∃ s ∈ ss, d.record.names s) ∨ ((subjectKeys d).map (·.1)).Nodup

/-- A document once these subjects are erased. -/
def leftOf (ss : List SubjectHash) (d : Document) : Document :=
  if isPlain d = false ∧ ∃ s ∈ ss, d.record.names s then emptied d else d

theorem leftOf_nil (d : Document) : leftOf [] d = d := by
  simp [leftOf]

theorem leftOf_emptied (ss : List SubjectHash) (d : Document) :
    leftOf ss (emptied d) = emptied d := if_neg fun h => by cases h.1

theorem leftOf_cons (s : SubjectHash) (ss : List SubjectHash) (d : Document) :
    leftOf (s :: ss) d = leftOf ss (leftOf [s] d) := by
  by_cases hs : isPlain d = false ∧ d.record.names s
  · have hone : leftOf [s] d = emptied d := if_pos ⟨hs.1, s, by simp, hs.2⟩
    rw [hone, leftOf_emptied, leftOf, if_pos ⟨hs.1, s, by simp, hs.2⟩]
  · have hone : leftOf [s] d = d := if_neg fun h => hs ⟨h.1, by simpa using h.2⟩
    rw [hone, leftOf, leftOf]
    refine if_congr (and_congr_right fun hplain => ?_) rfl rfl
    have hno : ¬ d.record.names s := fun h => hs ⟨hplain, h⟩
    simp [hno]

/-- The index takes what is left of a document exactly when the document fits. -/
theorem indexes_leftOf (hv : d.record.validate = .ok ()) (hv' : d.record.bare.validate = .ok ())
    (ss : List SubjectHash) : Indexes (leftOf ss d) ↔ Fits ss d := by
  by_cases hplain : isPlain d = false
  · by_cases hs : ∃ s ∈ ss, d.record.names s
    · rw [leftOf, if_pos ⟨hplain, hs⟩, indexes_iff (d := emptied d) hv']
      have hprose : d.searchableText = [] := by
        unfold isPlain at hplain
        unfold Document.searchableText
        cases hb : d.body with
        | plain t => simp [hb] at hplain
        | «sealed» b => rfl
      exact ⟨fun h => ⟨h.1, fun _ => hprose, .inl hs⟩, fun h => ⟨h.stamps, fun _ => rfl, .nil⟩⟩
    · rw [leftOf, if_neg fun h => hs h.2, indexes_iff hv]
      exact ⟨fun h => ⟨h.1, h.2.1, .inr h.2.2⟩, fun h => ⟨h.stamps, h.prose, h.shares.resolve_left hs⟩⟩
  · rw [leftOf, if_neg fun h => hplain h.1, indexes_iff hv]
    have hnil : subjectKeys d = [] := by
      unfold isPlain at hplain
      unfold subjectKeys
      cases hb : d.body with
      | plain t => rfl
      | «sealed» b => simp [hb] at hplain
    have hnodup : ((subjectKeys d).map (·.1)).Nodup := by
      rw [hnil]
      exact .nil
    exact ⟨fun h => ⟨h.1, h.2.1, .inr h.2.2⟩, fun h => ⟨h.stamps, h.prose, hnodup⟩⟩

/-! ## One record file under the erasures -/

/-- A record file stands with these bytes. -/
def FileAt (p : Path) (bytes : Bytes) (σ : Store) : Prop :=
  ∃ mtime, σ.records.lookup p = some ⟨bytes, mtime⟩

/-- Bytes that are the text of a document. -/
def Holds (P : Pipeline) (bytes : Bytes) (d : Document) : Prop :=
  ∃ text, bytes = Utf8.encode text ∧ Document.parse P.yaml text = .ok d

/-- A record file's bytes once a subject's bodies are dropped. -/
def droppedFor (P : Pipeline) (s : SubjectHash) (bytes : Bytes) : Bytes :=
  match Utf8.decode bytes with
  | none => bytes
  | some text => match Document.parse P.yaml text with
    | .error _ => bytes
    | .ok d => if d.record.names s ∧ isPlain d = false then fileBytes P (structureOf d) else bytes

variable {bytes : Bytes}

theorem FileAt.read {text : Text} (h : FileAt p bytes σ) (hread : σ.records.readToString p = .ok text) :
    bytes = Utf8.encode text := by
  obtain ⟨m, hm⟩ := h
  obtain ⟨f, hf, hc⟩ := Tree.readToString_ok.1 hread
  obtain rfl := Option.some.inj (hm.symm.trans hf)
  exact hc

theorem droppedFor_of_holds (h : Holds P bytes d) (s : SubjectHash) : droppedFor P s bytes =
    if d.record.names s ∧ isPlain d = false then fileBytes P (structureOf d) else bytes := by
  obtain ⟨text, rfl, hd⟩ := h
  rw [droppedFor, Utf8.decode_encode]
  simp only [hd]

theorem droppedFor_of_not_holds (h : ∀ d, ¬ Holds P bytes d) (s : SubjectHash) :
    droppedFor P s bytes = bytes := by
  unfold droppedFor
  cases ht : Utf8.decode bytes with
  | none => rfl
  | some text =>
    cases hd : Document.parse P.yaml text with
    | error e => simp only [hd]
    | ok d => exact absurd ⟨text, Utf8.decode_eq_some_iff.1 ht, hd⟩ (h d)

/-- What dropping a subject's body does to a file that is not this one. -/
theorem dropBody_fileAt (hp : extension p = some recordExt) {r : Path} (hr : extension r = some recordExt)
    (n : ℕ) : Triple (FileAt p bytes) (dropBody P env s n r)
      (fun _ => FileAt p (if r = p then droppedFor P s bytes else bytes)) Undone := by
  refine readFile_triple.bind fun text => ?_
  have hkept : ∀ σ, FileAt p bytes σ ∧ σ.records.readToString r = .ok text →
      (∀ d, Document.parse P.yaml text = .ok d → ¬ (d.record.names s ∧ isPlain d = false)) →
      FileAt p (if r = p then droppedFor P s bytes else bytes) σ := by
    rintro σ ⟨hσ, hread⟩ hno
    split_ifs with hrp
    · subst hrp
      have hb := hσ.read hread
      have hsame : droppedFor P s bytes = bytes := by
        by_cases hd : ∃ d, Holds P bytes d
        · obtain ⟨d, hd⟩ := hd
          rw [droppedFor_of_holds hd]
          obtain ⟨text', ht, hd⟩ := hd
          obtain rfl := Utf8.encode_inj (ht.symm.trans hb)
          exact if_neg (hno d hd)
        · exact droppedFor_of_not_holds (not_exists.1 hd) s
      rwa [hsame]
    · exact hσ
  cases hd : Document.parse P.yaml text with
  | error e => exact Triple.pure fun σ hσ => hkept σ hσ fun d h => by rw [hd] at h; cases h
  | ok d =>
    dsimp only
    by_cases hn : ¬ d.record.names s ∨ isPlain d
    · rw [if_pos hn]
      refine Triple.pure fun σ hσ => hkept σ hσ fun d' h => ?_
      rw [hd] at h
      obtain rfl := Except.ok.inj h
      rintro ⟨hs, hplain⟩
      rcases hn with hn | hn
      · exact hn hs
      · rw [hplain] at hn
        cases hn
    · rw [if_neg hn]
      push Not at hn
      rintro σ ⟨⟨m, hm⟩, hread⟩
      by_cases hrp : r = p
      · subst hrp
        have hb := FileAt.read ⟨m, hm⟩ hread
        refine ⟨env.now, ?_⟩
        rw [if_pos rfl, droppedFor_of_holds ⟨text, hb, hd⟩, if_pos ⟨hn.1, by simpa using hn.2⟩]
        exact Tree.lookup_replaceAtomically _ _ _ _
      · refine ⟨m, ?_⟩
        rw [if_neg hrp]
        have htemp : p ≠ withExtension r "tmp".toList := by
          rintro rfl
          rw [extension_temporary hr] at hp
          exact absurd (Option.some.inj hp) (by decide)
        exact (Tree.lookup_replaceAtomically_of_ne _ _ _ (Ne.symm hrp) htemp).trans hm

/-- **What dropping a subject's bodies makes of a record file.** -/
theorem dropBodies_fileAt (hp : extension p = some recordExt) :
    Triple (FileAt p bytes) (dropBodies P env s) (fun _ => FileAt p (droppedFor P s bytes)) Undone := by
  refine Triple.state_bind fun τ => Triple.of_state fun σ hσ => ?_
  obtain ⟨hσ, rfl⟩ := hσ
  let I : List Path → Store → Prop := fun rs σ =>
    (rs.Nodup ∧ ∀ q ∈ rs, extension q = some recordExt) ∧
      FileAt p (if p ∈ rs then bytes else droppedFor P s bytes) σ
  have hstep : ∀ (n : ℕ) (r : Path) (rs : List Path),
      Triple (I (r :: rs)) (dropBody P env s n r) (fun _ => I rs) Undone := by
    intro n r rs
    refine Triple.of_state fun σ hσ => ?_
    obtain ⟨⟨hnd, hext⟩, hσ⟩ := hσ
    obtain ⟨hr, hnd⟩ := List.nodup_cons.1 hnd
    refine (dropBody_fileAt hp (hext r (by simp)) n).conseq (fun t ht => ht ▸ hσ) (fun m t ht => ?_)
      fun _ _ h => h
    refine ⟨⟨hnd, fun q hq => hext q (by simp [hq])⟩, ?_⟩
    by_cases hrp : r = p
    · subst hrp
      simpa [hr] using ht
    · simpa [hrp, Ne.symm hrp] using ht
  have hmem : p ∈ σ.records.walkFiles recordExt := by
    obtain ⟨m, hm⟩ := hσ
    exact Tree.mem_walkFiles.2 ⟨Tree.mem_iff_lookup.2 ⟨_, hm⟩, hp⟩
  refine (Triple.foldlM_rest (I := fun _ => I) hstep 0 _).conseq (fun t ht => ?_)
    (fun _ t ht => by simpa using ht.2) fun _ _ h => h
  subst ht
  refine ⟨⟨Tree.nodup_walkFiles _ _, fun q hq => (Tree.mem_walkFiles.1 hq).2⟩, ?_⟩
  rwa [if_pos hmem]

theorem publishStructureOnly_fileAt (held : Document) :
    Keeps (FileAt p bytes) (publishStructureOnly P env held) := by
  refine (Keeps.ofExcept _).bind fun st => ?_
  cases hdest : publishedPath (structureOf held).record st with
  | error err => exact Keeps.fail _
  | ok dest =>
    rw [ofExcept_ok_bind]
    refine Keeps.state_bind fun u hu => ?_
    split_ifs with hmem
    · exact hu
    · simp only [bind_of_ok (stage_apply _ _), bind_of_ok (place_stagedIn hdest _)]
      obtain ⟨m, hm⟩ := hu
      have hne : p ≠ dest := by
        rintro rfl
        exact hmem (Tree.mem_iff_lookup.2 ⟨_, hm⟩)
      exact ⟨m, (AList.lookup_insert_ne hne).trans hm⟩

/-- Settling copies held back writes over no record file. -/
theorem sweepQuarantine_fileAt : Keeps (FileAt p bytes) (sweepQuarantine P env s) := by
  refine Keeps.state.bind fun _ => Keeps.foldlM (fun n r _ => ?_) 0
  refine (readFile_keeps _ _).bind fun text => ?_
  cases Document.parse P.yaml text with
  | error err => exact Keeps.pure _
  | ok d =>
    dsimp only
    split_ifs
    · exact (publishStructureOnly_fileAt d).bind fun _ =>
        Keeps.bind (Keeps.change fun u hu => hu) fun _ => Keeps.pure _
    · exact Keeps.pure _

theorem replayTombstone_fileAt (hp : extension p = some recordExt) {t : Tombstone}
    (ht : SubjectHash.parse t.subject = .ok s) :
    Triple (FileAt p bytes) (replayTombstone P env t) (fun _ => FileAt p (droppedFor P s bytes))
      Undone := by
  have hlift : liftContract (Except.ok s : Except Contract.Error SubjectHash) = .ok s := rfl
  have hkeyed : ∀ x : Eff Tree Crypto.Error Unit, Keeps (FileAt p bytes) (keyed x) := fun _ _ h => h
  have hkeys : ∀ x : Eff Tree Crypto.Error Unit,
      Triple (FileAt p bytes) (keyed x) (fun _ => FileAt p bytes) Undone := fun x =>
    (hkeyed x).triple.conseq (fun _ h => h) (fun _ _ h => h) fun _ _ _ => trivial
  unfold replayTombstone
  rw [ht, hlift, ofExcept_ok_bind]
  refine (hkeys _).bind fun _ => (hkeys _).bind fun _ => (dropBodies_fileAt hp).bind fun _ => ?_
  refine Triple.bind ?_ fun _ => Triple.pure fun _ h => h
  exact sweepQuarantine_fileAt.triple.conseq (fun _ h => h) (fun _ _ h => h) fun _ _ _ => trivial

/-- A record file's bytes once the bodies of subjects are dropped. -/
def droppedForAll (P : Pipeline) (ss : List SubjectHash) (bytes : Bytes) : Bytes :=
  ss.foldl (fun bytes s => droppedFor P s bytes) bytes

theorem forM_replayTombstone_fileAt (hp : extension p = some recordExt) (ts : List Tombstone) :
    Triple (FileAt p bytes) (ts.forM (replayTombstone P env))
      (fun _ => FileAt p (droppedForAll P (subjectsOf ts) bytes)) Undone := by
  induction ts generalizing bytes with
  | nil => exact Triple.pure fun σ hσ => hσ
  | cons t ts ih =>
    show Triple _ (replayTombstone P env t >>= fun _ => ts.forM (replayTombstone P env)) _ _
    cases ht : SubjectHash.parse t.subject with
    | error err =>
      have hfail : ∀ σ, replayTombstone P env t σ = (.error (.invalid err), σ) := by
        intro σ
        unfold replayTombstone
        rw [ht]
        rfl
      intro σ hσ
      rw [bind_of_error (hfail σ)]
      trivial
    | ok s =>
      have hsubjects : subjectsOf (t :: ts) = s :: subjectsOf ts := by
        simp [subjectsOf, ht, Except.toOption]
      rw [hsubjects]
      exact (replayTombstone_fileAt hp ht).bind fun _ => ih

/-- **What the erasures on record make of a record file.** -/
theorem replayTombstones_fileAt (hp : extension p = some recordExt) {σ₁ : Store} {n : ℕ}
    (h : FileAt p bytes σ) (hrun : replayTombstones P env σ = (.ok n, σ₁)) :
    FileAt p (droppedForAll P (erasedAgain P σ.tombstoneLog) bytes) σ₁ := by
  unfold replayTombstones at hrun
  rw [readLog_bind] at hrun
  unfold erasedAgain
  cases hts : LineLog.entries P.tombstoneLine σ.tombstoneLog with
  | error err =>
    rw [hts] at hrun
    cases hrun
  | ok ts =>
    rw [hts] at hrun
    obtain ⟨_, σ₂, hforM, hpure⟩ := bind_eq_ok.1 hrun
    obtain ⟨-, rfl⟩ := pure_eq_ok.1 hpure
    exact (forM_replayTombstone_fileAt hp (firstLines [] ts)).ok h hforM

theorem Holds.valid (h : Holds P bytes d) : d.record.validate = .ok () := by
  obtain ⟨text, -, hd⟩ := h
  exact Document.parse_validate hd

/-- The file of a document without its body. -/
theorem holds_structureOf (hY : P.yaml.Inverts) (hv : d.record.validate = .ok ()) :
    Holds P (fileBytes P (structureOf d)) (emptied d) := by
  refine ⟨Document.render P.yaml (structureOf d), rfl, ?_⟩
  rw [structureOf, parse_render_plain hY hv]
  rfl

/-- A file that holds a document holds what the erasures leave of it. -/
theorem Holds.droppedForAll (hY : P.yaml.Inverts) (h : Holds P bytes d) (ss : List SubjectHash) :
    Holds P (droppedForAll P ss bytes) (leftOf ss d) := by
  induction ss generalizing bytes d with
  | nil => rwa [leftOf_nil]
  | cons s ss ih =>
    rw [leftOf_cons]
    suffices hone : Holds P (droppedFor P s bytes) (leftOf [s] d) from ih hone
    rw [droppedFor_of_holds h, leftOf]
    by_cases hs : d.record.names s ∧ isPlain d = false
    · rw [if_pos hs, if_pos ⟨hs.2, s, by simp, hs.1⟩]
      exact holds_structureOf hY h.valid
    · rw [if_neg hs, if_neg fun hn => hs ⟨by simpa using hn.2, hn.1⟩]
      exact h

theorem droppedForAll_of_not_holds (h : ∀ d, ¬ Holds P bytes d) (ss : List SubjectHash) :
    droppedForAll P ss bytes = bytes := by
  induction ss with
  | nil => rfl
  | cons s ss ih => rwa [droppedForAll, List.foldl_cons, droppedFor_of_not_holds h]

/-! ## The erasures go through -/

/-- Every line of the manifests is a record that the index takes. -/
def Archived (P : Pipeline) (t : Tree) : Prop :=
  ∀ p ∈ t.walkFiles manifestExt, ∃ text, t.readToString p = .ok text ∧
    ∀ l ∈ lines text, trim l ≠ [] → ∃ r, manifestRecord P l = .ok r ∧ Indexes ⟨r, .plain []⟩

/-- **What stands beside the record files is in order**: the erasure log reads and names
    subjects; every manifest line is a record that the index takes; every copy held back is
    text, and has a place and an index row where it lists an erased subject. -/
structure Intact (P : Pipeline) (σ : Store) : Prop where
  log : ∃ ts, LineLog.entries P.tombstoneLine σ.tombstoneLog = .ok ts ∧
    ∀ t ∈ ts, ∃ s, SubjectHash.parse t.subject = .ok s
  manifests : Archived P σ.cold
  spool : ∀ p ∈ σ.quarantine.walkFiles recordExt, ∃ text, σ.quarantine.readToString p = .ok text ∧
    ∀ d, Document.parse P.yaml text = .ok d → ∀ s ∈ erasedAgain P σ.tombstoneLog,
      d.record.names s → (∃ dest, destination d.record = .ok dest) ∧ Indexes (emptied d)

/-- What a replay keeps of the store it began in: the manifests, the copies held back but for
    those it settled, and record files that were there or that the index takes. -/
structure Replaying (P : Pipeline) (σ₀ σ : Store) : Prop where
  cold : σ.cold = σ₀.cold
  spool : ∀ p f, σ.quarantine.lookup p = some f → σ₀.quarantine.lookup p = some f
  fresh : ∀ p f, extension p = some recordExt → σ.records.lookup p = some f →
    p ∈ σ₀.records ∨ ∃ d, Holds P f.content d ∧ isPlain d = true ∧ Indexes d

variable {σ₀ : Store}

theorem Replaying.refl (σ : Store) : Replaying P σ σ :=
  ⟨rfl, fun _ _ h => h, fun _ _ _ h => .inl (Tree.mem_iff_lookup.2 ⟨_, h⟩)⟩

theorem Holds.unique {bytes : Bytes} {d d' : Document} (h : Holds P bytes d) (h' : Holds P bytes d') :
    d = d' := by
  obtain ⟨text, rfl, hd⟩ := h
  obtain ⟨text', ht, hd'⟩ := h'
  obtain rfl := Utf8.encode_inj ht
  exact Except.ok.inj (hd.symm.trans hd')

/-- A record file is no other's temporary. -/
theorem ne_temporary (hp : extension p = some recordExt) {r : Path} (hr : extension r = some recordExt) :
    p ≠ withExtension r "tmp".toList := by
  rintro rfl
  rw [extension_temporary hr] at hp
  exact absurd (Option.some.inj hp) (by decide)

theorem dropBody_replaying (n : ℕ) {r : Path} (hr : extension r = some recordExt) :
    Keeps (Replaying P σ₀) (dropBody P env s n r) := by
  refine keeps_readFile_bind fun σ text hσ hread => ?_
  cases hd : Document.parse P.yaml text with
  | error e => exact hσ
  | ok d =>
    dsimp only
    split_ifs with hn
    · exact hσ
    · refine ⟨hσ.cold, hσ.spool, fun p f hp hf => ?_⟩
      by_cases hpr : p = r
      · subst hpr
        obtain ⟨g, hg, hc⟩ := Tree.readToString_ok.1 hread
        refine (hσ.fresh p g hr hg).imp_right ?_
        rintro ⟨d', hd', hplain, -⟩
        obtain rfl := Holds.unique ⟨text, hc, hd⟩ hd'
        exact absurd (.inr hplain) hn
      · refine hσ.fresh p f hp ?_
        rwa [← Tree.lookup_replaceAtomically_of_ne _ _ _ hpr (ne_temporary hp hr)]

theorem publishStructureOnly_apply (hdest : destination d.record = .ok p) (σ : Store) :
    publishStructureOnly P env d σ =
      (.ok (), if p ∈ σ.records then σ else placedIn P env (structureOf d) p σ) := by
  obtain ⟨st, hst, hpath⟩ := Contract.bind_ok.1 hdest
  have hst' : stampOf (structureOf d).record = .ok st := hst
  have hpath' : publishedPath (structureOf d).record st = .ok p := hpath
  rw [publishStructureOnly]
  simp only [hst', ofExcept_ok_bind, hpath', state_bind]
  split_ifs
  · rfl
  · rw [bind_of_ok (stage_apply _ _), bind_of_ok (place_stagedIn hpath' _)]
    rfl

theorem placedIn_replaying (hY : P.yaml.Inverts) (hv : d.record.validate = .ok ())
    (htakes : Indexes (emptied d)) (hσ : Replaying P σ₀ σ) :
    Replaying P σ₀ (placedIn P env (structureOf d) p σ) := by
  refine ⟨hσ.cold, hσ.spool, fun q f hq hf => ?_⟩
  replace hf : (σ.records.insert p ⟨fileBytes P (structureOf d), env.now⟩).lookup q = some f := hf
  by_cases hqp : q = p
  · subst hqp
    rw [AList.lookup_insert] at hf
    obtain rfl := Option.some.inj hf
    exact .inr ⟨emptied d, holds_structureOf hY hv, rfl, htakes⟩
  · rw [AList.lookup_insert_ne hqp] at hf
    exact hσ.fresh q f hq hf

theorem Replaying.erase_held (hσ : Replaying P σ₀ σ) (p : Path) :
    Replaying P σ₀ { σ with quarantine := σ.quarantine.erase p } := by
  refine ⟨hσ.cold, fun q f hf => hσ.spool q f ?_, hσ.fresh⟩
  by_cases hqp : q = p
  · subst hqp
    rw [show ({ σ with quarantine := σ.quarantine.erase q } : Store).quarantine.lookup q = none from
      AList.lookup_erase _ _] at hf
    cases hf
  · exact (AList.lookup_erase_ne hqp).symm.trans hf

/-- What is read of a copy held back is in order. -/
theorem Intact.held (h : Intact P σ₀) (hσ : Replaying P σ₀ σ) (hp : extension p = some recordExt)
    {f : File} (hf : σ.quarantine.lookup p = some f) :
    ∃ text, σ.quarantine.readToString p = .ok text ∧
      ∀ d, Document.parse P.yaml text = .ok d → ∀ s ∈ erasedAgain P σ₀.tombstoneLog,
        d.record.names s → (∃ dest, destination d.record = .ok dest) ∧ Indexes (emptied d) := by
  have hf₀ := hσ.spool p f hf
  have hmem : p ∈ σ₀.quarantine.walkFiles recordExt :=
    Tree.mem_walkFiles.2 ⟨Tree.mem_iff_lookup.2 ⟨f, hf₀⟩, hp⟩
  obtain ⟨text, htext, hheld⟩ := h.spool p hmem
  exact ⟨text, (Tree.readToString_congr (hf.trans hf₀.symm)).trans htext, hheld⟩

/-- A store in which a replay goes through: its record files are text. -/
structure Ready (P : Pipeline) (σ₀ σ : Store) : Prop extends Replaying P σ₀ σ where
  readable : ∀ p f, extension p = some recordExt → σ.records.lookup p = some f →
    ∃ text, f.content = Utf8.encode text

/-- Nothing fails. -/
def Never : Error → Store → Prop := fun _ _ => False

theorem dropBody_total (n : ℕ) (r : Path) (rs : List Path) :
    Triple (fun σ => Ready P σ₀ σ ∧ ∀ q ∈ r :: rs, extension q = some recordExt ∧ q ∈ σ.records)
      (dropBody P env s n r)
      (fun _ σ => Ready P σ₀ σ ∧ ∀ q ∈ rs, extension q = some recordExt ∧ q ∈ σ.records) Never := by
  rintro σ ⟨hσ, hrest⟩
  obtain ⟨hr, hmem⟩ := hrest r List.mem_cons_self
  obtain ⟨f, hf⟩ := Tree.mem_iff_lookup.1 hmem
  obtain ⟨text, hc⟩ := hσ.readable r f hr hf
  have hrs : ∀ q ∈ rs, extension q = some recordExt ∧ q ∈ σ.records := fun q hq =>
    hrest q (List.mem_cons_of_mem _ hq)
  have hreplaying : Replaying P σ₀ (dropBody P env s n r σ).2 :=
    dropBody_replaying n hr σ hσ.toReplaying
  have hread : readFile Store.records r σ = (.ok text, σ) :=
    readFile_ok (Tree.readToString_ok.2 ⟨f, hf, hc⟩)
  rw [dropBody, bind_of_ok hread] at hreplaying ⊢
  cases hd : Document.parse P.yaml text with
  | error e => exact ⟨hσ, hrs⟩
  | ok d =>
    simp only [hd] at hreplaying ⊢
    split_ifs at hreplaying ⊢
    · exact ⟨hσ, hrs⟩
    · refine ⟨⟨hreplaying, fun p g hp hg => ?_⟩, fun q hq => ⟨(hrs q hq).1, ?_⟩⟩
      · by_cases hpr : p = r
        · subst hpr
          have hg' := (Tree.lookup_replaceAtomically σ.records p _ _).symm.trans hg
          obtain rfl := Option.some.inj hg'
          exact ⟨_, rfl⟩
        · refine hσ.readable p g hp ?_
          exact (Tree.lookup_replaceAtomically_of_ne _ _ _ hpr (ne_temporary hp hr)).symm.trans hg
      · obtain ⟨hq', hqm⟩ := hrs q hq
        by_cases hqr : q = r
        · subst hqr
          exact Tree.mem_iff_lookup.2 ⟨_, Tree.lookup_replaceAtomically _ _ _ _⟩
        · obtain ⟨g, hg⟩ := Tree.mem_iff_lookup.1 hqm
          exact Tree.mem_iff_lookup.2 ⟨g,
            (Tree.lookup_replaceAtomically_of_ne _ _ _ hqr (ne_temporary hq' hr)).trans hg⟩

theorem dropBodies_total : Triple (Ready P σ₀) (dropBodies P env s) (fun _ => Ready P σ₀) Never := by
  refine Triple.state_bind fun τ => Triple.of_state fun σ hσ => ?_
  obtain ⟨hσ, rfl⟩ := hσ
  refine (Triple.foldlM_rest (I := fun _ rs σ => Ready P σ₀ σ ∧
    ∀ q ∈ rs, extension q = some recordExt ∧ q ∈ σ.records) dropBody_total 0 _).conseq
    (fun t ht => ?_) (fun _ _ ht => ht.1) fun _ _ h => h
  subst ht
  exact ⟨hσ, fun q hq => (Tree.mem_walkFiles.1 hq).symm⟩

theorem settleHeld_total (hY : P.yaml.Inverts) (h : Intact P σ₀)
    (hs : s ∈ erasedAgain P σ₀.tombstoneLog) (n : ℕ) (r : Path) (rs : List Path) :
    Triple (fun σ => Ready P σ₀ σ ∧ (r :: rs).Nodup ∧
        ∀ q ∈ r :: rs, extension q = some recordExt ∧ q ∈ σ.quarantine)
      (settleHeld P env s n r)
      (fun _ σ => Ready P σ₀ σ ∧ rs.Nodup ∧
        ∀ q ∈ rs, extension q = some recordExt ∧ q ∈ σ.quarantine) Never := by
  rintro σ ⟨hσ, hnd, hrest⟩
  obtain ⟨hnot, hnd⟩ := List.nodup_cons.1 hnd
  obtain ⟨hr, hmem⟩ := hrest r List.mem_cons_self
  obtain ⟨f, hf⟩ := Tree.mem_iff_lookup.1 hmem
  have hrs : ∀ q ∈ rs, extension q = some recordExt ∧ q ∈ σ.quarantine := fun q hq =>
    hrest q (List.mem_cons_of_mem _ hq)
  obtain ⟨text, htext, hheld⟩ := h.held hσ.toReplaying hr hf
  rw [settleHeld, bind_of_ok (readFile_ok htext)]
  cases hd : Document.parse P.yaml text with
  | error e => exact ⟨hσ, hnd, hrs⟩
  | ok d =>
    dsimp only
    split_ifs with hn
    · obtain ⟨⟨dest, hdest⟩, htakes⟩ := hheld d hd s hs hn
      rw [bind_of_ok (publishStructureOnly_apply hdest σ), change_bind]
      have hplaced : Ready P σ₀ (if dest ∈ σ.records then σ else
          placedIn P env (structureOf d) dest σ) := by
        split_ifs
        · exact hσ
        · refine ⟨placedIn_replaying hY (Document.parse_validate hd) htakes hσ.toReplaying,
            fun p g hp hg => ?_⟩
          replace hg : (σ.records.insert dest ⟨fileBytes P (structureOf d), env.now⟩).lookup p =
            some g := hg
          by_cases hpd : p = dest
          · subst hpd
            rw [AList.lookup_insert] at hg
            obtain rfl := Option.some.inj hg
            exact ⟨_, rfl⟩
          · rw [AList.lookup_insert_ne hpd] at hg
            exact hσ.readable p g hp hg
      have hspool : (if dest ∈ σ.records then σ else
          placedIn P env (structureOf d) dest σ).quarantine = σ.quarantine := by
        split_ifs <;> rfl
      refine ⟨⟨hplaced.toReplaying.erase_held r, hplaced.readable⟩, hnd, fun q hq => ⟨(hrs q hq).1, ?_⟩⟩
      show q ∈ (Store.quarantine _).erase r
      rw [hspool]
      exact AList.mem_erase.2 ⟨fun hqr => hnot (hqr ▸ hq), (hrs q hq).2⟩
    · exact ⟨hσ, hnd, hrs⟩

theorem sweepQuarantine_total (hY : P.yaml.Inverts) (h : Intact P σ₀)
    (hs : s ∈ erasedAgain P σ₀.tombstoneLog) :
    Triple (Ready P σ₀) (sweepQuarantine P env s) (fun _ => Ready P σ₀) Never := by
  refine Triple.state_bind fun τ => Triple.of_state fun σ hσ => ?_
  obtain ⟨hσ, rfl⟩ := hσ
  refine (Triple.foldlM_rest (I := fun _ rs σ => Ready P σ₀ σ ∧ rs.Nodup ∧
    ∀ q ∈ rs, extension q = some recordExt ∧ q ∈ σ.quarantine) (settleHeld_total hY h hs) 0 _).conseq
    (fun t ht => ?_) (fun _ _ ht => ht.1) fun _ _ h => h
  subst ht
  exact ⟨hσ, Tree.nodup_walkFiles _ _, fun q hq => (Tree.mem_walkFiles.1 hq).symm⟩

theorem replayTombstone_total (hY : P.yaml.Inverts) (h : Intact P σ₀)
    (hs : s ∈ erasedAgain P σ₀.tombstoneLog) {t : Tombstone}
    (ht : SubjectHash.parse t.subject = .ok s) :
    Triple (Ready P σ₀) (replayTombstone P env t) (fun _ => Ready P σ₀) Never := by
  have hlift : liftContract (Except.ok s : Except Contract.Error SubjectHash) = .ok s := rfl
  have hmark : Triple (Ready P σ₀) (keyed ((P.keys env).tombstone s)) (fun _ => Ready P σ₀) Never :=
    fun _ hσ => ⟨⟨hσ.cold, hσ.spool, hσ.fresh⟩, hσ.readable⟩
  have hdestroy : Triple (Ready P σ₀) (keyed (destroySubject s)) (fun _ => Ready P σ₀) Never :=
    fun _ hσ => ⟨⟨hσ.cold, hσ.spool, hσ.fresh⟩, hσ.readable⟩
  unfold replayTombstone
  rw [ht, hlift, ofExcept_ok_bind]
  exact hmark.bind fun _ => hdestroy.bind fun _ => dropBodies_total.bind fun _ =>
    (sweepQuarantine_total hY h hs).bind fun _ => Triple.pure fun _ hσ => hσ

/-- **Over record files that are text, the erasures on record go through.** -/
theorem replayTombstones_total (env : Env) (hY : P.yaml.Inverts) (h : Intact P σ)
    (hread : ∀ p f, extension p = some recordExt → σ.records.lookup p = some f →
      ∃ text, f.content = Utf8.encode text) :
    ∃ n σ₁, replayTombstones P env σ = (.ok n, σ₁) ∧ Replaying P σ σ₁ := by
  obtain ⟨ts, hts, hparse⟩ := h.log
  have hrun : Triple (Ready P σ) ((firstLines [] ts).forM (replayTombstone P env))
      (fun _ => Ready P σ) Never := by
    refine Triple.forM fun t ht => ?_
    obtain ⟨s, hs⟩ := hparse t (firstLines_subset [] ts t ht)
    refine replayTombstone_total hY h ?_ hs
    rw [erasedAgain, hts]
    exact List.mem_filterMap.2 ⟨t, ht, by rw [hs]; rfl⟩
  have hready := hrun σ ⟨Replaying.refl σ, hread⟩
  unfold replayTombstones
  rw [readLog_bind, hts]
  dsimp only
  cases hx : (firstLines [] ts).forM (replayTombstone P env) σ with
  | mk r σ₁ =>
    rw [hx] at hready
    cases r with
    | error e => exact hready.elim
    | ok u => exact ⟨_, σ₁, bind_of_ok hx _, hready.toReplaying⟩

/-! ## The transaction -/

/-- A record file is text, and a document it parses to is one the index takes. -/
def Sound (P : Pipeline) (t : Tree) (p : Path) : Prop :=
  ∃ text, t.readToString p = .ok text ∧ ∀ d, Document.parse P.yaml text = .ok d → Indexes d

/-- Whether a record file parses. -/
def parses (P : Pipeline) (t : Tree) (p : Path) : Bool :=
  match t.readToString p with
  | .ok text => (Document.parse P.yaml text).isOk
  | .error _ => false

/-- The index has a row under the identifier of a record file's document. -/
def Indexed (P : Pipeline) (t : Tree) (i : Tables) (p : Path) : Prop :=
  ∀ text d, t.readToString p = .ok text → Document.parse P.yaml text = .ok d →
    i.has d.record.recordId.text = true

/-- A publish inside the transaction goes through exactly when it can, and adds one row. -/
theorem inBatch_publish (inp : PublishInput) (σ : Store) :
    Triple (fun s => s = σ) (inBatch (publish inp))
      (fun _ s => (∃ row, Publishable inp row) ∧ ∃ i, s = { σ with index := i } ∧
        ∀ id, i.has id = true ↔ inp.record.recordId.text = id ∨ σ.index.has id = true)
      (fun _ _ => ¬ ∃ row, Publishable inp row) := by
  refine Triple.of_cases (fun s s' u hs hx => ?_) (fun s s' e hs hx => ?_)
  · subst hs
    obtain ⟨i, hi, rfl⟩ := zoom_eq_ok.1 hx
    obtain ⟨row, ms, hrow, -, rfl⟩ := publish_eq_ok.1 (mapError_eq_ok.1 hi)
    exact ⟨⟨row, hrow⟩, _, rfl, has_published (recordRow_ok hrow.row).1⟩
  · subst hs
    rintro ⟨row, hrow⟩
    obtain ⟨i, hi, -⟩ := zoom_eq_error.1 hx
    obtain ⟨e', he, -⟩ := mapError_eq_error.1 hi
    obtain ⟨ms, hms⟩ := receivedMsOf_insertRecord row s.index.records
    rw [(recordRow_ok hrow.row).1] at hms
    rw [publish_eq_ok.2 ⟨row, ms, hrow, hms, rfl⟩] at he
    cases he

/-- Where the pass over the record files is: what it went through is sound and has rows, and
    the counts are right with what is left. -/
structure Indexing (P : Pipeline) (σ : Store) (paths : List Path) (n : ℕ × ℕ) (rest : List Path)
    (s : Store) : Prop where
  records : s.records = σ.records
  cold : s.cold = σ.cold
  quarantine : s.quarantine = σ.quarantine
  left : ∀ p ∈ rest, p ∈ paths
  done : ∀ p ∈ paths, p ∈ rest ∨ Sound P σ.records p ∧ Indexed P σ.records s.index p
  indexed : n.1 + (rest.filter (parses P σ.records)).length =
    (paths.filter (parses P σ.records)).length
  skipped : n.2 + (rest.filter fun p => !parses P σ.records p).length =
    (paths.filter fun p => !parses P σ.records p).length

variable {paths : List Path}

theorem indexFile_exactly (n : ℕ × ℕ) (p : Path) (rest : List Path) :
    Triple (Indexing P σ paths n (p :: rest)) (indexFile P n p) (fun m => Indexing P σ paths m rest)
      (fun _ _ => ¬ ∀ q ∈ paths, Sound P σ.records q) := by
  intro s hs
  have hleft : ∀ q ∈ rest, q ∈ paths := fun q hq => hs.left q (List.mem_cons_of_mem _ hq)
  have hdone : ∀ q ∈ paths, q = p ∨ q ∈ rest ∨
      Sound P σ.records q ∧ Indexed P σ.records s.index q := fun q hq =>
    (hs.done q hq).elim (fun h => (List.mem_cons.1 h).imp_right .inl) fun h => .inr (.inr h)
  have hindexed := hs.indexed
  have hskipped := hs.skipped
  cases hread : s.records.readToString p with
  | error e =>
    have hfail : readFile Store.records p s = (.error (.io e), s) := by
      rw [readFile, state_bind, hread]
      rfl
    rw [indexFile, bind_of_error hfail]
    intro hall
    obtain ⟨text, htext, -⟩ := hall p (hs.left p List.mem_cons_self)
    rw [hs.records, htext] at hread
    cases hread
  | ok text =>
    have hread' : σ.records.readToString p = .ok text := hs.records ▸ hread
    rw [indexFile, bind_of_ok (readFile_ok hread)]
    cases hd : Document.parse P.yaml text with
    | error e =>
      have hno : parses P σ.records p = false := by
        rw [parses, hread']
        simp only [hd, Except.isOk, Except.toBool]
      refine ⟨hs.records, hs.cold, hs.quarantine, hleft, fun q hq => ?_, ?_, ?_⟩
      · rcases hdone q hq with rfl | hq
        · refine .inr ⟨⟨text, hread', fun d h => ?_⟩, fun text' d ht h => ?_⟩
          · rw [hd] at h
            cases h
          · rw [hread'] at ht
            obtain rfl := Except.ok.inj ht
            rw [hd] at h
            cases h
        · exact hq
      · simpa [hno] using hindexed
      · simp only [List.filter_cons, hno, Bool.not_false, if_true, List.length_cons] at hskipped
        show n.2 + 1 + _ = _
        omega
    | ok d =>
      have hyes : parses P σ.records p = true := by
        rw [parses, hread']
        simp only [hd, Except.isOk, Except.toBool]
      have hpub : Triple (fun t => t = s) (inBatch (publishDocument d))
          (fun _ t => Indexes d ∧ ∃ i, t = { s with index := i } ∧
            ∀ id, i.has id = true ↔ d.record.recordId.text = id ∨ s.index.has id = true)
          (fun _ _ => ¬ ∀ q ∈ paths, Sound P σ.records q) := by
        refine (inBatch_publish (publishInput d) s).conseq (fun _ h => h) (fun _ _ h => h) ?_
        intro _ _ hno hall
        obtain ⟨text', htext', htakes⟩ := hall p (hs.left p List.mem_cons_self)
        rw [hread'] at htext'
        obtain rfl := Except.ok.inj htext'
        exact hno (htakes d hd)
      dsimp only
      refine (hpub.bind fun _ => Triple.pure ?_) s rfl
      rintro _ ⟨htakes, i, rfl, hhas⟩
      refine ⟨hs.records, hs.cold, hs.quarantine, hleft, fun q hq => ?_, ?_, ?_⟩
      · have hrow : i.has d.record.recordId.text = true := (hhas _).2 (.inl rfl)
        rcases hdone q hq with rfl | hq | ⟨hsound, hq⟩
        · refine .inr ⟨⟨text, hread', fun d' h => ?_⟩, fun text' d' ht h => ?_⟩
          · rw [hd] at h
            obtain rfl := Except.ok.inj h
            exact htakes
          · rw [hread'] at ht
            obtain rfl := Except.ok.inj ht
            rw [hd] at h
            obtain rfl := Except.ok.inj h
            exact hrow
        · exact .inl hq
        · exact .inr ⟨hsound, fun text' d' ht h => (hhas _).2 (.inr (hq text' d' ht h))⟩
      · simp only [List.filter_cons, hyes, if_true, List.length_cons] at hindexed
        show n.1 + 1 + _ = _
        omega
      · simpa [hyes] using hskipped

/-- **The pass over the record files**: it ends exactly where every one is sound. -/
theorem indexTree_exactly (paths : List Path) {s : Store} (hrecords : s.records = σ.records)
    (hcold : s.cold = σ.cold) (hquarantine : s.quarantine = σ.quarantine) :
    Triple (fun t => t = s) (paths.foldlM (indexFile P) (0, 0))
      (fun n t => Indexing P σ paths n [] t) (fun _ _ => ¬ ∀ q ∈ paths, Sound P σ.records q) := by
  refine (Triple.foldlM_rest (I := fun n rest t => Indexing P σ paths n rest t) indexFile_exactly
    (0, 0) paths).before fun t ht => ?_
  subst ht
  exact ⟨hrecords, hcold, hquarantine, fun p hp => hp, fun p hp => .inl hp, Nat.zero_add _,
    Nat.zero_add _⟩

/-- The store once the record files are indexed. -/
structure TreeIndexed (P : Pipeline) (σ : Store) (paths : List Path) (s : Store) : Prop where
  records : s.records = σ.records
  cold : s.cold = σ.cold
  quarantine : s.quarantine = σ.quarantine
  rows : ∀ p ∈ paths, Indexed P σ.records s.index p

theorem indexLine_total (n : ℕ × ℕ) {l : Text} {r : ActionRecord} (hr : manifestRecord P l = .ok r)
    (htakes : Indexes ⟨r, .plain []⟩) :
    Triple (TreeIndexed P σ paths) (indexLine P n l)
      (fun m s => TreeIndexed P σ paths s ∧ m.2 = n.2) Never := by
  refine Triple.of_state fun s hs => ?_
  rw [indexLine, hr]
  refine Triple.bind ((inBatch_publish ⟨r, [], []⟩ s).conseq (fun _ h => h) (fun _ _ h => h.2)
    fun _ _ hno => hno htakes) fun _ => Triple.pure ?_
  rintro _ ⟨i, rfl, hhas⟩
  exact ⟨⟨hs.records, hs.cold, hs.quarantine, fun p hp text d ht hd =>
    (hhas _).2 (.inr (hs.rows p hp text d ht hd))⟩, rfl⟩

/-- **Manifests in order go through**, and none of their lines is skipped. -/
theorem indexManifests_total (h : Archived P σ.cold) :
    Triple (TreeIndexed P σ paths)
      ((σ.cold.walkFiles manifestExt).foldlM (indexManifest P) (0, 0))
      (fun m s => TreeIndexed P σ paths s ∧ m.2 = 0) Never := by
  refine (Triple.foldlM_rest (I := fun n rest s => (TreeIndexed P σ paths s ∧ n.2 = 0) ∧
    ∀ p ∈ rest, p ∈ σ.cold.walkFiles manifestExt) ?_ (0, 0) _).conseq
    (fun s hs => ⟨⟨hs, rfl⟩, fun p hp => hp⟩) (fun _ _ hs => hs.1) fun _ _ h => h
  intro n p rest
  refine Triple.of_state fun s hs => ?_
  obtain ⟨⟨hs, hn⟩, hrest⟩ := hs
  obtain ⟨text, htext, hlines⟩ := h p (hrest p List.mem_cons_self)
  have hread : readFile Store.cold p s = (.ok text, s) :=
    readFile_ok (by rw [hs.cold]; exact htext)
  have hrest' : ∀ q ∈ rest, q ∈ σ.cold.walkFiles manifestExt := fun q hq =>
    hrest q (List.mem_cons_of_mem _ hq)
  intro t ht
  subst ht
  rw [indexManifest, bind_of_ok hread]
  refine ((Triple.foldlM_rest (I := fun m ls s => (TreeIndexed P σ paths s ∧ m.2 = 0) ∧
    ∀ l ∈ ls, l ∈ lines text ∧ trim l ≠ []) ?_ n _).conseq
    (fun t ht => ⟨ht, fun l hl => by simpa using List.mem_filter.1 hl⟩) (fun _ _ ht => ⟨ht.1, hrest'⟩)
    fun _ _ h => h) t ⟨hs, hn⟩
  intro m l ls
  refine Triple.of_state fun t ht => ?_
  obtain ⟨⟨ht, hm⟩, hls⟩ := ht
  obtain ⟨hl, htrim⟩ := hls l List.mem_cons_self
  obtain ⟨r, hr, htakes⟩ := hlines l hl htrim
  refine (indexLine_total m hr htakes).conseq (fun u hu => hu ▸ ht) (fun k u hu => ?_) fun _ _ h => h
  exact ⟨⟨hu.1, hu.2.trans hm⟩, fun q hq => hls q (List.mem_cons_of_mem _ hq)⟩

/-- **Copies held back that are text are registered again.** -/
theorem reregister_total (env : Env)
    (h : ∀ p ∈ σ.quarantine.walkFiles recordExt, ∃ text, σ.quarantine.readToString p = .ok text) :
    Triple (TreeIndexed P σ paths)
      (forM (σ.quarantine.walkFiles recordExt) (reregisterFile P env))
      (fun _ => TreeIndexed P σ paths) Never := by
  refine Triple.forM fun p hp => ?_
  intro s hs
  obtain ⟨text, htext⟩ := h p hp
  obtain ⟨i, hrun, hi⟩ := reregisterFile_apply P env (hs.quarantine ▸ htext)
  rw [hrun]
  refine ⟨hs.records, hs.cold, hs.quarantine, fun q hq text' d ht hd => ?_⟩
  have hrow := hs.rows q hq text' d ht hd
  rwa [Tables.has, ← hi.records] at hrow

/-- **Over sound record files a rebuild's transaction goes through**: it indexes the files that
    parse and counts the others. -/
theorem rebuild_total (env : Env) (h : Archived P σ.cold)
    (hspool : ∀ p ∈ σ.quarantine.walkFiles recordExt, ∃ text, σ.quarantine.readToString p = .ok text)
    (hsound : ∀ p ∈ σ.records.walkFiles recordExt, Sound P σ.records p) (replayed : ℕ) :
    ∃ rep σ', rebuild P env replayed (Sources.list P σ) σ = (.ok rep, σ') ∧
      σ'.records = σ.records ∧
      rep.fromTree = ((σ.records.walkFiles recordExt).filter (parses P σ.records)).length ∧
      rep.skipped = ((σ.records.walkFiles recordExt).filter fun p => !parses P σ.records p).length ∧
      ∀ p ∈ σ.records.walkFiles recordExt, Indexed P σ.records σ'.index p := by
  let tree := (Sources.list P σ).tree
  have hperm : tree.Perm (σ.records.walkFiles recordExt) := List.perm_insertionSort _ _
  let emptied : Store := { σ with index := .empty, entities := ∅ }
  have htree := indexTree_exactly (P := P) (σ := σ) (s := emptied) tree rfl rfl rfl emptied rfl
  cases hx : tree.foldlM (indexFile P) (0, 0) emptied with
  | mk res s₁ =>
  rw [hx] at htree
  cases res with
  | error e => exact absurd (fun p hp => hsound p (hperm.mem_iff.1 hp)) htree
  | ok n =>
  have hindexed : TreeIndexed P σ tree s₁ := ⟨htree.records, htree.cold, htree.quarantine,
    fun p hp => ((htree.done p hp).resolve_left List.not_mem_nil).2⟩
  have hman := indexManifests_total h s₁ hindexed
  cases hy : (σ.cold.walkFiles manifestExt).foldlM (indexManifest P) (0, 0) s₁ with
  | mk res s₂ =>
  rw [hy] at hman
  cases res with
  | error e => exact hman.elim
  | ok m =>
  have hreg := reregister_total env hspool s₂ hman.1
  cases hz : forM (σ.quarantine.walkFiles recordExt) (reregisterFile P env) s₂ with
  | mk res s₃ =>
  rw [hz] at hreg
  cases res with
  | error e => exact hreg.elim
  | ok u =>
  have hdrop : dropTimelines { σ with index := .empty } =
      (.ok (σ.entities.walkFiles recordExt).length, emptied) := rfl
  have htrunc : (inBatch (change truncateDerived) : StoreM Unit) σ =
      (.ok (), { σ with index := .empty }) := rfl
  refine ⟨⟨n.1, m.1, n.2 + m.2, replayed, (σ.entities.walkFiles recordExt).length⟩, s₃, ?_,
    hreg.records, ?_, ?_, fun p hp => hreg.rows p (hperm.mem_iff.2 hp)⟩
  · rw [rebuild, transaction, bind_of_ok htrunc, bind_of_ok hdrop, bind_of_ok hx]
    rw [show (Sources.list P σ).manifests = σ.cold.walkFiles manifestExt from rfl, bind_of_ok hy]
    rw [show (Sources.list P σ).quarantine = σ.quarantine.walkFiles recordExt from rfl, bind_of_ok hz]
    rfl
  · show n.1 = _
    rw [← (hperm.filter _).length_eq, ← htree.indexed]
    rfl
  · show n.2 + m.2 = _
    rw [hman.2, ← (hperm.filter _).length_eq, ← htree.skipped]
    rfl

/-- Where a rebuild's transaction goes through, every record file is sound. -/
theorem sound_of_rebuild {replayed : ℕ} {rep : ReindexReport} {σ' : Store}
    (h : rebuild P env replayed (Sources.list P σ) σ = (.ok rep, σ')) :
    ∀ p ∈ σ.records.walkFiles recordExt, Sound P σ.records p := by
  let tree := (Sources.list P σ).tree
  have hperm : tree.Perm (σ.records.walkFiles recordExt) := List.perm_insertionSort _ _
  let emptied : Store := { σ with index := .empty, entities := ∅ }
  have htree := indexTree_exactly (P := P) (σ := σ) (s := emptied) tree rfl rfl rfl emptied rfl
  have hdrop : dropTimelines { σ with index := .empty } =
      (.ok (σ.entities.walkFiles recordExt).length, emptied) := rfl
  have htrunc : (inBatch (change truncateDerived) : StoreM Unit) σ =
      (.ok (), { σ with index := .empty }) := rfl
  rw [rebuild, transaction, bind_of_ok htrunc, bind_of_ok hdrop] at h
  cases hx : tree.foldlM (indexFile P) (0, 0) emptied with
  | mk res s₁ =>
  rw [hx] at htree
  cases res with
  | error e =>
    rw [bind_of_error hx] at h
    cases h
  | ok n =>
    exact fun p hp => ((htree.done p (hperm.mem_iff.2 hp)).resolve_left List.not_mem_nil).1

/-! ## The rebuild -/

/-- **The rebuild goes through**: it indexes every record file that parses, and counts every
    other one as skipped. -/
def Rebuilds (P : Pipeline) (env : Env) (σ : Store) : Prop :=
  ∃ rep σ', reindexAll P env σ = (.ok rep, σ') ∧
    rep.fromTree = ((σ'.records.walkFiles recordExt).filter (parses P σ'.records)).length ∧
    rep.skipped = ((σ.records.walkFiles recordExt).filter fun p => !parses P σ.records p).length ∧
    ∀ p ∈ σ.records.walkFiles recordExt, Indexed P σ.records σ'.index p

/-- **Every record file is text, and every document one the index takes** once the bodies of
    the subjects erased on record are dropped. -/
def TreeFits (P : Pipeline) (σ : Store) : Prop :=
  ∀ p ∈ σ.records.walkFiles recordExt, ∃ text, σ.records.readToString p = .ok text ∧
    ∀ d, Document.parse P.yaml text = .ok d → Fits (erasedAgain P σ.tombstoneLog) d

theorem parses_iff {t : Tree} {f : File} (hf : t.lookup p = some f) :
    parses P t p = true ↔ ∃ d, Holds P f.content d := by
  unfold parses Tree.readToString
  rw [hf]
  dsimp only
  cases ht : Utf8.decode f.content with
  | none =>
    simp only [Bool.false_eq_true, false_iff, not_exists]
    rintro d ⟨text, hc, -⟩
    rw [hc, Utf8.decode_encode] at ht
    cases ht
  | some text =>
    have hc := Utf8.decode_eq_some_iff.1 ht
    dsimp only
    cases hd : Document.parse P.yaml text with
    | error e =>
      simp only [Except.isOk, Except.toBool, Bool.false_eq_true, false_iff, not_exists]
      rintro d ⟨text', hc', hd'⟩
      obtain rfl := Utf8.encode_inj (hc.symm.trans hc')
      rw [hd] at hd'
      cases hd'
    | ok d => exact iff_of_true rfl ⟨d, text, hc, hd⟩

/-- A file that holds a document is sound exactly when the index takes the document. -/
theorem sound_iff {t : Tree} {f : File} (hf : t.lookup p = some f) (hd : Holds P f.content d) :
    Sound P t p ↔ Indexes d := by
  obtain ⟨text, hc, hparse⟩ := hd
  have hread : t.readToString p = .ok text := Tree.readToString_ok.2 ⟨f, hf, hc⟩
  constructor
  · rintro ⟨text', hread', htakes⟩
    rw [hread] at hread'
    obtain rfl := Except.ok.inj hread'
    exact htakes d hparse
  · intro htakes
    refine ⟨text, hread, fun d' hd' => ?_⟩
    rw [hparse] at hd'
    obtain rfl := Except.ok.inj hd'
    exact htakes

/-- The record without its prose is as valid. -/
theorem Holds.valid_bare (hY : P.yaml.Inverts) {bytes : Bytes} (h : Holds P bytes d) :
    d.record.bare.validate = .ok () := (holds_structureOf hY h.valid).valid

/-- The record a document is of is not changed by an erasure. -/
theorem leftOf_recordId (ss : List SubjectHash) (d : Document) :
    (leftOf ss d).record.recordId = d.record.recordId := by
  unfold leftOf
  split_ifs <;> rfl

section
variable {σ₁ : Store} {n : ℕ} {f : File}

/-- What a replay makes of a record file: it still holds a document, or holds none still. -/
theorem replayed_file (hp : extension p = some recordExt) (hf : σ.records.lookup p = some f)
    (hrun : replayTombstones P env σ = (.ok n, σ₁)) :
    ∃ g, σ₁.records.lookup p = some g ∧
      g.content = droppedForAll P (erasedAgain P σ.tombstoneLog) f.content := by
  obtain ⟨m, hm⟩ := replayTombstones_fileAt hp (show FileAt p f.content σ from ⟨f.mtime, hf⟩) hrun
  exact ⟨_, hm, rfl⟩

/-- After a replay a record file is sound exactly when the file fitted. -/
theorem sound_replayed (hY : P.yaml.Inverts) (hp : extension p = some recordExt)
    (hf : σ.records.lookup p = some f) (hrun : replayTombstones P env σ = (.ok n, σ₁)) :
    Sound P σ₁.records p ↔ ∃ text, σ.records.readToString p = .ok text ∧
      ∀ d, Document.parse P.yaml text = .ok d → Fits (erasedAgain P σ.tombstoneLog) d := by
  obtain ⟨g, hg, hc⟩ := replayed_file hp hf hrun
  by_cases hd : ∃ d, Holds P f.content d
  · obtain ⟨d, hd⟩ := hd
    have hleft : Holds P g.content (leftOf (erasedAgain P σ.tombstoneLog) d) := by
      rw [hc]
      exact hd.droppedForAll hY _
    rw [sound_iff hg hleft, indexes_leftOf hd.valid (hd.valid_bare hY)]
    obtain ⟨text, hct, hparse⟩ := hd
    have hread : σ.records.readToString p = .ok text := Tree.readToString_ok.2 ⟨f, hf, hct⟩
    constructor
    · intro hfits
      refine ⟨text, hread, fun d' hd' => ?_⟩
      rw [hparse] at hd'
      obtain rfl := Except.ok.inj hd'
      exact hfits
    · rintro ⟨text', hread', hfits⟩
      rw [hread] at hread'
      obtain rfl := Except.ok.inj hread'
      exact hfits d hparse
  · rw [droppedForAll_of_not_holds (not_exists.1 hd)] at hc
    have hsame : σ₁.records.readToString p = σ.records.readToString p := by
      unfold Tree.readToString
      rw [hg, hf]
      dsimp only
      rw [hc]
    have hnone : ∀ text, σ.records.readToString p = .ok text → ∀ d,
        Document.parse P.yaml text ≠ .ok d := by
      intro text hread d hparse
      obtain ⟨f', hf', hct⟩ := Tree.readToString_ok.1 hread
      obtain rfl := Option.some.inj (hf.symm.trans hf')
      exact hd ⟨d, text, hct, hparse⟩
    unfold Sound
    rw [hsame]
    refine exists_congr fun text => and_congr_right fun hread => ?_
    exact ⟨fun _ d h => absurd h (hnone text hread d), fun _ d h => absurd h (hnone text hread d)⟩

theorem parses_replayed (hY : P.yaml.Inverts) (hp : extension p = some recordExt)
    (hf : σ.records.lookup p = some f) (hrun : replayTombstones P env σ = (.ok n, σ₁)) :
    parses P σ₁.records p = parses P σ.records p := by
  obtain ⟨g, hg, hc⟩ := replayed_file hp hf hrun
  rw [Bool.eq_iff_iff, parses_iff hg, parses_iff hf]
  by_cases hd : ∃ d, Holds P f.content d
  · refine iff_of_true ?_ hd
    obtain ⟨d, hd⟩ := hd
    rw [hc]
    exact ⟨_, hd.droppedForAll hY _⟩
  · rw [hc, droppedForAll_of_not_holds (not_exists.1 hd)]

end

/-- **One bad file**: where the log, the manifests and the spool are in order, a rebuild indexes
    every record file that parses and skips the others exactly when every file is text and every
    document is one the index takes: its stamps in the index's grammar, no prose on a record
    that should be sealed, and no subject keyed twice unless the body is dropped. -/
theorem whole_tree_rebuilds_iff (P : Pipeline) (hY : P.yaml.Inverts) (env : Env) (σ : Store)
    (h : Intact P σ) : Rebuilds P env σ ↔ TreeFits P σ := by
  constructor
  · rintro ⟨rep, σ', hrun, -⟩ p hp
    obtain ⟨n, σ₁, hreplay, hrest⟩ := bind_eq_ok.1 hrun
    rw [state_bind] at hrest
    obtain ⟨hmem, hext⟩ := Tree.mem_walkFiles.1 hp
    obtain ⟨f, hf⟩ := Tree.mem_iff_lookup.1 hmem
    obtain ⟨g, hg, -⟩ := replayed_file hext hf hreplay
    have hwalk : p ∈ σ₁.records.walkFiles recordExt :=
      Tree.mem_walkFiles.2 ⟨Tree.mem_iff_lookup.2 ⟨g, hg⟩, hext⟩
    exact (sound_replayed hY hext hf hreplay).1 (sound_of_rebuild hrest p hwalk)
  · intro hfits
    have hfile : ∀ p f, extension p = some recordExt → σ.records.lookup p = some f →
        p ∈ σ.records.walkFiles recordExt := fun p f hp hf =>
      Tree.mem_walkFiles.2 ⟨Tree.mem_iff_lookup.2 ⟨f, hf⟩, hp⟩
    have hread : ∀ p f, extension p = some recordExt → σ.records.lookup p = some f →
        ∃ text, f.content = Utf8.encode text := by
      intro p f hp hf
      obtain ⟨text, htext, -⟩ := hfits p (hfile p f hp hf)
      obtain ⟨f', hf', hc⟩ := Tree.readToString_ok.1 htext
      obtain rfl := Option.some.inj (hf.symm.trans hf')
      exact ⟨text, hc⟩
    obtain ⟨n, σ₁, hreplay, hr⟩ := replayTombstones_total env hY h hread
    have hsound : ∀ p ∈ σ₁.records.walkFiles recordExt, Sound P σ₁.records p := by
      intro p hp
      obtain ⟨hmem, hext⟩ := Tree.mem_walkFiles.1 hp
      obtain ⟨g, hg⟩ := Tree.mem_iff_lookup.1 hmem
      rcases hr.fresh p g hext hg with hold | ⟨d, hd, -, htakes⟩
      · obtain ⟨f, hf⟩ := Tree.mem_iff_lookup.1 hold
        exact (sound_replayed hY hext hf hreplay).2 (hfits p (hfile p f hext hf))
      · exact (sound_iff hg hd).2 htakes
    have hspool : ∀ p ∈ σ₁.quarantine.walkFiles recordExt,
        ∃ text, σ₁.quarantine.readToString p = .ok text := by
      intro p hp
      obtain ⟨hmem, hext⟩ := Tree.mem_walkFiles.1 hp
      obtain ⟨g, hg⟩ := Tree.mem_iff_lookup.1 hmem
      exact (h.held hr hext hg).imp fun text ht => ht.1
    have hcold : Archived P σ₁.cold := by
      rw [hr.cold]
      exact h.manifests
    obtain ⟨rep, σ', hrebuild, hrecords, hindexed, hskipped, hrows⟩ :=
      rebuild_total env hcold hspool hsound n
    refine ⟨rep, σ', ?_, by rw [hrecords, hindexed], ?_, fun p hp text d htext hd => ?_⟩
    · rw [reindexAll, bind_of_ok hreplay, state_bind]
      exact hrebuild
    · -- no file that does not parse comes or goes
      rw [hskipped]
      refine List.Perm.length_eq ?_
      rw [List.perm_ext_iff_of_nodup ((Tree.nodup_walkFiles _ _).filter _)
        ((Tree.nodup_walkFiles _ _).filter _)]
      intro p
      simp only [List.mem_filter, Tree.mem_walkFiles, Bool.not_eq_true']
      constructor
      · rintro ⟨⟨hmem, hext⟩, hno⟩
        obtain ⟨g, hg⟩ := Tree.mem_iff_lookup.1 hmem
        rcases hr.fresh p g hext hg with hold | ⟨d, hd, -⟩
        · obtain ⟨f, hf⟩ := Tree.mem_iff_lookup.1 hold
          exact ⟨⟨hold, hext⟩, (parses_replayed hY hext hf hreplay).symm.trans hno⟩
        · rw [(parses_iff hg).2 ⟨d, hd⟩] at hno
          cases hno
      · rintro ⟨⟨hmem, hext⟩, hno⟩
        obtain ⟨f, hf⟩ := Tree.mem_iff_lookup.1 hmem
        obtain ⟨g, hg, -⟩ := replayed_file hext hf hreplay
        exact ⟨⟨Tree.mem_iff_lookup.2 ⟨g, hg⟩, hext⟩, (parses_replayed hY hext hf hreplay).trans hno⟩
    · obtain ⟨-, hext⟩ := Tree.mem_walkFiles.1 hp
      obtain ⟨f, hf, hc⟩ := Tree.readToString_ok.1 htext
      obtain ⟨g, hg, hgc⟩ := replayed_file hext hf hreplay
      have hholds : Holds P f.content d := ⟨text, hc, hd⟩
      obtain ⟨text', hc', hd'⟩ := hholds.droppedForAll hY (erasedAgain P σ.tombstoneLog)
      have hwalk : p ∈ σ₁.records.walkFiles recordExt :=
        Tree.mem_walkFiles.2 ⟨Tree.mem_iff_lookup.2 ⟨g, hg⟩, hext⟩
      have hrow := hrows p hwalk text' _ (Tree.readToString_ok.2 ⟨g, hg, hgc.trans hc'⟩) hd'
      rwa [leftOf_recordId] at hrow

/-! ## One file -/

def strayPath : Path := ["a.md".toList]

/-- A store with one file in its record tree. -/
def strayFile (bytes : Bytes) : Store :=
  { emptyStore with records := Tree.write ∅ strayPath bytes 0 }

theorem strayFile_lookup (bytes : Bytes) :
    (strayFile bytes).records.lookup strayPath = some ⟨bytes, 0⟩ := AList.lookup_insert _

theorem mem_strayFile {bytes : Bytes} (h : p ∈ (strayFile bytes).records) : p = strayPath := by
  rcases (AList.mem_insert _).1 h with h | h
  · exact h
  · exact absurd h (AList.notMem_empty _)

theorem intact_strayFile (P : Pipeline) (bytes : Bytes) : Intact P (strayFile bytes) := by
  refine ⟨⟨[], rfl, fun t ht => absurd ht List.not_mem_nil⟩, fun p hp => ?_, fun p hp => ?_⟩
  · exact absurd (Tree.mem_walkFiles.1 hp).1 (AList.notMem_empty _)
  · exact absurd (Tree.mem_walkFiles.1 hp).1 (AList.notMem_empty _)

theorem whole_tree_rebuilds_iff_draft :
    Rebuilds (deployment declaredSubjects) (quietEnv 0) (strayFile (Utf8.encode "draft".toList)) := by
  have hiff := whole_tree_rebuilds_iff (deployment declaredSubjects) Md.reader_inverts (quietEnv 0) _
    (intact_strayFile _ (Utf8.encode "draft".toList))
  refine hiff.2 fun p hp => ?_
  obtain rfl := mem_strayFile (Tree.mem_walkFiles.1 hp).1
  have herr : Document.parse (deployment declaredSubjects).yaml "draft".toList =
      .error .missingFrontmatter := by
    rw [Document.parse, show split "draft".toList = .error .missingFrontmatter from rfl]
  have hread := Tree.readToString_ok.2 ⟨_, strayFile_lookup (Utf8.encode "draft".toList), rfl⟩
  refine ⟨"draft".toList, hread, fun d hd => ?_⟩
  rw [herr] at hd
  cases hd

/-- **One file that is not text keeps the index from being rebuilt.** -/
theorem one_bad_file_stops_rebuild : ¬ ∀ (P : Pipeline) (env : Env) (σ : Store),
    P.yaml.Inverts → Intact P σ → Rebuilds P env σ := by
  intro h
  obtain ⟨rep, σ', hrun, -⟩ := h (deployment declaredSubjects) (quietEnv 0) (strayFile [0xff])
    Md.reader_inverts (intact_strayFile _ _)
  have hreplay : replayTombstones (deployment declaredSubjects) (quietEnv 0) (strayFile [0xff]) =
      (.ok 0, strayFile [0xff]) := by
    rw [replayTombstones, readLog_bind]
    rfl
  rw [reindexAll, bind_of_ok hreplay, state_bind] at hrun
  have hwalk : strayPath ∈ (strayFile [0xff]).records.walkFiles recordExt :=
    Tree.mem_walkFiles.2 ⟨Tree.mem_iff_lookup.2 ⟨_, strayFile_lookup _⟩, by decide⟩
  obtain ⟨text, htext, -⟩ := sound_of_rebuild hrun strayPath hwalk
  obtain ⟨f, hf, hc⟩ := Tree.readToString_ok.1 htext
  rw [strayFile_lookup] at hf
  obtain rfl := Option.some.inj hf
  have hdecode := Utf8.decode_eq_some_iff.2 hc
  revert hdecode
  rw [show Utf8.decode [0xff] = none by decide]
  intro hdecode
  cases hdecode

end Yaam.Core
