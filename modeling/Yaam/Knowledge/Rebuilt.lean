/-
  When a rebuild of knowledge goes through, and what one that is cut off leaves.

  * `readStructures_ok`: every source has to be text; `stage_ok`: every note has to be one
    that is written and placed;
  * `Legible` says so of the records, `renders_iff` that it is the same;
  * `Sound` is what every operation of a rebuild keeps (`Run.sound`);
  * `rebuilds_iff`: a rebuild goes through exactly over a `Clean` tree, and a state file
    speaks of the notes that stand beside it.
-/
import Yaam.Contract.Segment
import Yaam.Core.Accept
import Yaam.Knowledge.Rebuild
import Yaam.Knowledge.RoundTrip

namespace Yaam.Knowledge

open Text Contract Eff Md

/-! ## What a rebuild promises -/

/-- The notes under the live directory are these. -/
def Assembled (t : Tree) (notes : List Note) : Prop :=
  ∀ p bytes, Tree.Under liveDir p → (t.read p = .ok bytes ↔
    ∃ n ∈ notes, noteWithin n.entity = .ok p ∧ ∃ text, n.render = .ok text ∧ bytes = Utf8.encode text)

/-- **A state file that can be read speaks of the notes that stand beside it**: those its
    writer assembled. -/
def Site.Honest (h : Host) (s : Site) : Prop :=
  ∀ st, state h s.tree = .ok (some st) → ∃ notes, s.assembled = some notes ∧ Assembled s.tree notes

/-- **A rebuild goes through**: it counts the sources that cannot be read and publishes
    every note that renders. -/
def Rebuilds (h : Host) (now : ℤ) (σ : Core.Store) (t : Tree) : Prop :=
  ∃ report, (rebuilt h now σ t).1 = .ok report ∧
    report.skippedUnreadable = (sources h σ).count none ∧
    ∀ n ∈ notesOf h σ, ∀ text, n.render = .ok text →
      ∃ p, noteWithin n.entity = .ok p ∧ (rebuilt h now σ t).2.read p = .ok (Utf8.encode text)

/-- An identifier whose segment is one file name. -/
structure Segmented (part : Text) : Prop where
  nonempty : part ≠ []
  dot : toPathSegment part ≠ ".".toList
  dots : toPathSegment part ≠ "..".toList
  backslash : '\\' ∉ toPathSegment part
  null : Char.ofNat 0 ∉ toPathSegment part

/-- An entity that can have a note: it is spelled as a wikilink and as a path, which the
    file system takes. -/
structure Placeable (h : Host) (e : EntityKey) : Prop where
  linked : Linked e
  kind_ok : Segmented e.kind
  id_ok : Segmented e.id
  takesDir : h.takes (rebuildDir ++ [notesDir, toPathSegment e.kind])
  takes : h.takes (rebuildDir ++ [notesDir, toPathSegment e.kind, toPathSegment e.id ++ ".md".toList])

/-- A record whose every value can stand in a note. -/
structure Legible (h : Host) (r : ActionRecord) : Prop where
  agent_ok : Quotable r.agent
  attrs_ok : ∀ a ∈ r.attrs.entries, Quotable a.1 ∧ Quotable (valueText a.2)
  entities_ok : ∀ e ∈ certain r, Placeable h e

/-- **A tree that can be rebuilt from**: its sources are text, and the records that
    contribute something are legible. -/
structure Clean (h : Host) (σ : Core.Store) : Prop where
  records_ok : ∀ p ∈ σ.records.walkFiles Core.recordExt, ∃ text, σ.records.readToString p = .ok text
  cold_ok : ∀ p ∈ σ.cold.walkFiles manifestExt, ∃ text, σ.cold.readToString p = .ok text
  legible : ∀ r, some r ∈ sources h σ → derivable r = .ok r → certain r ≠ [] → Legible h r

variable {h : Host} {σ : Core.Store} {now : ℤ}

/-! ## Reading -/

/-- Files that are read one after another. -/
theorem mapM_read {α β γ : Type} (read : α → Except IoError γ) (f : γ → β) {g : α → β}
    (hg : ∀ x t, read x = .ok t → g x = f t) (xs : List α) (ys : List β) :
    (xs.mapM fun x => do
      let t ← (read x).mapError Error.io
      .ok (f t)) = (.ok ys : Except Error (List β)) ↔
      (∀ x ∈ xs, ∃ t, read x = .ok t) ∧ ys = xs.map g := by
  induction xs generalizing ys with
  | nil => simp [pure, Except.pure, eq_comm]
  | cons x xs ih =>
    rw [List.mapM_cons, bind_ok, List.forall_mem_cons, List.map_cons]
    constructor
    · rintro ⟨y, hy, h⟩
      obtain ⟨t, ht, hf⟩ := bind_ok.1 hy
      obtain ⟨zs, hzs, h⟩ := bind_ok.1 h
      obtain ⟨hall, rfl⟩ := (ih zs).1 hzs
      cases hr : read x with
      | error e =>
        rw [hr] at ht
        cases ht
      | ok u =>
        rw [hr] at ht
        cases ht
        cases hf
        cases h
        exact ⟨⟨⟨t, rfl⟩, hall⟩, by rw [hg x t hr]⟩
    · rintro ⟨⟨⟨t, ht⟩, hall⟩, rfl⟩
      refine ⟨g x, ?_, bind_ok.2 ⟨_, (ih _).2 ⟨hall, rfl⟩, rfl⟩⟩
      rw [ht, hg x t ht]
      rfl

/-- **Reading goes through exactly when every source is text.** -/
theorem readStructures_ok {rs : List ActionRecord} {n : ℕ} : readStructures h σ = .ok (rs, n) ↔
    (∀ p ∈ σ.records.walkFiles Core.recordExt, ∃ text, σ.records.readToString p = .ok text) ∧
      (∀ p ∈ σ.cold.walkFiles manifestExt, ∃ text, σ.cold.readToString p = .ok text) ∧
      rs = (sources h σ).filterMap id ∧ n = (sources h σ).count none := by
  obtain ⟨g, k, hsources, hg, hk⟩ : ∃ (g : Path → Option ActionRecord)
      (k : Path → List (Option ActionRecord)),
      sources h σ = (σ.records.walkFiles Core.recordExt).map g ++
        (σ.cold.walkFiles manifestExt).flatMap k ∧
      (∀ p t, σ.records.readToString p = .ok t → g p = recordSource h t) ∧
      ∀ p t, σ.cold.readToString p = .ok t → k p = manifestSources h t :=
    ⟨_, _, rfl, fun p t ht => by simp only [ht], fun p t ht => by simp only [ht]⟩
  have hrecords := mapM_read σ.records.readToString (recordSource h) hg
    (σ.records.walkFiles Core.recordExt)
  have hcold := mapM_read σ.cold.readToString (manifestSources h) hk (σ.cold.walkFiles manifestExt)
  rw [readStructures, bind_ok, hsources]
  constructor
  · rintro ⟨records, hr, hrest⟩
    obtain ⟨manifests, hm, hrest⟩ := bind_ok.1 hrest
    obtain ⟨hrall, rfl⟩ := (hrecords _).1 hr
    obtain ⟨hmall, rfl⟩ := (hcold _).1 hm
    obtain ⟨rfl, rfl⟩ := Prod.mk.inj (Except.ok.inj hrest)
    exact ⟨hrall, hmall, rfl, rfl⟩
  · rintro ⟨hrall, hmall, rfl, rfl⟩
    exact ⟨_, (hrecords _).2 ⟨hrall, rfl⟩, bind_ok.2 ⟨_, (hcold _).2 ⟨hmall, rfl⟩, rfl⟩⟩

/-! ## Rendering and placing -/

theorem quoted_iff {v : Text} : (∃ q, quoted v = .ok q) ↔ Quotable v := by
  constructor
  · rintro ⟨q, hq⟩
    exact (quoted_ok hq).2
  · rintro ⟨ht, hn, hc⟩
    exact ⟨tick v, by simp [quoted, ht, hn, hc]⟩

theorem link_iff {e : EntityKey} : (∃ l, link e = .ok l) ↔ Linked e := by
  constructor
  · rintro ⟨l, hl⟩
    exact (link_ok hl).2
  · rintro ⟨⟨⟨k1, k2, k3, k4⟩, ⟨i1, i2, i3, i4⟩, hc⟩, k5, i5⟩
    exact ⟨renderLink e.kind e.id, by simp [link, unlinkable, *]⟩

theorem renderStatement_iff {f : Fact} : (∃ l, renderStatement f = .ok l) ↔ Written f := by
  constructor
  · rintro ⟨l, hl⟩
    exact (renderStatement_ok hl).2
  · intro hw
    cases f with
    | «attribute» e key value =>
      obtain ⟨k, hk⟩ := quoted_iff.2 hw.1
      obtain ⟨v, hv⟩ := quoted_iff.2 hw.2
      exact ⟨_, by rw [renderStatement, hk, hv]; rfl⟩
    | actor e agent =>
      obtain ⟨a, ha⟩ := quoted_iff.2 hw
      exact ⟨_, by rw [renderStatement, ha]; rfl⟩
    | association e other =>
      obtain ⟨o, ho⟩ := link_iff.2 hw
      exact ⟨_, by rw [renderStatement, ho]; rfl⟩

theorem quotable_stamp {t : Text} (ht : parseMs t ≠ none) : Quotable t :=
  ⟨notMem_stamp (by decide) ht, notMem_stamp (by decide) ht, notMem_stamp (by decide) ht⟩

/-- A fact seen at readable times has a line exactly when its values can be written. -/
theorem renderFact_iff {f : Held} (ht : Timed f) : (∃ l, renderFact f = .ok l) ↔ Written f.fact := by
  constructor
  · rintro ⟨l, hl⟩
    exact (renderFact_ok hl).2.1
  · intro hw
    obtain ⟨s, hs⟩ := renderStatement_iff.2 hw
    obtain ⟨n, hn⟩ : ∃ n, quoted (padNat 0 f.observations) = .ok n :=
      quoted_iff.2 ⟨notMem_padNat rfl 0 _, notMem_padNat rfl 0 _, notMem_padNat rfl 0 _⟩
    obtain ⟨first, hf⟩ := quoted_iff.2 (quotable_stamp ht.first)
    obtain ⟨last, hl⟩ := quoted_iff.2 (quotable_stamp ht.last)
    exact ⟨_, by rw [renderFact, hs, hn, hf, hl]; rfl⟩

/-- **A collated note renders exactly when** its entity and its facts can be written. -/
theorem render_iff {os : List Observation} (hos : ∀ o ∈ os, parseMs o.at_ ≠ none) {n : Note}
    (hn : n ∈ collate os) : (∃ t, n.render = .ok t) ↔
      Linked n.entity ∧ ∀ f ∈ n.facts, Written f.fact := by
  constructor
  · rintro ⟨t, ht⟩
    obtain ⟨-, hlinked, hrendered⟩ := render_ok ht
    exact ⟨hlinked, fun f hf => (hrendered f hf).written⟩
  · rintro ⟨hlinked, hwritten⟩
    obtain ⟨l, hl⟩ := link_iff.2 hlinked
    obtain ⟨ls, hls⟩ := exists_mapM fun f hf =>
      (renderFact_iff ((collate_spec hos hn f hf).2)).2 (hwritten f hf)
    exact ⟨_, by rw [Note.render, hl, hls]; rfl⟩

theorem segment_ok {part s : Text} : segment part = .ok s ↔ s = toPathSegment part ∧ Segmented part := by
  have hnil : toPathSegment part = [] ↔ part = [] := by
    exact ⟨fun h => toPathSegment_inj (h.trans toPathSegment_nil.symm), fun h => by rw [h, toPathSegment_nil]⟩
  have hslash := slash_notMem_toPathSegment part
  unfold segment
  constructor
  · intro h
    dsimp only at h
    split_ifs at h with hbad
    simp only [not_or] at hbad
    obtain ⟨h1, h2, h3, h4, h5, -⟩ := hbad
    exact ⟨(Except.ok.inj h).symm, fun he => h1 (hnil.2 he), h2, h3, h4, h5⟩
  · rintro ⟨rfl, h1, h2, h3, h4, h5⟩
    refine if_neg ?_
    simp only [not_or]
    exact ⟨fun he => h1 (hnil.1 he), h2, h3, h4, h5, hslash⟩

theorem noteWithin_ok {e : EntityKey} {p : Path} : noteWithin e = .ok p ↔
    p = [notesDir, toPathSegment e.kind, toPathSegment e.id ++ ".md".toList] ∧
      Segmented e.kind ∧ Segmented e.id := by
  unfold noteWithin
  constructor
  · intro h
    obtain ⟨k, hk, h⟩ := bind_ok.1 h
    obtain ⟨i, hi, h⟩ := bind_ok.1 h
    obtain ⟨rfl, hkind⟩ := segment_ok.1 hk
    obtain ⟨rfl, hid⟩ := segment_ok.1 hi
    exact ⟨(Except.ok.inj h).symm, hkind, hid⟩
  · rintro ⟨rfl, hkind, hid⟩
    rw [segment_ok.2 ⟨rfl, hkind⟩, segment_ok.2 ⟨rfl, hid⟩]
    rfl

/-- Two entities have two places. -/
theorem noteWithin_inj {e e' : EntityKey} {p : Path} (h : noteWithin e = .ok p)
    (h' : noteWithin e' = .ok p) : e = e' := by
  obtain ⟨rfl, -⟩ := noteWithin_ok.1 h
  obtain ⟨he, -⟩ := noteWithin_ok.1 h'
  simp only [List.cons.injEq, and_true, true_and] at he
  obtain ⟨hk, hi⟩ := he
  cases e
  cases e'
  rw [EntityKey.mk.injEq]
  exact ⟨toPathSegment_inj hk, toPathSegment_inj (List.append_cancel_right hi)⟩

/-! ## Notes of legible records -/

theorem mem_observe {rs : List ActionRecord} {r : ActionRecord} {e : EntityKey} {f : Fact}
    (hr : r ∈ rs) (hd : derivable r = .ok r) (he : e ∈ certain r) (hf : f ∈ factsOf r e) :
    ⟨f, r.recordId, r.receivedAt⟩ ∈ observe rs := by
  refine List.mem_flatMap.2 ⟨r, hr, ?_⟩
  rw [hd]
  exact List.mem_map.2 ⟨f, List.mem_flatMap.2 ⟨e, he, hf⟩, rfl⟩

/-- Every observation stands in the note of its entity. -/
theorem exists_note {os : List Observation} {o : Observation} (ho : o ∈ os) :
    ∃ n ∈ collate os, n.entity = o.fact.entity ∧ ∃ f ∈ n.facts, f.fact = o.fact := by
  have hentity : o.fact.entity ∈ (os.map (·.fact.entity)).dedup.insertionSort
      fun a b => [a.kind, a.id] ≤ [b.kind, b.id] := by
    rw [List.mem_insertionSort, List.mem_dedup]
    exact List.mem_map.2 ⟨o, ho, rfl⟩
  refine ⟨_, List.mem_map.2 ⟨o.fact.entity, hentity, rfl⟩, rfl, _, List.mem_map.2 ⟨o.fact, ?_, rfl⟩, rfl⟩
  rw [List.mem_insertionSort, List.mem_dedup, List.mem_filter]
  exact ⟨List.mem_map.2 ⟨o, ho, rfl⟩, by simp⟩

/-- Every fact of a note was observed, and so was its entity. -/
theorem note_observed {os : List Observation} {n : Note} (hn : n ∈ collate os) :
    (∃ o ∈ os, o.fact.entity = n.entity) ∧ ∀ f ∈ n.facts, ∃ o ∈ os, o.fact = f.fact := by
  obtain ⟨e, he, rfl⟩ := List.mem_map.1 hn
  rw [List.mem_insertionSort, List.mem_dedup, List.mem_map] at he
  refine ⟨he, fun f hf => ?_⟩
  obtain ⟨fact, hfact, rfl⟩ := List.mem_map.1 hf
  rw [List.mem_insertionSort, List.mem_dedup, List.mem_filter, List.mem_map] at hfact
  exact hfact.1

theorem nodup_entities (os : List Observation) : ((collate os).map (·.entity)).Nodup := by
  have hid : (Note.entity ∘ fun e => (⟨e, (((os.map (·.fact)).filter (·.entity = e)).dedup.insertionSort
      fun f g => f.words ≤ g.words).map fun f => held f (os.filter (·.fact = f))⟩ : Note)) = id := rfl
  rw [collate, List.map_map, hid, List.map_id, (List.perm_insertionSort _ _).nodup_iff]
  exact List.nodup_dedup _

/-- A note that is written and placed. -/
structure Publishable (h : Host) (n : Note) : Prop where
  renders : ∃ t, n.render = .ok t
  placeable : Placeable h n.entity

/-- **Every note can be published exactly when every record that says something is
    legible.** -/
theorem publishable_iff {rs : List ActionRecord} : (∀ n ∈ collate (observe rs), Publishable h n) ↔
    ∀ r ∈ rs, derivable r = .ok r → certain r ≠ [] → Legible h r := by
  have htimes : ∀ o ∈ observe rs, parseMs o.at_ ≠ none := fun o ho => by
    obtain ⟨r, -, -, -, -, htime, -⟩ := observe_spec ho
    exact htime
  constructor
  · intro hall r hr hd hne
    have hnote : ∀ e ∈ certain r, ∀ f ∈ factsOf r e, Written f ∧ Placeable h e := by
      intro e he f hf
      obtain ⟨n, hn, hentity, f', hf', hfact⟩ := exists_note (mem_observe hr hd he hf)
      have hpub := hall n hn
      obtain ⟨-, hwritten⟩ := (render_iff htimes hn).1 hpub.renders
      rw [entity_of_mem_factsOf hf] at hentity
      have hfact' : f'.fact = f := hfact
      exact ⟨hfact' ▸ hwritten f' hf', hentity ▸ hpub.placeable⟩
    have hactor : ∀ e, Fact.actor e r.agent ∈ factsOf r e := fun e =>
      List.mem_append_right _ List.mem_cons_self
    obtain ⟨e, he⟩ := List.exists_mem_of_ne_nil _ hne
    refine ⟨(hnote e he _ (hactor e)).1, fun a ha => ?_, fun e' he' => (hnote e' he' _ (hactor e')).2⟩
    exact (hnote e he (.attribute e a.1 (valueText a.2))
      (List.mem_append_left _ (List.mem_map.2 ⟨a, ha, rfl⟩))).1
  · intro hall n hn
    have hlegible : ∀ o ∈ observe rs, ∃ r e, Legible h r ∧ e ∈ certain r ∧ o.fact ∈ factsOf r e := by
      intro o ho
      obtain ⟨r, hr, hd, -, -, -, e, he, hf⟩ := observe_spec ho
      exact ⟨r, e, hall r hr hd (List.ne_nil_of_mem he), he, hf⟩
    obtain ⟨⟨o, ho, hentity⟩, hfacts⟩ := note_observed hn
    obtain ⟨r, e, hleg, he, hf⟩ := hlegible o ho
    rw [entity_of_mem_factsOf hf] at hentity
    subst hentity
    have hplace := hleg.entities_ok _ he
    refine ⟨(render_iff htimes hn).2 ⟨hplace.linked, fun f hf => ?_⟩, hplace⟩
    obtain ⟨o', ho', hfact⟩ := hfacts f hf
    obtain ⟨r', e', hleg', he', hf'⟩ := hlegible o' ho'
    rw [← hfact]
    simp only [factsOf, List.mem_append, List.mem_map, List.mem_cons, List.mem_filter] at hf'
    rcases hf' with ⟨a, ha, heq⟩ | heq | ⟨other, ⟨hother, -⟩, heq⟩
    · rw [← heq]
      exact hleg'.attrs_ok a ha
    · rw [heq]
      exact hleg'.agent_ok
    · rw [← heq]
      exact (hleg'.entities_ok other hother).linked

/-! ## Staging -/

/-- The file that a note is staged as. -/
def placed (h : Host) (n : Note) : Except Error (Path × Bytes) := do
  let within ← noteWithin n.entity
  let path := rebuildDir ++ within
  taken h path.dropLast
  let text ← n.render
  taken h path
  .ok (path, Utf8.encode text)

def writes (now : ℤ) (files : List (Path × Bytes)) : List Op := files.map fun f => .write f.1 f.2 now

theorem ofExcept_bind {σ ε α β : Type} (x : Except ε α) (f : α → Except ε β) :
    (ofExcept (x >>= f) : Eff σ ε β) = ofExcept x >>= fun a => ofExcept (f a) := by
  cases x with
  | error e => rfl
  | ok a => rfl

theorem stage_cons (n : Note) (ns : List Note) : stage h now (n :: ns) =
    ofExcept (placed h n) >>= fun f => perform (.write f.1 f.2 now) >>= fun _ => stage h now ns := by
  rw [stage, placed]
  simp only [ofExcept_bind, bind_assoc, ofExcept_ok_bind]

theorem taken_ok {p : Path} : taken h p = .ok () ↔ h.takes p = true := by
  unfold taken
  split_ifs with ht <;> simp [ht]

theorem placed_ok {n : Note} {f : Path × Bytes} : placed h n = .ok f ↔ ∃ p text,
    noteWithin n.entity = .ok p ∧ n.render = .ok text ∧ h.takes (rebuildDir ++ p).dropLast = true ∧
      h.takes (rebuildDir ++ p) = true ∧ f = (rebuildDir ++ p, Utf8.encode text) := by
  unfold placed
  constructor
  · intro hf
    obtain ⟨p, hp, hf⟩ := bind_ok.1 hf
    obtain ⟨⟨⟩, hdir, hf⟩ := bind_ok.1 hf
    obtain ⟨text, ht, hf⟩ := bind_ok.1 hf
    obtain ⟨⟨⟩, hpath, hf⟩ := bind_ok.1 hf
    exact ⟨p, text, hp, ht, taken_ok.1 hdir, taken_ok.1 hpath, (Except.ok.inj hf).symm⟩
  · rintro ⟨p, text, hp, ht, hdir, hpath, rfl⟩
    exact bind_ok.2 ⟨p, hp, bind_ok.2 ⟨(), taken_ok.2 hdir, bind_ok.2 ⟨text, ht,
      bind_ok.2 ⟨(), taken_ok.2 hpath, rfl⟩⟩⟩⟩

/-- A note has a file exactly when it can be published. -/
theorem placed_iff {n : Note} (hn : (∃ t, n.render = .ok t) → Linked n.entity) :
    (∃ f, placed h n = .ok f) ↔ Publishable h n := by
  constructor
  · rintro ⟨f, hf⟩
    obtain ⟨p, text, hp, ht, hdir, hpath, -⟩ := placed_ok.1 hf
    obtain ⟨rfl, hkind, hid⟩ := noteWithin_ok.1 hp
    exact ⟨⟨text, ht⟩, hn ⟨text, ht⟩, hkind, hid, hdir, hpath⟩
  · rintro ⟨⟨text, ht⟩, hplace⟩
    exact ⟨_, placed_ok.2 ⟨_, text, noteWithin_ok.2 ⟨rfl, hplace.kind_ok, hplace.id_ok⟩, ht,
      hplace.takesDir, hplace.takes, rfl⟩⟩

/-- An operation on the staging tree. -/
def Op.Staging : Op → Prop
  | .removeDir dir => dir = rebuildDir
  | .write p _ _ => Tree.Under rebuildDir p
  | _ => False

theorem staging_writes {notes : List Note} {files : List (Path × Bytes)} (now : ℤ)
    (hfiles : notes.mapM (placed h) = .ok files) : ∀ op ∈ writes now files, op.Staging := by
  intro op hop
  obtain ⟨f, hf, rfl⟩ := List.mem_map.1 hop
  obtain ⟨n, -, hn⟩ := (mapM_ok_iff hfiles f).1 hf
  obtain ⟨p, text, hp, -, -, -, rfl⟩ := placed_ok.1 hn
  obtain ⟨rfl, -⟩ := noteWithin_ok.1 hp
  exact Tree.under_append.2 (List.cons_ne_nil _ _)

theorem perform_bind {α : Type} (op : Op) (x : Unit → Script α) (ops : List Op) :
    (perform op >>= x) ops = x () (ops ++ [op]) := rfl

/-- **What staging does**: it writes the notes' files, up to the first that has none. -/
theorem stage_spec (h : Host) (now : ℤ) (notes : List Note) (ops : List Op) :
    (∃ files, notes.mapM (placed h) = .ok files ∧
      stage h now notes ops = (.ok (), ops ++ writes now files)) ∨
    ((∃ n ∈ notes, ∀ f, placed h n ≠ .ok f) ∧ ∃ e added, (∀ op ∈ added, op.Staging) ∧
      stage h now notes ops = (.error e, ops ++ added)) := by
  induction notes generalizing ops with
  | nil => exact .inl ⟨[], rfl, by simp [stage, writes, pure_apply]⟩
  | cons n ns ih =>
    rw [stage_cons]
    cases hn : placed h n with
    | error e =>
      refine .inr ⟨⟨n, List.mem_cons_self, fun f hf => by cases hn.symm.trans hf⟩, e, [], by simp, ?_⟩
      rw [List.append_nil]
      rfl
    | ok f =>
      have hstep : (ofExcept (.ok f) >>= fun f => perform (.write f.1 f.2 now) >>= fun _ =>
          stage h now ns : Script Unit) ops = stage h now ns (ops ++ [.write f.1 f.2 now]) := rfl
      have hone : [n].mapM (placed h) = .ok [f] := by
        rw [List.mapM_cons, hn]
        rfl
      rw [hstep]
      rcases ih (ops ++ [.write f.1 f.2 now]) with ⟨files, hfiles, hrun⟩ | ⟨⟨m, hm, hbad⟩, e, added, hadd, hrun⟩
      · refine .inl ⟨f :: files, ?_, ?_⟩
        · rw [List.mapM_cons, hn, hfiles]
          rfl
        · rw [hrun, List.append_assoc]
          rfl
      · refine .inr ⟨⟨m, List.mem_cons_of_mem _ hm, hbad⟩, e, .write f.1 f.2 now :: added, ?_, ?_⟩
        · have hfirst := staging_writes now hone
          exact List.forall_mem_cons.2 ⟨hfirst _ List.mem_cons_self, hadd⟩
        · rw [hrun, List.append_assoc]
          rfl

/-! ## The operations of a rebuild -/

/-- What swaps a staged tree in. -/
def swapOps : List Op :=
  [.removeFile stateFile, .removeDir liveDir, .renameDir (rebuildDir ++ [notesDir]) liveDir,
    .removeDir rebuildDir]

/-- **What a rebuild does**: it stops while it stages, or it swaps the whole of the notes
    in and writes its state file. -/
theorem rebuild_spec (h : Host) (now : ℤ) (σ : Core.Store) :
    (∃ rs n files, readStructures h σ = .ok (rs, n) ∧
      (collate (observe rs)).mapM (placed h) = .ok files ∧
      rebuild h now σ [] = (.ok (report rs n), .removeDir rebuildDir :: writes now files ++ swapOps ++
        [.write stateFile (Utf8.encode ((report rs n).syncState now).pretty) now])) ∨
    ((∀ rs n, readStructures h σ = .ok (rs, n) →
        ∃ m ∈ collate (observe rs), ∀ f, placed h m ≠ .ok f) ∧
      ∃ e ops, (∀ op ∈ ops, op.Staging) ∧ rebuild h now σ [] = (.error e, ops)) := by
  cases hread : readStructures h σ with
  | error e =>
    refine .inr ⟨fun _ _ => nofun, e, [], by simp, ?_⟩
    rw [rebuild, hread]
    rfl
  | ok result =>
    obtain ⟨rs, n⟩ := result
    have hrun : rebuild h now σ [] = (do
        stage h now (collate (observe rs))
        perform (.removeFile stateFile)
        perform (.removeDir liveDir)
        perform (.renameDir (rebuildDir ++ [notesDir]) liveDir)
        perform (.removeDir rebuildDir)
        writeState now (report rs n)
        return report rs n : Script BuildReport) [.removeDir rebuildDir] := by
      rw [rebuild, hread]
      simp only [ofExcept_ok_bind, publish, bind_assoc]
      rfl
    rw [hrun]
    rcases stage_spec h now (collate (observe rs)) [.removeDir rebuildDir] with
      ⟨files, hfiles, hstage⟩ | ⟨hbad, e, added, hadd, hstage⟩
    · refine .inl ⟨rs, n, files, rfl, hfiles, ?_⟩
      rw [bind_of_ok hstage]
      simp only [perform, change_bind, writeState, pure_apply, swapOps, List.append_assoc,
        List.cons_append, List.nil_append]
    · refine .inr ⟨fun rs' n' heq => ?_, e, .removeDir rebuildDir :: added, ?_, ?_⟩
      · obtain ⟨rfl, rfl⟩ := Prod.mk.inj (Except.ok.inj heq)
        exact hbad
      · exact List.forall_mem_cons.2 ⟨rfl, hadd⟩
      · rw [bind_of_error hstage]
        rfl

/-! ## Operations on the staging tree -/

section
variable {op : Op} {t u : Tree} {p q : Path} {notes : List Note}

theorem Op.Staging.run (hop : op.Staging) (hp : ¬ Tree.Under rebuildDir p) :
    (op.run t).lookup p = t.lookup p := by
  cases op with
  | removeDir dir =>
    obtain rfl : dir = rebuildDir := hop
    exact (Tree.lookup_removeDirAll _ _ _).trans (if_neg hp)
  | removeFile q => exact hop.elim
  | write q bytes now =>
    refine AList.lookup_insert_ne ?_
    rintro rfl
    exact hp hop
  | renameDir src dst => exact hop.elim

theorem Op.Staging.partly (hop : op.Staging) (hu : op.Partly t u) (hp : ¬ Tree.Under rebuildDir p) :
    u.lookup p = t.lookup p := by
  cases op with
  | removeDir dir =>
    obtain rfl : dir = rebuildDir := hop
    exact (hu p).resolve_right fun hn => hp hn.1
  | removeFile q => exact hop.elim
  | write q bytes now =>
    obtain ⟨n, rfl⟩ := hu
    refine AList.lookup_insert_ne ?_
    rintro rfl
    exact hp hop
  | renameDir src dst => exact hop.elim

theorem Op.Staging.writer (hop : op.Staging) (s : Site) : s.writer notes op = s.assembled := by
  refine if_neg fun hw => ?_
  cases op with
  | write q bytes now =>
    obtain rfl : q = stateFile := hw
    have hunder : Tree.Under rebuildDir stateFile := hop
    exact absurd hunder (by decide)
  | removeDir dir => exact hw
  | removeFile q => exact hw
  | renameDir src dst => exact hw

theorem writer_state (bytes : Bytes) (now : ℤ) (s : Site) :
    s.writer notes (.write stateFile bytes now) = some notes := if_pos rfl

theorem assembled_whole (op : Op) (s : Site) :
    ((knowledgeDir notes).whole op s).assembled = s.writer notes op := rfl

theorem not_staged_of_live (hp : Tree.Under liveDir p) : ¬ Tree.Under rebuildDir p := by
  rintro ⟨⟨r, rfl⟩, -⟩
  obtain ⟨⟨q, hq⟩, -⟩ := hp
  have := (List.cons.inj hq).1
  exact absurd this (by decide)

theorem Assembled.congr (ht : Assembled t notes)
    (hu : ∀ p, Tree.Under liveDir p → u.lookup p = t.lookup p) : Assembled u notes := by
  intro p bytes hp
  have hread : u.read p = t.read p := by
    rw [Tree.read, Tree.read, hu p hp]
  rw [hread]
  exact ht p bytes hp

/-! ## State files and the notes beside them -/

/-- **A state file stands only beside the notes its writer assembled.** -/
def Site.Sound (s : Site) : Prop :=
  ∀ f, s.tree.lookup stateFile = some f → ∃ notes, s.assembled = some notes ∧ Assembled s.tree notes

theorem Site.Sound.of_frame {s s' : Site} (hs : s.Sound) (ha : s'.assembled = s.assembled)
    (hframe : ∀ p, ¬ Tree.Under rebuildDir p → s'.tree.lookup p = s.tree.lookup p) : s'.Sound := by
  intro f hf
  rw [hframe stateFile (by decide)] at hf
  obtain ⟨ns, hns, hass⟩ := hs f hf
  exact ⟨ns, ha.trans hns, hass.congr fun p hp => hframe p (not_staged_of_live hp)⟩

/-- Staging touches neither. -/
theorem Op.Staging.keeps (notes : List Note) (hop : op.Staging) : (knowledgeDir notes).Keeps Site.Sound op where
  whole s hs := hs.of_frame (hop.writer s) fun _ hp => hop.run hp
  partly s _ hs hp := hs.of_frame (hp.2.trans (hop.writer s)) fun _ hq => hop.partly hp.1 hq

/-- No state file stands. -/
def Site.Stateless (s : Site) : Prop := s.tree.lookup stateFile = none

theorem Site.Stateless.sound {s : Site} (hs : s.Stateless) : s.Sound := by
  intro f hf
  rw [hs] at hf
  cases hf

theorem stateless_removeFile (s : Site) :
    ((knowledgeDir notes).whole (.removeFile stateFile) s).Stateless :=
  (Tree.lookup_unlink _ _ _).trans (if_pos rfl)

/-- While the trees are swapped there is no state file. -/
theorem keeps_stateless (hop : op ∈ swapOps) : (knowledgeDir notes).Keeps Site.Stateless op := by
  simp only [swapOps, List.mem_cons, List.not_mem_nil, or_false] at hop
  rcases hop with rfl | rfl | rfl | rfl
  · refine ⟨fun s _ => stateless_removeFile s, fun s s' hs hp => ?_⟩
    rw [Site.Stateless, show s'.tree = s.tree from hp.1]
    exact hs
  · refine ⟨fun s hs => ?_, fun s s' hs hp => ?_⟩
    · exact (Tree.lookup_removeDirAll _ _ _).trans ((if_neg (by decide)).trans hs)
    · exact ((hp.1 stateFile).resolve_right fun hn => absurd hn.1 (by decide)).trans hs
  · refine ⟨fun s hs => ?_, fun s s' hs hp => ?_⟩
    · exact (Tree.lookup_renameDir_of_not_under (by decide) (by decide)).trans hs
    · rw [Site.Stateless, show s'.tree = s.tree from hp.1]
      exact hs
  · refine ⟨fun s hs => ?_, fun s s' hs hp => ?_⟩
    · exact (Tree.lookup_removeDirAll _ _ _).trans ((if_neg (by decide)).trans hs)
    · exact ((hp.1 stateFile).resolve_right fun hn => absurd hn.1 (by decide)).trans hs

/-! ## The tree that is swapped in -/

theorem tree_run (notes : List Note) (ops : List Op) (s : Site) :
    ((knowledgeDir notes).run ops s).tree = ops.foldl (fun t op => op.run t) s.tree := by
  induction ops generalizing s with
  | nil => rfl
  | cons op ops ih => exact ih _

/-- The notes' files have one path each. -/
theorem nodup_files {files : List (Path × Bytes)} (hnd : (notes.map (·.entity)).Nodup)
    (hfiles : notes.mapM (placed h) = .ok files) : (files.map (·.1)).Nodup := by
  induction notes generalizing files with
  | nil =>
    cases hfiles
    exact List.nodup_nil
  | cons n ns ih =>
    obtain ⟨hn, hnd⟩ := List.nodup_cons.1 hnd
    rw [List.mapM_cons] at hfiles
    obtain ⟨f, hf, hfiles⟩ := bind_ok.1 hfiles
    obtain ⟨fs, hfs, hfiles⟩ := bind_ok.1 hfiles
    cases hfiles
    refine List.nodup_cons.2 ⟨fun hmem => ?_, ih hnd hfs⟩
    obtain ⟨f', hf', heq⟩ := List.mem_map.1 hmem
    obtain ⟨n', hn', hplaced⟩ := (mapM_ok_iff hfs f').1 hf'
    obtain ⟨p, text, hp, -, -, -, hf⟩ := placed_ok.1 hf
    obtain ⟨p', text', hp', -, -, -, hf'⟩ := placed_ok.1 hplaced
    rw [hf, hf'] at heq
    obtain rfl : p' = p := List.append_cancel_left heq
    exact hn (List.mem_map.2 ⟨n', hn', noteWithin_inj hp' hp⟩)

theorem foldl_writes (files : List (Path × Bytes)) (t : Tree) :
    (writes now files).foldl (fun t op => op.run t) t =
      files.foldl (fun t f => t.insert f.1 ⟨f.2, now⟩) t := by
  rw [writes, List.foldl_map]
  rfl

/-- What stands under the live directory once the staged files are swapped in. -/
theorem lookup_swapped {t : Tree} (hp : Tree.Under liveDir p) :
    (swapOps.foldl (fun t op => op.run t) t).lookup p = t.lookup (rebuildDir ++ p) := by
  obtain ⟨⟨r, rfl⟩, hne⟩ := hp
  have hr : r ≠ [] := by
    rintro rfl
    exact hne rfl
  have hassoc : rebuildDir ++ [notesDir] ++ r = rebuildDir ++ (liveDir ++ r) := List.append_assoc ..
  have hlive : ∀ u : Tree, (u.removeDirAll rebuildDir).lookup (liveDir ++ r) = u.lookup (liveDir ++ r) :=
    fun u => (Tree.lookup_removeDirAll _ _ _).trans
      (if_neg (not_staged_of_live (Tree.under_append.2 hr)))
  have hrest : ((t.unlink stateFile).removeDirAll liveDir).lookup (rebuildDir ++ [notesDir] ++ r) =
      t.lookup (rebuildDir ++ (liveDir ++ r)) := by
    rw [Tree.lookup_removeDirAll, if_neg, Tree.lookup_unlink, if_neg, hassoc]
    · rintro heq
      have := (List.cons.inj heq).1
      exact absurd this (by decide)
    · rintro ⟨⟨q, hq⟩, -⟩
      have := (List.cons.inj hq).1
      exact absurd this (by decide)
  have hempty : ((t.unlink stateFile).removeDirAll liveDir).lookup (liveDir ++ r) = none :=
    (Tree.lookup_removeDirAll _ _ _).trans (if_pos (Tree.under_append.2 hr))
  show ((((t.unlink stateFile).removeDirAll liveDir).renameDir (rebuildDir ++ [notesDir])
    liveDir).removeDirAll rebuildDir).lookup (liveDir ++ r) = _
  rw [hlive, ← hrest]
  cases hl : ((t.unlink stateFile).removeDirAll liveDir).lookup (rebuildDir ++ [notesDir] ++ r) with
  | some f => exact Tree.lookup_renameDir hl hr
  | none =>
    rw [Tree.lookup_renameDir_of_none hl, hempty]
    rintro ⟨⟨q, hq⟩, -⟩
    have := (List.cons.inj hq).1
    exact absurd this (by decide)

/-- **The swapped tree holds the notes that were staged.** -/
theorem assembled_swap {files : List (Path × Bytes)} (now : ℤ) (hnd : (notes.map (·.entity)).Nodup)
    (hfiles : notes.mapM (placed h) = .ok files) (t : Tree) :
    Assembled ((.removeDir rebuildDir :: writes now files ++ swapOps).foldl (fun t op => op.run t) t)
      notes := by
  intro p bytes hp
  have hfold : (.removeDir rebuildDir :: writes now files ++ swapOps).foldl (fun t op => op.run t) t =
      swapOps.foldl (fun t op => op.run t)
        (files.foldl (fun t f => t.insert f.1 ⟨f.2, now⟩) (t.removeDirAll rebuildDir)) := by
    rw [List.foldl_append, List.foldl_cons, foldl_writes]
    rfl
  have hread : ∀ u : Tree, u.read p = .ok bytes ↔ ∃ f, u.lookup p = some f ∧ f.content = bytes := by
    intro u
    rw [Tree.read]
    cases u.lookup p <;> simp
  rw [hread, hfold, lookup_swapped hp]
  constructor
  · rintro ⟨f, hf, rfl⟩
    by_cases hmem : ∃ x ∈ files, x.1 = rebuildDir ++ p
    · obtain ⟨x, hx, hxp⟩ := hmem
      rw [← hxp, Tree.lookup_foldl_insert_of_mem (nodup_files hnd hfiles) hx] at hf
      obtain rfl := Option.some.inj hf
      obtain ⟨n, hn, hplaced⟩ := (mapM_ok_iff hfiles x).1 hx
      obtain ⟨q, text, hq, htext, -, -, rfl⟩ := placed_ok.1 hplaced
      obtain rfl : q = p := List.append_cancel_left hxp
      exact ⟨n, hn, hq, text, htext, rfl⟩
    · rw [Tree.lookup_foldl_insert_of_notMem fun x hx he => hmem ⟨x, hx, he⟩, Tree.lookup_removeDirAll,
        if_pos (Tree.under_append.2 (by
          rintro rfl
          exact absurd hp (by decide)))] at hf
      cases hf
  · rintro ⟨n, hn, hq, text, htext, rfl⟩
    obtain ⟨f, hf⟩ := mapM_ok_mem hfiles n hn
    have hx := (mapM_ok_iff hfiles f).2 ⟨n, hn, hf⟩
    obtain ⟨q', text', hq', htext', -, -, rfl⟩ := placed_ok.1 hf
    obtain rfl := Except.ok.inj (hq.symm.trans hq')
    obtain rfl := Except.ok.inj (htext.symm.trans htext')
    exact ⟨_, Tree.lookup_foldl_insert_of_mem (nodup_files hnd hfiles) hx, rfl⟩

/-- The state file is written beside the tree. -/
theorem Assembled.write (ht : Assembled t notes) (bytes : Bytes) (now : ℤ) :
    Assembled (t.write stateFile bytes now) notes := by
  refine ht.congr fun p hp => AList.lookup_insert_ne ?_
  rintro rfl
  exact absurd hp (by decide)

end

/-! ## Rebuilds that are cut off -/

/-- **A rebuild, cut off anywhere, leaves a state file only beside its writer's notes.** -/
theorem sound_of_cut {s s' : Site} (hs : s.Sound)
    (hcut : Cut (knowledgeDir (notesOf h σ)) (rebuild h now σ []).2 s s') : s'.Sound := by
  rcases rebuild_spec h now σ with ⟨rs, n, files, hread, hfiles, hrun⟩ | ⟨-, e, ops, hops, hrun⟩
  · obtain ⟨-, -, rfl, rfl⟩ := readStructures_ok.1 hread
    have hstaging : ∀ op ∈ Op.removeDir rebuildDir :: writes now files, op.Staging :=
      List.forall_mem_cons.2 ⟨rfl, staging_writes now hfiles⟩
    rw [hrun, List.append_assoc, cut_append, cut_append] at hcut
    rcases hcut with hcut | hcut | hcut
    · exact hcut.keeps (fun op hop => (hstaging op hop).keeps _) hs
    · have hsound := Device.Keeps.run (fun op hop => (hstaging op hop).keeps (notesOf h σ)) hs
      have hswap : swapOps = .removeFile stateFile :: swapOps.tail := rfl
      rw [hswap] at hcut
      rcases hcut with _ | hp | hcut
      · exact hsound
      · intro f hf
        obtain ⟨htree, hass⟩ := hp
        have htree' : s'.tree = _ := htree
        rw [htree'] at hf ⊢
        rw [hass]
        exact hsound f hf
      · exact (hcut.keeps (fun op hop => keeps_stateless (List.mem_of_mem_tail hop))
          (stateless_removeFile _)).sound
    · rw [← Device.run_append] at hcut
      have hass := assembled_swap now (nodup_entities _) hfiles s.tree
      rw [← tree_run (notesOf h σ)] at hass
      have hstateless : ((knowledgeDir (notesOf h σ)).run
          (.removeDir rebuildDir :: writes now files ++ swapOps) s).Stateless := by
        have hswap : swapOps = .removeFile stateFile :: swapOps.tail := rfl
        rw [Device.run_append, hswap, Device.run_cons]
        exact Device.Keeps.run (fun op hop => keeps_stateless (List.mem_of_mem_tail hop))
          (stateless_removeFile _)
      rcases hcut with _ | hp | hcut
      · exact hstateless.sound
      · obtain ⟨⟨k, htree⟩, hwriter⟩ := hp
        refine fun f hf => ⟨notesOf h σ, hwriter.trans (writer_state _ _ _), ?_⟩
        rw [htree]
        exact hass.write _ _
      · obtain rfl := cut_nil.1 hcut
        exact fun f hf => ⟨notesOf h σ, (assembled_whole _ _).trans (writer_state _ _ _), hass.write _ _⟩
  · rw [hrun] at hcut
    exact hcut.keeps (fun op hop => (hops op hop).keeps _) hs

theorem Run.sound {s : Site} (hs : Run h s) : s.Sound := by
  induction hs with
  | fresh t hno => exact Site.Stateless.sound hno
  | attempt σ now _ hcut ih => exact sound_of_cut ih hcut

theorem Site.Sound.honest {s : Site} (hs : s.Sound) : s.Honest h := by
  intro st hst
  unfold state at hst
  split at hst
  · rename_i text htext
    obtain ⟨f, hf, -⟩ := Tree.readToString_ok.1 htext
    exact hs f hf
  · cases hst
  · cases hst

/-! ## Rebuilds that go through -/

theorem mem_structures {r : ActionRecord} : r ∈ (sources h σ).filterMap id ↔ some r ∈ sources h σ := by
  simp

/-- Over a clean tree every note has a file. -/
theorem Clean.placed (hclean : Clean h σ) {n : Note} (hn : n ∈ notesOf h σ) :
    ∃ f, Knowledge.placed h n = .ok f := by
  have hpub := publishable_iff.2 fun r hr hd hne => hclean.legible r (mem_structures.1 hr) hd hne
  refine (placed_iff fun ⟨t, ht⟩ => ?_).2 (hpub n hn)
  exact (render_ok ht).2.1

/-- A rebuild that answers has published the notes of its store. -/
theorem assembled_of_ok {t : Tree} {report : BuildReport} (hok : (rebuilt h now σ t).1 = .ok report) :
    Assembled (rebuilt h now σ t).2 (notesOf h σ) := by
  rcases rebuild_spec h now σ with ⟨rs, n, files, hread, hfiles, hrun⟩ | ⟨-, e, ops, -, hrun⟩
  · obtain ⟨-, -, rfl, -⟩ := readStructures_ok.1 hread
    obtain ⟨bytes, htree⟩ : ∃ bytes, (rebuilt h now σ t).2 = ((Op.removeDir rebuildDir ::
        writes now files ++ swapOps).foldl (fun t op => op.run t) t).write stateFile bytes now := by
      rw [rebuilt, hrun]
      exact ⟨_, List.foldl_append⟩
    rw [htree]
    exact (assembled_swap now (nodup_entities _) hfiles t).write bytes now
  · rw [rebuilt, hrun] at hok
    cases hok

/-- **Knowledge is rebuilt exactly over a clean tree**; and whatever rebuilds leave, cut off
    anywhere, a state file that can be read speaks of the notes beside it. -/
theorem rebuilds_iff (h : Host) (now : ℤ) (σ : Core.Store) (t : Tree) :
    (Rebuilds h now σ t ↔ Clean h σ) ∧ ∀ s, Run h s → s.Honest h := by
  refine ⟨⟨?_, fun hclean => ?_⟩, fun s hs => hs.sound.honest⟩
  · rintro ⟨report, hok, -⟩
    rcases rebuild_spec h now σ with ⟨rs, n, files, hread, hfiles, -⟩ | ⟨-, e, ops, -, hrun⟩
    · obtain ⟨hrecords, hcold, rfl, -⟩ := readStructures_ok.1 hread
      refine ⟨hrecords, hcold, fun r hr hd hne => ?_⟩
      refine publishable_iff.1 (fun m hm => ?_) r (mem_structures.2 hr) hd hne
      exact (placed_iff fun ⟨u, hu⟩ => (render_ok hu).2.1).1 (mapM_ok_mem hfiles m hm)
    · rw [rebuilt, hrun] at hok
      cases hok
  · have hread : readStructures h σ = .ok ((sources h σ).filterMap id, (sources h σ).count none) :=
      readStructures_ok.2 ⟨hclean.records_ok, hclean.cold_ok, rfl, rfl⟩
    rcases rebuild_spec h now σ with ⟨rs, n, files, hread', hfiles, hrun⟩ | ⟨hbad, -⟩
    · obtain ⟨rfl, rfl⟩ := Prod.mk.inj (Except.ok.inj (hread'.symm.trans hread))
      have hok : (rebuilt h now σ t).1 = .ok _ := congrArg Prod.fst hrun
      refine ⟨_, hok, rfl, fun m hm text htext => ?_⟩
      obtain ⟨f, hf⟩ := mapM_ok_mem hfiles m hm
      obtain ⟨p, -, hp, -⟩ := placed_ok.1 hf
      have hlive : Tree.Under liveDir p := by
        rw [(noteWithin_ok.1 hp).1]
        exact Tree.under_append.2 (List.cons_ne_nil _ _)
      exact ⟨p, hp, (assembled_of_ok hok p _ hlive).2 ⟨m, hm, hp, text, htext, rfl⟩⟩
    · obtain ⟨m, hm, hnone⟩ := hbad _ _ hread
      obtain ⟨f, hf⟩ := hclean.placed hm
      exact absurd hf (hnone f)

/-! ## An agent's name that no note can hold -/

section
open Core
set_option maxRecDepth 4000

/-- A deployment that knows tickets. -/
def ticketPipeline : Pipeline :=
  { deployment declaredSubjects with registry := ⟨⟨id, id⟩, [⟨"ticket".toList, fun _ => true, []⟩]⟩ }

/-- A host that reads what that deployment writes. -/
def ticketHost : Host := ⟨ticketPipeline.yaml, fun _ => .error "", fun _ => .error "", fun _ => true⟩

/-- **One record stops knowledge from being rebuilt**: it is admitted, and the note of its
    ticket cannot quote its agent. -/
theorem one_record_stops_knowledge : ¬ ∀ (h : Host) (now : ℤ) (P : Pipeline) (env : Env)
    (r : ActionRecord) (body : Text) (id : RecordId) (σ : Store), h.yaml = P.yaml →
      accept P env r body emptyStore = (.ok (.stored id), σ) → Rebuilds h now σ ∅ := by
  intro h
  have hrun : accept ticketPipeline (quietEnv 0) (ticketRecord "a\x60b".toList) [] emptyStore =
      (.ok (.stored (ticketRecord []).recordId),
        (accept ticketPipeline (quietEnv 0) (ticketRecord "a\x60b".toList) [] emptyStore).2) := by
    refine Prod.ext (ok_of_toOption ?_) rfl
    decide +kernel
  obtain ⟨report, hok, -⟩ := h ticketHost 0 _ _ _ _ _ _ rfl hrun
  have hnone : (rebuilt ticketHost 0 (accept ticketPipeline (quietEnv 0) (ticketRecord "a\x60b".toList) []
      emptyStore).2 ∅).1.toOption.isNone = true := by
    decide +kernel
  rw [hok] at hnone
  cases hnone

end

end Yaam.Knowledge
