/-
  Where records and timelines are filed (`yaam-core`, `layout.rs`; `append_timelines`
  of `pipeline.rs`).

  * `recordRelative` and `ownerRelative` are the names of a record's file and of an
    owner's subtree; `recordRelative_published` ties them to the record tree's paths;
  * `recordPaths`: file names are read back, records are told apart by their paths, and
    no owner's subtree meets another's or the dated tree;
  * `timelineDir` is the directory an entity's timeline is kept in, `ownTimelines_iff`
    when every entity has its own.
-/
import Yaam.Contract.Segment
import Yaam.Core.Fanout
import Yaam.Core.Units
import Yaam.Lib.Pathname
import Yaam.Lib.Quoted

namespace Yaam.Core

open Text Contract

/-! ## Records -/

/-- A record's path relative to the memory root. -/
def recordRelative (r : ActionRecord) (s : Stamp) : Except Error Text := do
  let path ← (if r.visibility = .owner then do
      let segment ← ownerSegment r.agent
      .ok (join (join "records".toList "owner".toList) segment)
    else .ok "records".toList)
  .ok (join (join (join (join path (padInt 4 s.year)) (padInt 2 s.month)) (padInt 2 s.day))
    (recordFile r.recordId))

/-- The subtree of one owner's records, relative to the memory root. -/
def ownerRelative (r : ActionRecord) : Except Error (Option Text) :=
  if r.visibility = .owner then do
    let segment ← ownerSegment r.agent
    .ok (some (join (join "records".toList "owner".toList) segment))
  else .ok none

theorem padNat_ne_nil (w n : ℕ) : padNat w n ≠ [] := by
  rw [padNat, ne_eq, List.append_eq_nil_iff, not_and_or]
  exact .inr (by simp)

theorem plain_padInt (w : ℕ) (n : ℤ) : Plain (padInt w n) := by
  have hno : ∀ c, c ≠ '-' → c.isDigit = false → c ∉ padInt w n := by
    intro c h1 h2 hc
    rcases mem_padInt hc with h | h
    · exact h1 h
    · rw [h2] at h
      cases h
  have hdot : '.' ∉ padInt w n := hno _ (by decide) (by decide)
  refine ⟨?_, ?_, ?_, hno _ (by decide) (by decide)⟩
  · unfold padInt
    split_ifs
    · exact List.cons_ne_nil _ _
    · exact padNat_ne_nil _ _
  · intro h
    exact hdot (by rw [h]; simp)
  · intro h
    exact hdot (by rw [h]; simp)

theorem plain_recordFile (id : RecordId) : Plain (recordFile id) := by
  have hcanon := id.canonical
  rw [isRecordId, Bool.and_eq_true, beq_iff_eq, List.all_eq_true] at hcanon
  have hlen : (recordFile id).length = 29 := by simp [recordFile, hcanon.1, recordExt]
  have hslash : '/' ∉ id.text := fun h => absurd (hcanon.2 _ h) (by decide)
  refine ⟨?_, ?_, ?_, by simp [recordFile, recordExt, hslash]⟩ <;> intro h <;> rw [h] at hlen <;>
    simp at hlen

theorem ownerSegment_ok {agent segment : Text} (h : ownerSegment agent = .ok segment) :
    segment = toPathSegment agent ∧ Plain segment := by
  simp only [ownerSegment] at h
  split_ifs at h with hbad
  cases h
  push Not at hbad
  exact ⟨rfl, hbad.1, hbad.2.1, hbad.2.2.1, slash_notMem_toPathSegment agent⟩

theorem ownerRelative_ok {r : ActionRecord} {d : Text} (h : ownerRelative r = .ok (some d)) :
    splitOn '/' d = ["records".toList, "owner".toList, toPathSegment r.agent] := by
  unfold ownerRelative at h
  split_ifs at h
  · obtain ⟨segment, hseg, h⟩ := bind_ok.1 h
    cases h
    obtain ⟨rfl, hplain⟩ := ownerSegment_ok hseg
    rw [splitOn_join ⟨by decide, by decide⟩ hplain]
    rfl
  · cases h

/-- **A record's name spells its place in the record tree.** -/
theorem recordRelative_published {r : ActionRecord} {s : Stamp} {p : Text}
    (h : recordRelative r s = .ok p) : ∃ q, publishedPath r s = .ok q ∧
      splitOn '/' p = "records".toList :: q ∧ ∀ c ∈ "records".toList :: q, Plain c := by
  unfold recordRelative at h
  obtain ⟨path, hpath, h⟩ := bind_ok.1 h
  cases h
  -- the dated part is the same below either directory
  have hdated : ∀ {base : Text}, Whole base → splitOn '/' (join (join (join (join base
      (padInt 4 s.year)) (padInt 2 s.month)) (padInt 2 s.day)) (recordFile r.recordId)) =
        splitOn '/' base ++ datedPath r.recordId s := by
    intro base hb
    have h1 := whole_join hb (plain_padInt 4 s.year)
    have h2 := whole_join h1 (plain_padInt 2 s.month)
    have h3 := whole_join h2 (plain_padInt 2 s.day)
    rw [splitOn_join h3 (plain_recordFile _), splitOn_join h2 (plain_padInt _ _),
      splitOn_join h1 (plain_padInt _ _), splitOn_join hb (plain_padInt _ _)]
    simp [datedPath]
  have hplain : ∀ c ∈ datedPath r.recordId s, Plain c := by
    simp only [datedPath, List.forall_mem_cons, List.not_mem_nil, false_implies, implies_true,
      plain_padInt, plain_recordFile, and_self]
  unfold publishedPath
  split_ifs at hpath ⊢ with hv
  · obtain ⟨segment, hseg, hpath⟩ := bind_ok.1 hpath
    cases hpath
    have hsegment := (ownerSegment_ok hseg).2
    have hown : Whole (join "records".toList "owner".toList) := ⟨by decide, by decide⟩
    refine ⟨_, by rw [hseg]; rfl, ?_, ?_⟩
    · rw [hdated (whole_join hown hsegment), splitOn_join hown hsegment]
      rfl
    · simp only [List.forall_mem_cons]
      exact ⟨by decide, by decide, hsegment, hplain⟩
  · cases hpath
    refine ⟨_, rfl, ?_, ?_⟩
    · rw [hdated ⟨by decide, by decide⟩]
      rfl
    · exact List.forall_mem_cons.2 ⟨by decide, hplain⟩

theorem stampOf_date {r : ActionRecord} {s : Stamp} (h : stampOf r = .ok s) :
    (s.year, s.month, s.day) = civilFromMs s.ms := by
  unfold stampOf at h
  split at h
  · rename_i s' hs
    cases h
    obtain ⟨ms, -, rfl⟩ := Option.map_eq_some_iff.1 hs
    rfl
  · cases h

/-- Two instants of one date are of one day. -/
theorem day_of_date {ms ms' : ℤ} (h : civilFromMs ms = civilFromMs ms') :
    ms / msPerDay = ms' / msPerDay := by
  rw [← daysFromCivil_civilFromDays (ms / msPerDay), ← daysFromCivil_civilFromDays (ms' / msPerDay)]
  rw [civilFromMs, civilFromMs] at h
  rw [h]

theorem padInt_inj {w : ℕ} {m n : ℤ} (h : padInt w m = padInt w n) : m = n := by
  rw [← readInt_padInt w m, h, readInt_padInt]

theorem datedPath_inj {id id' : RecordId} {s s' : Stamp} (h : datedPath id s = datedPath id' s') :
    id = id' ∧ (s.year, s.month, s.day) = (s'.year, s'.month, s'.day) := by
  simp only [datedPath, List.cons.injEq, and_true] at h
  obtain ⟨hy, hm, hd, hfile⟩ := h
  have hid : id.text = id'.text := List.append_cancel_right hfile
  refine ⟨?_, by rw [padInt_inj hy, padInt_inj hm, padInt_inj hd]⟩
  cases id
  cases id'
  exact RecordId.mk.injEq .. ▸ hid

/-- A date does not name the owners' directory. -/
theorem padInt_ne_owner (w : ℕ) (n : ℤ) : padInt w n ≠ "owner".toList := by
  intro h
  have : 'o' ∈ padInt w n := by rw [h]; simp
  rcases mem_padInt this with h | h
  · exact absurd h (by decide)
  · exact absurd h (by decide)

/-- What is promised of the names of records' files. -/
structure RecordPaths : Prop where
  decoded : ∀ id, fromPathSegment (toPathSegment id) = .ok id
  encoded : ∀ segment id, fromPathSegment segment = .ok id → toPathSegment id = segment
  inside : ∀ r s p, recordRelative r s = .ok p → ¬ Absolute p ∧ "records/".toList <+: p ∧
    ∀ c ∈ splitOn '/' p, c ≠ ".".toList ∧ c ≠ "..".toList
  /-- Two records of one path are one record of one day, seen by the same. -/
  unshared : ∀ r r' s s' p p', stampOf r = .ok s → stampOf r' = .ok s' →
    recordRelative r s = .ok p → recordRelative r' s' = .ok p' → splitOn '/' p = splitOn '/' p' →
      r.recordId = r'.recordId ∧ s.ms / msPerDay = s'.ms / msPerDay ∧
        (r.visibility = .owner ↔ r'.visibility = .owner) ∧
        (r.visibility = .owner → r.agent = r'.agent)
  ownersApart : ∀ r r' d d', ownerRelative r = .ok (some d) → ownerRelative r' = .ok (some d') →
    r.agent ≠ r'.agent → ¬ splitOn '/' d <+: splitOn '/' d'
  /-- No directory that a shared record lies in is an owner's, or in it. -/
  sharedApart : ∀ r d r' s' p, ownerRelative r = .ok (some d) → r'.visibility ≠ .owner →
    recordRelative r' s' = .ok p → ∀ dir, dir <+: splitOn '/' p → ¬ splitOn '/' d <+: dir

theorem recordRelative_inside {r : ActionRecord} {s : Stamp} {p : Text}
    (h : recordRelative r s = .ok p) : ¬ Absolute p ∧ "records/".toList <+: p ∧
      ∀ c ∈ splitOn '/' p, c ≠ ".".toList ∧ c ≠ "..".toList := by
  obtain ⟨q, hq, hsplit, hplain⟩ := recordRelative_published h
  obtain ⟨dir, rfl⟩ := publishedPath_ok hq
  have hp : p = "records/".toList ++ joinWith '/' (dir ++ [recordFile r.recordId]) := by
    rw [← joinWith_splitOn '/' p, hsplit]
    cases dir <;> rfl
  refine ⟨?_, ⟨_, hp.symm⟩, ?_⟩
  · rw [hp]
    exact fun ha => by cases ha
  · rw [hsplit]
    exact fun c hc => ⟨(hplain c hc).2.1, (hplain c hc).2.2.1⟩

theorem recordRelative_unshared {r r' : ActionRecord} {s s' : Stamp} {p p' : Text}
    (hs : stampOf r = .ok s) (hs' : stampOf r' = .ok s') (h : recordRelative r s = .ok p)
    (h' : recordRelative r' s' = .ok p') (hp : splitOn '/' p = splitOn '/' p') :
    r.recordId = r'.recordId ∧ s.ms / msPerDay = s'.ms / msPerDay ∧
      (r.visibility = .owner ↔ r'.visibility = .owner) ∧
      (r.visibility = .owner → r.agent = r'.agent) := by
  obtain ⟨q, hq, hsplit, -⟩ := recordRelative_published h
  obtain ⟨q', hq', hsplit', -⟩ := recordRelative_published h'
  obtain rfl : q = q' := by
    rw [hsplit, hsplit'] at hp
    exact (List.cons.inj hp).2
  have hday : ∀ {id id' : RecordId}, datedPath id s = datedPath id' s' →
      id = id' ∧ s.ms / msPerDay = s'.ms / msPerDay := by
    intro id id' hd
    obtain ⟨hid, hdate⟩ := datedPath_inj hd
    rw [stampOf_date hs, stampOf_date hs'] at hdate
    exact ⟨hid, day_of_date hdate⟩
  unfold publishedPath at hq hq'
  split_ifs at hq hq' with hv hv' hv'
  · obtain ⟨seg, hseg, hq⟩ := bind_ok.1 hq
    obtain ⟨seg', hseg', hq'⟩ := bind_ok.1 hq'
    obtain rfl := (Except.ok.inj hq).symm
    obtain ⟨-, htail⟩ := List.cons.inj (Except.ok.inj hq')
    obtain ⟨hsegs, hdated⟩ := List.cons.inj htail
    rw [(ownerSegment_ok hseg).1, (ownerSegment_ok hseg').1] at hsegs
    exact ⟨(hday hdated.symm).1, (hday hdated.symm).2, by simp [hv, hv'],
      fun _ => (toPathSegment_inj hsegs).symm⟩
  · obtain ⟨seg, -, hq⟩ := bind_ok.1 hq
    obtain rfl := (Except.ok.inj hq).symm
    exact absurd (List.cons.inj (Except.ok.inj hq')).1 (padInt_ne_owner _ _)
  · obtain ⟨seg, -, hq'⟩ := bind_ok.1 hq'
    obtain rfl := (Except.ok.inj hq).symm
    exact absurd (List.cons.inj (Except.ok.inj hq')).1.symm (padInt_ne_owner _ _)
  · obtain rfl := (Except.ok.inj hq).symm
    have hd := hday (Except.ok.inj hq').symm
    exact ⟨hd.1, hd.2, by simp [hv, hv'], fun h => absurd h hv⟩

/-- **Records are told apart by their paths, and stay inside the record tree.** -/
theorem recordPaths : RecordPaths where
  decoded := fromPathSegment_toPathSegment
  encoded _ _ := toPathSegment_of_fromPathSegment
  inside _ _ _ := recordRelative_inside
  unshared _ _ _ _ _ _ := recordRelative_unshared
  ownersApart r r' d d' hd hd' hne hpre := by
    rw [ownerRelative_ok hd, ownerRelative_ok hd'] at hpre
    have heq := hpre.eq_of_length rfl
    simp only [List.cons.injEq, and_true, true_and] at heq
    exact hne (toPathSegment_inj heq)
  sharedApart r d r' s' p hd hv hp dir hdir hpre := by
    obtain ⟨q, hq, hsplit, -⟩ := recordRelative_published hp
    rw [publishedPath, if_neg hv] at hq
    obtain rfl := (Except.ok.inj hq).symm
    obtain ⟨rest, hrest⟩ := hpre.trans hdir
    rw [ownerRelative_ok hd, hsplit] at hrest
    obtain ⟨-, hrest⟩ := List.cons.inj hrest
    exact padInt_ne_owner _ _ (List.cons.inj hrest).1.symm

/-! ## Timelines -/

/-- The name of the directory that holds the timelines of one kind. -/
def kindName (root kind : Text) : Text := join (join root "entities".toList) kind

/-- The name of the directory `append_timelines` keeps an entity's timeline in. -/
def timelineName (root kind id : Text) : Text := join (kindName root kind) (toPathSegment id)

def entitiesDir (root : Text) : Path := resolve (join root "entities".toList)

/-- The directory a kind's name leads to. -/
def kindDir (root kind : Text) : Path := resolve (kindName root kind)

/-- The directory an entity's timeline is kept in. -/
def timelineDir (root kind id : Text) : Path := resolve (timelineName root kind id)

/-- The names of an entity's timeline files: the head and the frozen parts. -/
def TimelineFile (name : Text) : Prop :=
  name = timelineHead ∨ ∃ n, name = timelinePart ++ padNat 4 n ++ ".md".toList

/-- A file that is written for an entity. -/
def WrittenFor (root kind id : Text) (p : Path) : Prop :=
  ∃ name, TimelineFile name ∧ p = timelineDir root kind id ++ [name]

/-- A file that is looked at for an entity: its directory is walked for the next
    part's number, its head measured, frozen and appended to. -/
def SeenFor (root kind id : Text) (p : Path) : Prop := Tree.Under (timelineDir root kind id) p

/-- An entity's directory lies below its kind's, which lies in `entities/`. -/
structure Housed (root kind id : Text) : Prop where
  inside : entitiesDir root <+: kindDir root kind
  below : Tree.Under (kindDir root kind) (timelineDir root kind id)

/-- Two entities have directories of their own. -/
structure OwnDirectories (root kind id kind' id' : Text) : Prop where
  housed : Housed root kind id ∧ Housed root kind' id'
  distinct : timelineDir root kind id ≠ timelineDir root kind' id'
  unnested : ¬ Tree.Under (timelineDir root kind id) (timelineDir root kind' id') ∧
    ¬ Tree.Under (timelineDir root kind' id') (timelineDir root kind id)
  unmixed : ∀ p, (WrittenFor root kind id p → ¬ SeenFor root kind' id' p) ∧
    (WrittenFor root kind' id' p → ¬ SeenFor root kind id p)

/-- What a registry admits: the canonical identifiers of a kind. -/
def AdmitsEntity (R : Registry) (kind id : Text) : Prop := ∃ given, R.canonicalise kind given = .ok id

/-- Every two entities that a registry admits have directories of their own. -/
def OwnTimelines (R : Registry) (root : Text) : Prop :=
  ∀ kind id kind' id', AdmitsEntity R kind id → AdmitsEntity R kind' id' → (kind, id) ≠ (kind', id') →
    OwnDirectories root kind id kind' id'

/-- An identifier that does not stand for a directory itself. -/
def NamesEntry (id : Text) : Prop := id ≠ [] ∧ id ≠ ".".toList ∧ id ≠ "..".toList

/-- The names of two entities keep them apart: no identifier is blank, `.` or `..`, no
    kind leads out of `entities/`, kinds of one directory have different identifiers, and
    neither kind leads into the other entity's directory. -/
structure PlainlyNamed (root kind id kind' id' : Text) : Prop where
  ids : NamesEntry id ∧ NamesEntry id'
  kinds : entitiesDir root <+: kindDir root kind ∧ entitiesDir root <+: kindDir root kind'
  distinct : kindDir root kind = kindDir root kind' → id ≠ id'
  outside : ¬ kindDir root kind ++ [toPathSegment id] <+: kindDir root kind' ∧
    ¬ kindDir root kind' ++ [toPathSegment id'] <+: kindDir root kind

theorem join_ne_nil {base name : Text} (h : base ≠ [] ∨ name ≠ []) : join base name ≠ [] := by
  unfold join
  split_ifs with ha hb
  · rintro rfl
    cases ha
  · rcases h with h | h <;> simp [h]
  · simp

theorem toPathSegment_eq {id : Text} (h : id ∈ [[], ".".toList, "..".toList]) :
    toPathSegment id = id := by
  simp only [List.mem_cons, List.not_mem_nil, or_false] at h
  rcases h with rfl | rfl | rfl <;> rfl

theorem NamesEntry.plain {id : Text} (h : NamesEntry id) : Plain (toPathSegment id) := by
  have hne : ∀ t ∈ [[], ".".toList, "..".toList], id ≠ t → toPathSegment id ≠ t := by
    intro t ht hid heq
    rw [← toPathSegment_eq ht] at heq
    exact hid (toPathSegment_inj heq)
  exact ⟨hne _ (by simp) h.1, hne _ (by simp) h.2.1, hne _ (by simp) h.2.2,
    slash_notMem_toPathSegment id⟩

theorem timelineDir_eq (root kind id : Text) :
    timelineDir root kind id = stepInto (kindDir root kind) (toPathSegment id) := by
  have hrel : ¬ Absolute (toPathSegment id) := fun h =>
    slash_notMem_toPathSegment id (List.mem_of_mem_head? h)
  have hbase : kindName root kind ≠ [] := join_ne_nil (.inl (join_ne_nil (.inr (by decide))))
  rw [timelineDir, timelineName, resolve_join hbase hrel, walk,
    splitOn_of_notMem (slash_notMem_toPathSegment id)]
  rfl

theorem NamesEntry.timelineDir {id : Text} (h : NamesEntry id) (root kind : Text) :
    timelineDir root kind id = kindDir root kind ++ [toPathSegment id] := by
  rw [timelineDir_eq, h.plain.stepInto]

/-- An identifier names an entry exactly when its directory lies below its kind's. -/
theorem namesEntry_iff (root kind id : Text) :
    Tree.Under (kindDir root kind) (timelineDir root kind id) ↔ NamesEntry id := by
  constructor
  · intro h
    rw [timelineDir_eq] at h
    have hlen := h.1.length_le
    refine ⟨?_, ?_, ?_⟩
    · rintro rfl
      exact h.2 rfl
    · rintro rfl
      exact h.2 rfl
    · rintro rfl
      have hdots : stepInto (kindDir root kind) (toPathSegment "..".toList) =
        (kindDir root kind).dropLast := rfl
      rw [hdots] at h
      exact h.2 (h.1.eq_of_length_le (by simp)).symm
  · intro h
    rw [h.timelineDir]
    exact Tree.under_concat _ _

theorem concat_prefix_concat {K K' : Path} {s s' : Text} :
    K ++ [s] <+: K' ++ [s'] ↔ K ++ [s] <+: K' ∨ (K = K' ∧ s = s') := by
  rw [List.prefix_concat_iff, or_comm]
  simp

/-- **Two entities have timelines of their own exactly when they are plainly named.** -/
theorem ownDirectories_iff (root kind id kind' id' : Text) :
    OwnDirectories root kind id kind' id' ↔ PlainlyNamed root kind id kind' id' := by
  constructor
  · intro h
    have hid := (namesEntry_iff root kind id).1 h.housed.1.below
    have hid' := (namesEntry_iff root kind' id').1 h.housed.2.below
    have hd := hid.timelineDir root kind
    have hd' := hid'.timelineDir root kind'
    refine ⟨⟨hid, hid'⟩, ⟨h.housed.1.inside, h.housed.2.inside⟩, ?_, ?_, ?_⟩
    · rintro hk rfl
      exact h.distinct (by rw [hd, hd', hk])
    · intro hpre
      refine h.unnested.1 ⟨?_, Ne.symm h.distinct⟩
      rw [hd, hd']
      exact hpre.trans (List.prefix_append _ _)
    · intro hpre
      refine h.unnested.2 ⟨?_, h.distinct⟩
      rw [hd, hd']
      exact hpre.trans (List.prefix_append _ _)
  · intro h
    have hd := h.ids.1.timelineDir root kind
    have hd' := h.ids.2.timelineDir root kind'
    -- neither directory is the other or lies on the way to it
    have h1 : ¬ timelineDir root kind id <+: timelineDir root kind' id' := by
      rw [hd, hd', concat_prefix_concat]
      rintro (hpre | ⟨hk, hseg⟩)
      · exact h.outside.1 hpre
      · exact h.distinct hk (toPathSegment_inj hseg)
    have h2 : ¬ timelineDir root kind' id' <+: timelineDir root kind id := by
      rw [hd, hd', concat_prefix_concat]
      rintro (hpre | ⟨hk, hseg⟩)
      · exact h.outside.2 hpre
      · exact h.distinct hk.symm (toPathSegment_inj hseg).symm
    have hfile : ∀ {d d' : Path} {name : Text}, ¬ d' <+: d → ¬ d <+: d' →
        ¬ Tree.Under d' (d ++ [name]) := by
      rintro d d' name hn hn' ⟨hpre, hne⟩
      rcases List.prefix_concat_iff.1 hpre with heq | hpre
      · exact hne heq.symm
      · exact hn hpre
    refine ⟨⟨⟨h.kinds.1, (namesEntry_iff root kind id).2 h.ids.1⟩,
      ⟨h.kinds.2, (namesEntry_iff root kind' id').2 h.ids.2⟩⟩, ?_, ⟨fun hu => h1 hu.1,
      fun hu => h2 hu.1⟩, fun p => ⟨?_, ?_⟩⟩
    · intro heq
      exact h1 (by rw [heq])
    · rintro ⟨name, -, rfl⟩
      exact hfile h2 h1
    · rintro ⟨name, -, rfl⟩
      exact hfile h1 h2

/-- **A registry's entities have timelines of their own exactly when all it admits are
    plainly named.** -/
theorem ownTimelines_iff (R : Registry) (root : Text) : OwnTimelines R root ↔
    ∀ kind id kind' id', AdmitsEntity R kind id → AdmitsEntity R kind' id' → (kind, id) ≠ (kind', id') →
      PlainlyNamed root kind id kind' id' := by
  simp only [OwnTimelines, ownDirectories_iff]

theorem kindDir_plain {kind : Text} (h : Plain kind) (root : Text) :
    kindDir root kind = entitiesDir root ++ [kind] := by
  have hbase : join root "entities".toList ≠ [] := join_ne_nil (.inr (by decide))
  rw [kindDir, kindName, resolve_join hbase h.not_absolute, h.walk]
  rfl

/-- A plainly named entity's timeline is where the fan-out's tree has it. -/
theorem timelineDir_entityDir {e : EntityRef} (hk : Plain e.kind) (hid : NamesEntry e.id)
    (root : Text) : timelineDir root e.kind e.id = entitiesDir root ++ entityDir e := by
  rw [hid.timelineDir, kindDir_plain hk, entityDir]
  simp

/-- Kinds of one component and identifiers that name entries are enough. -/
theorem ownTimelines_of_plain {R : Registry} (h : ∀ kind id, AdmitsEntity R kind id →
    Plain kind ∧ NamesEntry id) (root : Text) : OwnTimelines R root := by
  refine (ownTimelines_iff R root).2 fun kind id kind' id' ha ha' hne => ?_
  have hk := kindDir_plain (h kind id ha).1 root
  have hk' := kindDir_plain (h kind' id' ha').1 root
  have hlong : ∀ {a b : Text} {s : Text}, ¬ (entitiesDir root ++ [a]) ++ [s] <+: entitiesDir root ++ [b] := by
    intro a b s hpre
    have := hpre.length_le
    simp at this
  refine ⟨⟨(h kind id ha).2, (h kind' id' ha').2⟩, ?_, ?_, ?_, ?_⟩
  · rw [hk, hk']
    exact ⟨List.prefix_append _ _, List.prefix_append _ _⟩
  · rintro heq rfl
    rw [hk, hk'] at heq
    exact hne (by rw [List.append_cancel_left heq |> List.cons.inj |>.1])
  · rw [hk, hk']
    exact hlong
  · rw [hk, hk']
    exact hlong

/-- `^[A-Za-z0-9._:-]{1,64}$`, trimmed. -/
def chatChannel : KindSpec := { chatUser with name := "chat_channel".toList }

def chatRegistry : Registry := ⟨plainHashing.casing, [chatUser, chatChannel]⟩

/-- **A user and a channel named `..` share the directory of all entities.** -/
theorem dotted_entities_share : ¬ ∀ R root, OwnTimelines R root := by
  intro h
  have huser : AdmitsEntity chatRegistry "chat_user".toList "..".toList := ⟨"..".toList, by rfl⟩
  have hchannel : AdmitsEntity chatRegistry "chat_channel".toList "..".toList :=
    ⟨"..".toList, by rfl⟩
  exact (h chatRegistry "/memory".toList _ _ _ _ huser hchannel (by decide)).distinct (by decide)

end Yaam.Core
