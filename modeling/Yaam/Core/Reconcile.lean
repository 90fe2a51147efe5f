/-
  What a reconcile of the key store leaves.

  * `resurrectedKeys` counts the key files of erased subjects, `Named` is what either
    account of the erasures names;
  * `settleKeys` is what a reconcile does to the key store for one subject;
  * `reconcile_reconciles`: a reconcile does what it reports when every key file of an
    erased subject lies directly in the subject's own directory, and on a key root
    without nested directories only then.
-/
import Yaam.Core.Retain
import Yaam.Core.Resolve

namespace Yaam.Core

open Text Contract Crypto Eff

/-- Whether a reconcile walked something back. -/
def Reconciliation.undidSomething (r : Reconciliation) : Bool :=
  0 < r.subjectsResurrected || 0 < r.blocklistRestored

/-- Key files standing for erased subjects. -/
def resurrectedKeys (P : Pipeline) : StoreM ℕ := do
  let subjects ← erasedSubjects P
  let keys := (← state).keys
  return (subjects.map (keyFilesFor keys)).sum

/-- One of the two accounts, the blocklist or the log, names a subject. -/
def Named (P : Pipeline) (σ : Store) (s : SubjectHash) : Prop :=
  s.text ∈ σ.keys.entryNames [tombstonesDir] ∨
    ∃ es, LineLog.entries P.tombstoneLine σ.tombstoneLog = .ok es ∧ ∃ e ∈ es, e.subject = s.text

/-- A path whose directory is named for a subject. -/
def KeyFileOf (s : SubjectHash) (p : Path) : Prop := p.dropLast.getLast? = some s.text

instance (s : SubjectHash) (p : Path) : Decidable (KeyFileOf s p) :=
  inferInstanceAs (Decidable (_ = _))

theorem KeyFileOf.unique {s s' : SubjectHash} {p : Path} (h : KeyFileOf s p) (h' : KeyFileOf s' p) :
    s = s' := SubjectHash.ext_text (Option.some.inj (h.symm.trans h'))

/-- A marker is no key file. -/
theorem not_keyFileOf_tombstone (s s' : SubjectHash) : ¬ KeyFileOf s (tombstonePath s') := by
  intro h
  have hlen := s.length_text
  rw [← (Option.some.inj h : tombstonesDir = s.text)] at hlen
  exact absurd hlen (by decide)

theorem keyFileOf_concat (s : SubjectHash) (label : Text) : KeyFileOf s (subjectDir s ++ [label]) := by
  simp [KeyFileOf, subjectDir]

/-! ## The subjects a reconcile walks -/

theorem subjectNamed_ok {name : Text} {detail : String} {s : SubjectHash} :
    subjectNamed name detail = .ok s ↔ s.text = name := by
  unfold subjectNamed
  constructor
  · intro h
    split at h
    · rename_i hs
      cases h
      exact SubjectHash.parse_ok hs
    · cases h
  · rintro rfl
    rw [SubjectHash.parse_text]

variable {P : Pipeline} {env : Env} {σ σ' : Store}

theorem liftContract_parse_ok {t : Text} {s : SubjectHash} :
    liftContract (SubjectHash.parse t) = .ok s ↔ s.text = t := by
  rw [liftContract, mapError_ok]
  constructor
  · exact SubjectHash.parse_ok
  · rintro rfl
    exact SubjectHash.parse_text s

/-- The walk is over the named subjects, each once. -/
theorem erasedSubjects_ok {ss : List SubjectHash} (h : erasedSubjects P σ = (.ok ss, σ')) :
    σ = σ' ∧ ss.Nodup ∧ ∀ s, s ∈ ss ↔ Named P σ s := by
  obtain ⟨blocked, σ₁, h1, h⟩ := bind_eq_ok.1 h
  obtain ⟨log, σ₂, h2, h⟩ := bind_eq_ok.1 h
  obtain ⟨logged, σ₃, h3, h⟩ := bind_eq_ok.1 h
  obtain ⟨rfl, rfl⟩ := pure_eq_ok.1 h
  obtain ⟨hlogged, rfl⟩ := ofExcept_eq_ok.1 h3
  obtain ⟨t, ht, rfl⟩ := zoom_eq_ok.1 h1
  have ht' := mapError_eq_ok.1 ht
  rw [tombstonedSubjects, state_bind] at ht'
  obtain ⟨hblocked, rfl⟩ := ofExcept_eq_ok.1 ht'
  have hlog : LineLog.entries P.tombstoneLine σ.tombstoneLog = .ok log ∧ σ = σ₂ := by
    rw [readLog, state_bind] at h2
    cases he : LineLog.entries P.tombstoneLine σ.tombstoneLog with
    | error e =>
      rw [he] at h2
      exact absurd h2 fail_ne_ok
    | ok es =>
      rw [he] at h2
      obtain ⟨rfl, rfl⟩ := pure_eq_ok.1 h2
      exact ⟨rfl, rfl⟩
  obtain ⟨hes, rfl⟩ := hlog
  refine ⟨rfl, List.nodup_dedup _, fun s => ?_⟩
  rw [List.mem_dedup, List.mem_insertionSort, List.mem_append, mapM_ok_iff hblocked,
    mapM_ok_iff hlogged]
  simp only [subjectNamed_ok, liftContract_parse_ok, Named, hes, Except.ok.injEq, exists_eq_left']
  constructor
  · rintro (⟨name, hname, rfl⟩ | ⟨e, he, hs⟩)
    · exact .inl hname
    · exact .inr ⟨e, he, hs.symm⟩
  · rintro (hname | ⟨e, he, hs⟩)
    · exact .inl ⟨_, hname, rfl⟩
    · exact .inr ⟨e, he, hs.symm⟩

/-! ## One subject -/

/-- The key store after a marker is made sure of. -/
def markKeys (now : ℤ) (t : Tree) (s : SubjectHash) : Tree :=
  if tombstonePath s ∈ t then t else t.write (tombstonePath s) [] now

/-- The key store after a reconcile has settled one subject. -/
def settleKeys (now : ℤ) (t : Tree) (s : SubjectHash) : Tree :=
  if 0 < keyFilesFor t s then (markKeys now t s).removeDirAll (subjectDir s) else markKeys now t s

/-- The report after one subject. -/
def Reconciliation.count (r : Reconciliation) (t : Tree) (s : SubjectHash) : Reconciliation where
  subjectsErased := r.subjectsErased + 1
  subjectsResurrected := r.subjectsResurrected + if 0 < keyFilesFor t s then 1 else 0
  keysDestroyed := r.keysDestroyed + keyFilesFor t s
  blocklistRestored := r.blocklistRestored + if tombstonePath s ∈ t then 0 else 1

/-- The count of a subject's key files depends on nothing else. -/
theorem keyFilesFor_congr {t u : Tree} {s : SubjectHash}
    (h : ∀ p, KeyFileOf s p → (p ∈ t ↔ p ∈ u)) : keyFilesFor t s = keyFilesFor u s := by
  unfold keyFilesFor
  refine List.Perm.length_eq ((List.perm_ext_iff_of_nodup (t.keys_nodup.filter _)
    (u.keys_nodup.filter _)).2 fun p => ?_)
  simp only [List.mem_filter, decide_eq_true_eq]
  constructor
  · rintro ⟨hp, hk⟩
    exact ⟨(h p hk).1 hp, hk⟩
  · rintro ⟨hp, hk⟩
    exact ⟨(h p hk).2 hp, hk⟩

theorem keyFilesFor_pos {t : Tree} {s : SubjectHash} :
    0 < keyFilesFor t s ↔ ∃ p ∈ t, KeyFileOf s p := by
  simp only [keyFilesFor, List.length_pos_iff_exists_mem, List.mem_filter, AList.mem_keys,
    decide_eq_true_eq]
  exact Iff.rfl

theorem mem_markKeys {now : ℤ} {t : Tree} {s : SubjectHash} {p : Path} :
    p ∈ markKeys now t s ↔ p = tombstonePath s ∨ p ∈ t := by
  unfold markKeys
  split_ifs with h
  · constructor
    · exact .inr
    · rintro (rfl | hp)
      · exact h
      · exact hp
  · rw [Tree.write, AList.mem_insert]

theorem lookup_markKeys {now : ℤ} {t : Tree} {s : SubjectHash} {p : Path} {f : File}
    (h : t.lookup p = some f) : (markKeys now t s).lookup p = some f := by
  unfold markKeys
  split_ifs with hm
  · exact h
  · have hne : p ≠ tombstonePath s := by
      rintro rfl
      exact hm (Tree.mem_iff_lookup.2 ⟨f, h⟩)
    rw [Tree.write, AList.lookup_insert_ne hne, h]

theorem keyFilesFor_markKeys (now : ℤ) (t : Tree) (s s' : SubjectHash) :
    keyFilesFor (markKeys now t s) s' = keyFilesFor t s' := by
  refine keyFilesFor_congr fun p hp => ?_
  rw [mem_markKeys, or_iff_right]
  rintro rfl
  exact not_keyFileOf_tombstone s' s hp

theorem reconcileSubject_apply (r : Reconciliation) (s : SubjectHash) (σ : Store) :
    reconcileSubject P env r s σ =
      (.ok (r.count σ.keys s), { σ with keys := settleKeys env.now σ.keys s }) := by
  have hm : keyed (isTombstoned s) σ = (.ok (decide (tombstonePath s ∈ σ.keys)), σ) :=
    keyed_isTombstoned s σ
  rw [reconcileSubject, bind_of_ok hm]
  by_cases hmark : tombstonePath s ∈ σ.keys
  · have hkeys : markKeys env.now σ.keys s = σ.keys := if_pos hmark
    by_cases hpos : 0 < keyFilesFor σ.keys s
    · simp only [hmark, decide_true, if_true, Bool.true_eq_false, if_false, hpos, settleKeys, hkeys,
        Reconciliation.count]
      simp only [state_bind, hpos, if_true]
      rfl
    · simp only [hmark, decide_true, if_true, Bool.true_eq_false, if_false, hpos, settleKeys, hkeys,
        Reconciliation.count]
      simp only [state_bind, hpos, if_false]
      rfl
  · have hkeys : markKeys env.now σ.keys s = σ.keys.write (tombstonePath s) [] env.now := if_neg hmark
    have hcount := keyFilesFor_markKeys env.now σ.keys s s
    rw [hkeys] at hcount
    have hmarked : keyed ((P.keys env).tombstone s) σ =
        (.ok (), { σ with keys := σ.keys.write (tombstonePath s) [] env.now }) := by
      have : (fun t : Tree => if tombstonePath s ∈ t then t else
          t.write (tombstonePath s) [] (P.keys env).now) σ.keys =
          σ.keys.write (tombstonePath s) [] env.now := if_neg hmark
      show (Except.ok (), _) = _
      rw [← this]
      rfl
    by_cases hpos : 0 < keyFilesFor σ.keys s
    · simp only [hmark, decide_false, if_true, hpos, settleKeys, hkeys, Reconciliation.count,
        Bool.false_eq_true, if_false]
      rw [bind_of_ok hmarked, state_bind]
      simp only [hcount, hpos, if_true]
      rfl
    · simp only [hmark, decide_false, if_true, hpos, settleKeys, hkeys, Reconciliation.count,
        Bool.false_eq_true, if_false]
      rw [bind_of_ok hmarked, state_bind]
      simp only [hcount, hpos, if_false]
      rfl

/-- A path no walked subject's directory holds stays. -/
theorem lookup_settleKeys {now : ℤ} {t : Tree} {s : SubjectHash} {p : Path} {f : File}
    (hp : ¬ (0 < keyFilesFor t s ∧ Tree.Under (subjectDir s) p)) (h : t.lookup p = some f) :
    (settleKeys now t s).lookup p = some f := by
  unfold settleKeys
  split_ifs with hpos
  · rw [Tree.lookup_removeDirAll, if_neg fun hu => hp ⟨hpos, hu⟩]
    exact lookup_markKeys h
  · exact lookup_markKeys h

theorem mem_settleKeys {now : ℤ} {t : Tree} {s : SubjectHash} {p : Path} :
    p ∈ settleKeys now t s ↔
      (p = tombstonePath s ∨ p ∈ t) ∧ ¬ (0 < keyFilesFor t s ∧ Tree.Under (subjectDir s) p) := by
  unfold settleKeys
  split_ifs with hpos
  · rw [Tree.mem_removeDirAll, mem_markKeys]
    simp [hpos]
  · rw [mem_markKeys]
    simp [hpos]

/-! ## The walk -/

/-- The key store after subjects are settled in order. -/
def settleAll (now : ℤ) (t : Tree) (ss : List SubjectHash) : Tree := ss.foldl (settleKeys now) t

def countAll (now : ℤ) : Reconciliation → Tree → List SubjectHash → Reconciliation
  | r, _, [] => r
  | r, t, s :: ss => countAll now (r.count t s) (settleKeys now t s) ss

theorem foldlM_reconcileSubject (r : Reconciliation) (ss : List SubjectHash) (σ : Store) :
    ss.foldlM (reconcileSubject P env) r σ =
      (.ok (countAll env.now r σ.keys ss), { σ with keys := settleAll env.now σ.keys ss }) := by
  induction ss generalizing r σ with
  | nil => rfl
  | cons s ss ih =>
    rw [List.foldlM_cons, bind_of_ok (reconcileSubject_apply r s σ), ih]
    rfl

/-- Every key file of these subjects lies directly in the subject's own directory,
    with nothing nested beside it. -/
def InPlace (t : Tree) (ss : List SubjectHash) : Prop :=
  ∀ s ∈ ss, (∀ p ∈ t, KeyFileOf s p → Tree.Under (subjectDir s) p) ∧
    (0 < keyFilesFor t s → ∀ p ∈ t, Tree.Under (subjectDir s) p → KeyFileOf s p)

variable {now : ℤ} {t : Tree} {s : SubjectHash} {ss : List SubjectHash}

theorem keyFilesFor_settleKeys (hin : InPlace t [s]) {s' : SubjectHash} (hne : s' ≠ s) :
    keyFilesFor (settleKeys now t s) s' = keyFilesFor t s' := by
  refine keyFilesFor_congr fun p hp => ?_
  rw [mem_settleKeys, or_iff_right (by rintro rfl; exact not_keyFileOf_tombstone _ _ hp)]
  refine ⟨And.left, fun h => ⟨h, fun ⟨hpos, hu⟩ => hne ?_⟩⟩
  exact hp.unique ((hin s (by simp)).2 hpos p h hu)

theorem InPlace.tail (h : InPlace t (s :: ss)) (hnd : (s :: ss).Nodup) :
    InPlace (settleKeys now t s) ss := by
  intro s' hs'
  have hne : s' ≠ s := by
    rintro rfl
    exact (List.nodup_cons.1 hnd).1 hs'
  have hin : InPlace t [s] := fun k hk => h k (by simp [List.mem_singleton.1 hk])
  obtain ⟨h1, h2⟩ := h s' (by simp [hs'])
  have hmem : ∀ p ∈ settleKeys now t s, p ≠ tombstonePath s → p ∈ t := fun p hp hm =>
    (mem_settleKeys.1 hp).1.resolve_left hm
  constructor
  · intro p hp hk
    refine h1 p (hmem p hp ?_) hk
    rintro rfl
    exact not_keyFileOf_tombstone _ _ hk
  · intro hpos p hp hu
    rw [keyFilesFor_settleKeys hin hne] at hpos
    refine h2 hpos p (hmem p hp ?_) hu
    rintro rfl
    exact not_under_tombstone _ _ hu

/-- What settling subjects leaves of a key store: the files of the others, and every
    marker. -/
structure Settled (t : Tree) (ss : List SubjectHash) (t' : Tree) : Prop where
  kept : ∀ p f, t.lookup p = some f → (∀ s ∈ ss, ¬ KeyFileOf s p) → t'.lookup p = some f
  only : ∀ p ∈ t', p ∈ t ∨ ∃ s ∈ ss, p = tombstonePath s
  gone : ∀ p ∈ t', ∀ s ∈ ss, ¬ KeyFileOf s p
  marked : ∀ s ∈ ss, tombstonePath s ∈ t'

theorem settleAll_settled (h : InPlace t ss) (hnd : ss.Nodup) :
    Settled t ss (settleAll now t ss) := by
  induction ss generalizing t with
  | nil => exact ⟨fun _ _ hp _ => hp, fun _ hp => .inl hp, fun _ _ _ h => (by cases h), nofun⟩
  | cons s ss ih =>
    obtain ⟨k1, k2, k3, k4⟩ := ih (h.tail hnd) (List.nodup_cons.1 hnd).2
    obtain ⟨h1, h2⟩ := h s (by simp)
    have hgone : ∀ p ∈ settleKeys now t s, ¬ KeyFileOf s p := by
      intro p hp hk
      obtain ⟨hp, hn⟩ := mem_settleKeys.1 hp
      have hpt : p ∈ t := hp.resolve_left (by rintro rfl; exact not_keyFileOf_tombstone _ _ hk)
      exact hn ⟨keyFilesFor_pos.2 ⟨p, hpt, hk⟩, h1 p hpt hk⟩
    have hmark : tombstonePath s ∈ settleKeys now t s :=
      mem_settleKeys.2 ⟨.inl rfl, fun hu => not_under_tombstone _ _ hu.2⟩
    refine ⟨fun p f hp hk => ?_, fun p hp => ?_, fun p hp s' hs' => ?_, fun s' hs' => ?_⟩
    · refine k1 p f (lookup_settleKeys (fun ⟨hpos, hu⟩ => ?_) hp) fun s' hs' => hk s' (by simp [hs'])
      exact hk s (by simp) (h2 hpos p (Tree.mem_iff_lookup.2 ⟨f, hp⟩) hu)
    · rcases k2 p hp with hp | ⟨s', hs', rfl⟩
      · rcases (mem_settleKeys.1 hp).1 with rfl | hp
        · exact .inr ⟨s, by simp, rfl⟩
        · exact .inl hp
      · exact .inr ⟨s', by simp [hs'], rfl⟩
    · rcases List.mem_cons.1 hs' with rfl | hs'
      · rcases k2 p hp with hp | ⟨s'', -, rfl⟩
        · exact hgone p hp
        · exact not_keyFileOf_tombstone _ _
      · exact k3 p hp s' hs'
    · rcases List.mem_cons.1 hs' with rfl | hs'
      · obtain ⟨f, hf⟩ := Tree.mem_iff_lookup.1 hmark
        exact Tree.mem_iff_lookup.2 ⟨f, k1 _ f hf fun s'' _ => not_keyFileOf_tombstone _ _⟩
      · exact k4 s' hs'

/-- The files destroyed are those of the subjects, added up. -/
theorem countAll_keysDestroyed (r : Reconciliation) (h : InPlace t ss) (hnd : ss.Nodup) :
    (countAll now r t ss).keysDestroyed = r.keysDestroyed + (ss.map (keyFilesFor t)).sum := by
  induction ss generalizing t r with
  | nil => rfl
  | cons s ss ih =>
    have hin : InPlace t [s] := fun k hk => h k (by simp [List.mem_singleton.1 hk])
    have hmap : ss.map (keyFilesFor (settleKeys now t s)) = ss.map (keyFilesFor t) :=
      List.map_congr_left fun s' hs' => keyFilesFor_settleKeys hin (by
        rintro rfl
        exact (List.nodup_cons.1 hnd).1 hs')
    rw [countAll, ih _ (h.tail hnd) (List.nodup_cons.1 hnd).2, hmap, List.map_cons, List.sum_cons]
    show r.keysDestroyed + keyFilesFor t s + _ = _
    omega

/-- The key files of distinct subjects are distinct files. -/
theorem sum_keyFilesFor (t : Tree) (hnd : ss.Nodup) :
    (ss.map (keyFilesFor t)).sum = (t.keys.filter fun p => ∃ s ∈ ss, KeyFileOf s p).length := by
  induction ss with
  | nil => simp
  | cons s ss ih =>
    have hsplit : ∀ ps : List Path, (ps.filter fun p => ∃ s' ∈ s :: ss, KeyFileOf s' p).length =
        (ps.filter fun p => KeyFileOf s p).length +
          (ps.filter fun p => ∃ s' ∈ ss, KeyFileOf s' p).length := by
      intro ps
      induction ps with
      | nil => rfl
      | cons p ps ihp =>
        by_cases h1 : KeyFileOf s p
        · have h2 : ¬ ∃ s' ∈ ss, KeyFileOf s' p := by
            rintro ⟨s', hs', hk⟩
            exact (List.nodup_cons.1 hnd).1 (hk.unique h1 ▸ hs')
          simp only [List.filter_cons, List.exists_mem_cons_iff, h1, true_or, decide_true, if_true, h2,
            decide_false, Bool.false_eq_true, if_false, List.length_cons] at ihp ⊢
          omega
        · by_cases h2 : ∃ s' ∈ ss, KeyFileOf s' p
          · simp only [List.filter_cons, List.exists_mem_cons_iff, h1, false_or, decide_true, if_true,
              h2, decide_false, Bool.false_eq_true, if_false, List.length_cons] at ihp ⊢
            omega
          · simp only [List.filter_cons, List.exists_mem_cons_iff, h1, false_or, h2, decide_false,
              Bool.false_eq_true, if_false] at ihp ⊢
            exact ihp
    rw [List.map_cons, List.sum_cons, ih (List.nodup_cons.1 hnd).2, hsplit]
    rfl

/-! ## The whole reconcile -/

theorem reconcile_ok {rep : Reconciliation} (h : reconcile P env σ = (.ok rep, σ')) :
    ∃ ss, erasedSubjects P σ = (.ok ss, σ) ∧ rep = countAll env.now ⟨0, 0, 0, 0⟩ σ.keys ss ∧
      σ' = { σ with keys := settleAll env.now σ.keys ss } := by
  obtain ⟨ss, σ₁, h1, h⟩ := bind_eq_ok.1 h
  obtain ⟨rfl, -, -⟩ := erasedSubjects_ok h1
  rw [foldlM_reconcileSubject] at h
  obtain ⟨hr, hσ⟩ := Prod.mk.inj h
  exact ⟨ss, h1, (Except.ok.inj hr).symm, hσ.symm⟩

/-- Where every subject of the accounts is settled, the accounts name no other. -/
theorem erasedSubjects_settled {ss : List SubjectHash} (h : erasedSubjects P σ = (.ok ss, σ))
    {t' : Tree} (ht : Settled σ.keys ss t') :
    ∃ ss', erasedSubjects P { σ with keys := t' } = (.ok ss', { σ with keys := t' }) ∧
      ∀ s ∈ ss', s ∈ ss := by
  have hnames : ∀ name ∈ t'.entryNames [tombstonesDir],
      name ∈ σ.keys.entryNames [tombstonesDir] ∨ ∃ s ∈ ss, s.text = name := by
    intro name hn
    obtain ⟨p, hp, hu, hname⟩ := Tree.mem_entryNames.1 hn
    rcases ht.only p hp with hp | ⟨s, hs, rfl⟩
    · exact .inl (Tree.mem_entryNames.2 ⟨p, hp, hu, hname⟩)
    · exact .inr ⟨s, hs, Option.some.inj hname⟩
  have hread : ∃ ss', erasedSubjects P { σ with keys := t' } = (.ok ss', { σ with keys := t' }) := by
    obtain ⟨blocked, σ₁, h1, h⟩ := bind_eq_ok.1 h
    obtain ⟨log, σ₂, h2, h⟩ := bind_eq_ok.1 h
    obtain ⟨logged, σ₃, h3, -⟩ := bind_eq_ok.1 h
    obtain ⟨hlogged, -⟩ := ofExcept_eq_ok.1 h3
    obtain ⟨u, hu, rfl⟩ := zoom_eq_ok.1 h1
    have hu' := mapError_eq_ok.1 hu
    rw [tombstonedSubjects, state_bind] at hu'
    obtain ⟨hblocked, rfl⟩ := ofExcept_eq_ok.1 hu'
    have hes : LineLog.entries P.tombstoneLine σ.tombstoneLog = .ok log := by
      rw [readLog, state_bind] at h2
      cases he : LineLog.entries P.tombstoneLine σ.tombstoneLog with
      | error e =>
        rw [he] at h2
        exact absurd h2 fail_ne_ok
      | ok es =>
        rw [he] at h2
        obtain ⟨rfl, -⟩ := pure_eq_ok.1 h2
        rfl
    have hex : ∃ ys, (t'.entryNames [tombstonesDir]).mapM (fun name => subjectNamed name
        ("'s tombstones is not a subject pseudonym, so nothing can tell whose " ++
          "keys it forbids")) = .ok ys := exists_mapM fun name hn => by
      rcases hnames name hn with hn | ⟨s, -, rfl⟩
      · exact mapM_ok_mem hblocked name hn
      · exact ⟨s, subjectNamed_ok.2 rfl⟩
    obtain ⟨blocked', hb'⟩ := hex
    have h1' : keyed tombstonedSubjects { σ with keys := t' } =
        (.ok blocked', { σ with keys := t' }) := by
      refine zoom_eq_ok.2 ⟨t', mapError_eq_ok.2 ?_, rfl⟩
      rw [tombstonedSubjects, state_bind]
      exact ofExcept_eq_ok.2 ⟨hb', rfl⟩
    have h2' : readLog P { σ with keys := t' } = (.ok log, { σ with keys := t' }) := by
      rw [readLog, state_bind]
      simp only [hes]
      rfl
    refine ⟨((blocked' ++ logged).insertionSort fun a b => a.text ≤ b.text).dedup, ?_⟩
    rw [erasedSubjects, bind_of_ok h1', bind_of_ok h2', hlogged]
    rfl
  obtain ⟨ss', h'⟩ := hread
  refine ⟨ss', h', fun s hs => ?_⟩
  obtain ⟨-, -, hmem'⟩ := erasedSubjects_ok h'
  obtain ⟨-, -, hmem⟩ := erasedSubjects_ok h
  rcases (hmem' s).1 hs with hn | hlog
  · rcases hnames s.text hn with hn | ⟨k, hk, he⟩
    · exact (hmem s).2 (.inl hn)
    · rwa [← SubjectHash.ext_text he]
  · exact (hmem s).2 (.inr hlog)

/-- Subjects that are settled already are left as they are. -/
theorem settleAll_again (h : ∀ s ∈ ss, tombstonePath s ∈ t ∧ keyFilesFor t s = 0)
    (r : Reconciliation) : settleAll now t ss = t ∧
      (countAll now r t ss).subjectsResurrected = r.subjectsResurrected ∧
      (countAll now r t ss).blocklistRestored = r.blocklistRestored := by
  induction ss generalizing r with
  | nil => exact ⟨rfl, rfl, rfl⟩
  | cons s ss ih =>
    obtain ⟨hmark, hzero⟩ := h s (by simp)
    have hsame : settleKeys now t s = t := by
      rw [settleKeys, hzero, if_neg (by omega), markKeys, if_pos hmark]
    have ih' := ih (fun k hk => h k (by simp [hk])) (r.count t s)
    have h1 : (r.count t s).subjectsResurrected = r.subjectsResurrected := by
      simp [Reconciliation.count, hzero]
    have h2 : (r.count t s).blocklistRestored = r.blocklistRestored := by
      simp [Reconciliation.count, hmark]
    rw [settleAll, List.foldl_cons, countAll, hsame, ← h1, ← h2]
    exact ih'

/-- What a reconcile reports and leaves, for the subjects the accounts name. -/
structure Reconciled (P : Pipeline) (σ σ' : Store) (rep : Reconciliation) : Prop where
  blocked : ∀ s, Named P σ s → tombstonePath s ∈ σ'.keys
  gone : ∀ s, Named P σ s → keyFilesFor σ'.keys s = 0
  counted : rep.keysDestroyed = (σ.keys.keys.filter fun p => p ∉ σ'.keys).length
  noneLeft : resurrectedKeys P σ' = (.ok 0, σ')
  again : ∀ env, ∃ rep', reconcile P env σ' = (.ok rep', σ') ∧ rep'.undidSomething = false
  others : ∀ s, ¬ Named P σ s → ∀ p f, KeyFileOf s p → σ.keys.lookup p = some f →
    σ'.keys.lookup p = some f

/-- Every key file of an erased subject lies directly in the subject's own directory,
    and where there is one, nothing is nested beside it. -/
def KeysInPlace (P : Pipeline) (σ : Store) : Prop :=
  ∀ s, Named P σ s → (∀ p ∈ σ.keys, KeyFileOf s p → Tree.Under (subjectDir s) p) ∧
    (0 < keyFilesFor σ.keys s → ∀ p ∈ σ.keys, Tree.Under (subjectDir s) p → KeyFileOf s p)

/-- A key root whose subjects' directories hold files only. -/
def FlatKeys (σ : Store) : Prop :=
  ∀ s : SubjectHash, ∀ p ∈ σ.keys, Tree.Under (subjectDir s) p → KeyFileOf s p

theorem reconciled_of_inPlace {rep : Reconciliation} (h : reconcile P env σ = (.ok rep, σ'))
    (hin : KeysInPlace P σ) : Reconciled P σ σ' rep := by
  obtain ⟨ss, hss, rfl, rfl⟩ := reconcile_ok h
  obtain ⟨-, hnd, hmem⟩ := erasedSubjects_ok hss
  have hplace : InPlace σ.keys ss := fun s hs => hin s ((hmem s).1 hs)
  have hset : Settled σ.keys ss (settleAll env.now σ.keys ss) := settleAll_settled hplace hnd
  have hzero : ∀ s ∈ ss, keyFilesFor (settleAll env.now σ.keys ss) s = 0 := by
    intro s hs
    by_contra hne
    obtain ⟨p, hp, hk⟩ := keyFilesFor_pos.1 (Nat.pos_of_ne_zero hne)
    exact hset.gone p hp s hs hk
  obtain ⟨ss', hss', hsub⟩ := erasedSubjects_settled hss hset
  have hsettled : ∀ s ∈ ss', tombstonePath s ∈ settleAll env.now σ.keys ss ∧
      keyFilesFor (settleAll env.now σ.keys ss) s = 0 := fun s hs =>
    ⟨hset.marked s (hsub s hs), hzero s (hsub s hs)⟩
  refine ⟨fun s hs => hset.marked s ((hmem s).2 hs), fun s hs => hzero s ((hmem s).2 hs), ?_, ?_,
    fun env' => ?_, fun s hs p f hk hp => ?_⟩
  · rw [countAll_keysDestroyed _ hplace hnd, sum_keyFilesFor _ hnd]
    show 0 + _ = _
    rw [Nat.zero_add]
    congr 1
    refine List.filter_congr fun p hp => ?_
    rw [decide_eq_decide]
    constructor
    · rintro ⟨s, hs, hk⟩ hp'
      exact hset.gone p hp' s hs hk
    · intro hp'
      by_contra hno
      obtain ⟨f, hf⟩ := Tree.mem_iff_lookup.1 (AList.mem_keys.1 hp)
      exact hp' (Tree.mem_iff_lookup.2 ⟨f, hset.kept p f hf fun s hs hk => hno ⟨s, hs, hk⟩⟩)
  · have hsum : (ss'.map (keyFilesFor (settleAll env.now σ.keys ss))).sum = 0 := by
      rw [List.sum_eq_zero_iff]
      intro n hn
      obtain ⟨s, hs, rfl⟩ := List.mem_map.1 hn
      exact (hsettled s hs).2
    rw [resurrectedKeys, bind_of_ok hss', state_bind]
    show (Except.ok _, _) = _
    rw [hsum]
  · let again := countAll env'.now ⟨0, 0, 0, 0⟩ (settleAll env.now σ.keys ss) ss'
    obtain ⟨h1, h2, h3⟩ : settleAll env'.now (settleAll env.now σ.keys ss) ss' = _ ∧
        again.subjectsResurrected = 0 ∧ again.blocklistRestored = 0 :=
      settleAll_again hsettled ⟨0, 0, 0, 0⟩
    refine ⟨countAll env'.now ⟨0, 0, 0, 0⟩ (settleAll env.now σ.keys ss) ss', ?_, ?_⟩
    · rw [reconcile, bind_of_ok hss', foldlM_reconcileSubject]
      simp only [h1]
    · rw [Reconciliation.undidSomething, h2, h3]
      rfl
  · exact hset.kept p f hp fun s' hs' hk' => hs (by
      rw [hk.unique hk']
      exact (hmem s').1 hs')

/-- A file under no walked subject's directory outlives the walk. -/
theorem lookup_settleAll {p : Path} {f : File} (hp : ∀ s ∈ ss, ¬ Tree.Under (subjectDir s) p)
    (h : t.lookup p = some f) : (settleAll now t ss).lookup p = some f := by
  induction ss generalizing t with
  | nil => exact h
  | cons s ss ih =>
    exact ih (fun k hk => hp k (by simp [hk]))
      (lookup_settleKeys (fun hu => hp s (by simp) hu.2) h)

/-- **A reconcile does what it reports** when every key file of an erased subject lies
    directly in the subject's own directory; on a key root whose subjects' directories
    hold files only, exactly then. -/
theorem reconcile_reconciles (P : Pipeline) (env : Env) (σ σ' : Store) (rep : Reconciliation)
    (h : reconcile P env σ = (.ok rep, σ')) :
    (KeysInPlace P σ → Reconciled P σ σ' rep) ∧
      (FlatKeys σ → (Reconciled P σ σ' rep ↔ KeysInPlace P σ)) := by
  refine ⟨reconciled_of_inPlace h, fun hflat => ⟨fun hr s hs => ⟨fun p hp hk => ?_, fun _ => hflat s⟩,
    reconciled_of_inPlace h⟩⟩
  by_contra hu
  obtain ⟨ss, -, -, rfl⟩ := reconcile_ok h
  obtain ⟨f, hf⟩ := Tree.mem_iff_lookup.1 hp
  have hstays : (settleAll env.now σ.keys ss).lookup p = some f := by
    refine lookup_settleAll (fun s' _ hu' => hu ?_) hf
    rw [hk.unique (hflat s' p hp hu')]
    exact hu'
  have hpos := keyFilesFor_pos.2 ⟨p, Tree.mem_iff_lookup.2 ⟨f, hstays⟩, hk⟩
  rw [show keyFilesFor (settleAll env.now σ.keys ss) s = 0 from hr.gone s hs] at hpos
  omega

section

/-- A key store in which the subject is erased and a key file stands at a path. -/
def lingeringKey (p : Path) : Store :=
  { emptyStore with
    keys := ((∅ : Tree).write (tombstonePath someSubject) [] 0).write p someKey.bytes 0 }

theorem mem_lingeringKey {p q : Path} (h : q ∈ (lingeringKey p).keys) :
    q = p ∨ q = tombstonePath someSubject := by
  rcases (AList.mem_insert _).1 h with h | h
  · exact .inl h
  · rcases (AList.mem_insert _).1 h with h | h
    · exact .inr h
    · exact absurd h (AList.notMem_empty q)

theorem named_lingeringKey {p : Path} (s : SubjectHash)
    (h : Named (deployment declaredSubjects) (lingeringKey p) s)
    (hp : p[0]? ≠ some tombstonesDir) : s = someSubject := by
  rcases h with h | ⟨es, hes, e, he, -⟩
  · obtain ⟨q, hq, hu, hname⟩ := Tree.mem_entryNames.1 h
    rcases mem_lingeringKey hq with rfl | rfl
    · obtain ⟨t, ht⟩ := hu.1
      exact absurd (by rw [← ht]; rfl) hp
    · exact (SubjectHash.ext_text (Option.some.inj hname)).symm
  · cases hes
    cases he

/-- A key in its subject's own directory is destroyed and counted. -/
theorem reconcile_reconciles_own :
    ∃ rep σ', Reconciled (deployment declaredSubjects)
      (lingeringKey (subjectDir someSubject ++ ["2026-Q3".toList])) σ' rep := by
  have hsome : (reconcile (deployment declaredSubjects) (quietEnv 0)
      (lingeringKey (subjectDir someSubject ++ ["2026-Q3".toList]))).1.toOption.isSome = true := by
    decide +kernel
  obtain ⟨rep, hrep⟩ := Option.isSome_iff_exists.1 hsome
  refine ⟨rep, _, (reconcile_reconciles _ (quietEnv 0) _ _ rep
    (Prod.ext (ok_of_toOption hrep) rfl)).1 fun s hs => ?_⟩
  obtain rfl := named_lingeringKey s hs (by decide)
  constructor
  · intro p hp hk
    rcases mem_lingeringKey hp with rfl | rfl
    · exact Tree.under_concat _ _
    · exact absurd hk (not_keyFileOf_tombstone _ _)
  · intro _ p hp hu
    rcases mem_lingeringKey hp with rfl | rfl
    · exact keyFileOf_concat _ _
    · exact absurd hu (not_under_tombstone _ _)

/-- A copy of a subject's directory kept beside the live one is counted as destroyed,
    and stands. -/
theorem copy_outlives_reconcile : ¬ ∀ (P : Pipeline) (env : Env) (σ σ' : Store)
    (rep : Reconciliation), reconcile P env σ = (.ok rep, σ') → Reconciled P σ σ' rep := by
  intro h
  have hsome : (reconcile (deployment declaredSubjects) (quietEnv 0)
      (lingeringKey ["copy".toList, someSubject.text, "2026-Q3".toList])).1.toOption.isSome = true := by
    decide +kernel
  obtain ⟨rep, hrep⟩ := Option.isSome_iff_exists.1 hsome
  have hgone := (h _ (quietEnv 0) _ _ rep (Prod.ext (ok_of_toOption hrep) rfl)).gone someSubject
    (.inl (by decide +kernel))
  revert hgone
  decide +kernel

end

end Yaam.Core
