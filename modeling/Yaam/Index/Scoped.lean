/-
  What a caller reads depends on what it may read, and on nothing else.

  * `Agree` says two indexes hold the same admitted records, with the same references
    and attributes, in one order;
  * `Agree.byEntityRows`, `.filterRows`, `.correlateRows` and `.linkedRows`: each read
    answers the same over both;
  * `Entitled` is the rule of who may read what; every row a read returns keeps it;
  * `scope_noninterference` puts the two together.
-/
import Yaam.Index.Linked

namespace Yaam.Index

open Text Contract

/-! ## Rows under a filter -/

section Lists

variable {α β : Type}

theorem flatMap_filter {p : α → Bool} {f : α → List β} {l : List α}
    (h : ∀ x ∈ l, p x = false → f x = []) : l.flatMap f = (l.filter p).flatMap f := by
  induction l with
  | nil => rfl
  | cons x l ih =>
    rw [List.flatMap_cons, ih fun y hy => h y (List.mem_cons_of_mem _ hy)]
    by_cases hx : p x = true
    · rw [List.filter_cons_of_pos hx, List.flatMap_cons]
    · rw [List.filter_cons_of_neg hx, h x List.mem_cons_self (by simpa using hx), List.nil_append]

/-- The order of rows by place is the order of those a filter keeps. -/
theorem compare_idxOf_filter [DecidableEq α] {p : α → Bool} {x y : α} (hx : p x = true)
    (hy : p y = true) : ∀ l : List α, x ∈ l → y ∈ l →
      compare ((l.filter p).idxOf x) ((l.filter p).idxOf y) = compare (l.idxOf x) (l.idxOf y)
  | [], h, _ => absurd h List.not_mem_nil
  | z :: l, hxl, hyl => by
    have succ : ∀ m n : ℕ, compare (m + 1) (n + 1) = compare m n := fun m n => by
      simp [Nat.compare_eq_ite_lt]
    have hle : ∀ m : ℕ, compare 0 (m + 1) = .lt ∧ compare (m + 1) 0 = .gt := fun m => by
      simp [Nat.compare_eq_ite_lt]
    rcases List.mem_cons.1 hxl with rfl | hxl <;> rcases List.mem_cons.1 hyl with rfl | hyl
    · simp
    · by_cases hxy : x = y
      · simp [hxy]
      · rw [List.filter_cons_of_pos hx, List.idxOf_cons_self, List.idxOf_cons_self,
          List.idxOf_cons_ne _ hxy, List.idxOf_cons_ne _ hxy, (hle _).1, (hle _).1]
    · by_cases hxy : y = x
      · simp [hxy]
      · rw [List.filter_cons_of_pos hy, List.idxOf_cons_self, List.idxOf_cons_self,
          List.idxOf_cons_ne _ hxy, List.idxOf_cons_ne _ hxy, (hle _).2, (hle _).2]
    · have ih := compare_idxOf_filter hx hy l hxl hyl
      by_cases hzx : z = x
      · subst hzx
        by_cases hzy : z = y
        · simp [hzy]
        · rw [List.filter_cons_of_pos hx, List.idxOf_cons_self, List.idxOf_cons_self,
            List.idxOf_cons_ne _ hzy, List.idxOf_cons_ne _ hzy, (hle _).1, (hle _).1]
      · by_cases hzy : z = y
        · subst hzy
          rw [List.filter_cons_of_pos hy, List.idxOf_cons_self, List.idxOf_cons_self,
            List.idxOf_cons_ne _ hzx, List.idxOf_cons_ne _ hzx, (hle _).2, (hle _).2]
        · rw [List.idxOf_cons_ne l hzx, List.idxOf_cons_ne l hzy, succ]
          by_cases hz : p z = true
          · rw [List.filter_cons_of_pos hz, List.idxOf_cons_ne _ hzx, List.idxOf_cons_ne _ hzy, succ, ih]
          · rw [List.filter_cons_of_neg hz, ih]

theorem orderBy_congr {cmp cmp' : α → α → Ordering} {rows : List α}
    (h : ∀ x ∈ rows, ∀ y ∈ rows, cmp x y = cmp' x y) : orderBy cmp rows = orderBy cmp' rows := by
  have := List.map_mergeSort (f := id) (r := fun x y => (cmp x y).isLE)
    (s := fun x y => (cmp' x y).isLE) (l := rows) fun x hx y hy => by simp [h x hx y hy]
  simpa [orderBy] using this

end Lists

/-! ## Two indexes a caller cannot tell apart -/

/-- The attributes of one record. -/
def Tables.attrsOf (T : Tables) (rec : RecordRow) : List AttrRow :=
  T.attrs.filter fun ra => ra.record = rec.recordId

/-- Two indexes agree on what a scope admits; on the rest they may differ at will. -/
structure Agree (scope : Scope) (T T' : Tables) : Prop where
  records : T.records.filter scope.admits = T'.records.filter scope.admits
  refsOf : ∀ rec ∈ T.records, scope.admits rec = true → T.refsOf rec = T'.refsOf rec
  attrsOf : ∀ rec ∈ T.records, scope.admits rec = true → T.attrsOf rec = T'.attrsOf rec

namespace Agree

variable {scope : Scope} {T T' : Tables} (h : Agree scope T T')
include h

theorem mem_iff {rec : RecordRow} (hrec : scope.admits rec = true) :
    rec ∈ T.records ↔ rec ∈ T'.records := by
  have : rec ∈ T.records.filter scope.admits ↔ rec ∈ T'.records.filter scope.admits := by rw [h.records]
  simpa [hrec] using this

/-- Rows read off the admitted records are the same rows. -/
theorem flatMap {α : Type} {f g : RecordRow → List α} (hf : ∀ rec, scope.admits rec = false → f rec = [])
    (hg : ∀ rec, scope.admits rec = false → g rec = [])
    (hfg : ∀ rec ∈ T.records, scope.admits rec = true → f rec = g rec) :
    T.records.flatMap f = T'.records.flatMap g := by
  rw [flatMap_filter fun x _ => hf x, flatMap_filter fun x _ => hg x, ← h.records]
  refine List.flatMap_congr fun rec hrec => ?_
  obtain ⟨hmem, hadm⟩ := List.mem_filter.1 hrec
  exact hfg rec hmem hadm

/-- Rows kept of the admitted records are the same rows. -/
theorem filter {p q : RecordRow → Bool} (hp : ∀ rec, scope.admits rec = false → p rec = false)
    (hq : ∀ rec, scope.admits rec = false → q rec = false)
    (hpq : ∀ rec ∈ T.records, scope.admits rec = true → p rec = q rec) :
    T.records.filter p = T'.records.filter q := by
  have hsplit : ∀ (p : RecordRow → Bool), (∀ rec, scope.admits rec = false → p rec = false) →
      ∀ rows : List RecordRow, rows.filter p = (rows.filter scope.admits).filter p := by
    intro p hp rows
    rw [List.filter_filter]
    refine List.filter_congr fun rec _ => ?_
    by_cases hadm : scope.admits rec = true
    · simp [hadm]
    · simp [hp rec (Bool.eq_false_iff.2 hadm)]
  rw [hsplit p hp, hsplit q hq, ← h.records]
  refine List.filter_congr fun rec hrec => ?_
  obtain ⟨hmem, hadm⟩ := List.mem_filter.1 hrec
  exact hpq rec hmem hadm

theorem compare_pk {r s : RecordRow} (hr : r ∈ T.records) (hs : s ∈ T.records)
    (hra : scope.admits r = true) (hsa : scope.admits s = true) :
    compare (T.pk r) (T.pk s) = compare (T'.pk r) (T'.pk s) := by
  have h1 := compare_idxOf_filter hra hsa T.records hr hs
  have h2 := compare_idxOf_filter hra hsa T'.records ((h.mem_iff hra).1 hr) ((h.mem_iff hsa).1 hs)
  rw [h.records] at h1
  exact h1.symm.trans h2

theorem attrMatches {rec : RecordRow} (hrec : rec ∈ T.records) (hadm : scope.admits rec = true)
    (attr : Text × Text) : attrMatches T rec attr = attrMatches T' rec attr := by
  have hsplit : ∀ U : Tables, Index.attrMatches U rec attr =
      (U.attrsOf rec).filter fun ra => ra.key = attr.1 ∧ ra.value = attr.2 := fun U => by
    simp only [Index.attrMatches, Tables.attrsOf, List.filter_filter]
    congr 1
    ext ra
    simp only [Bool.decide_and]
    exact Bool.and_comm _ _
  rw [hsplit, hsplit, h.attrsOf rec hrec hadm]

end Agree

/-! ## What each read returns -/

section Reads

variable {scope : Scope} {T T' : Tables}

theorem mem_entityMatches {kind id : Text} {floor : Floor} {window : Option Window}
    {r : EntityRow × RecordRow} : r ∈ entityMatches T kind id floor window scope ↔
      r.2 ∈ T.records ∧ r.1 ∈ T.refsOf r.2 ∧ r.1.kind = kind ∧ r.1.entityId = id ∧
        floor.met r.1.confidence = true ∧ window.all (·.contains r.1.receivedMs) = true ∧
        scope.admits r.2 = true := by
  simp only [entityMatches, List.mem_flatMap, List.mem_map, List.mem_filter, decide_eq_true_eq]
  constructor
  · rintro ⟨rec, hrec, er, ⟨her, hpred⟩, rfl⟩
    exact ⟨hrec, her, hpred⟩
  · rintro ⟨hrec, her, hpred⟩
    exact ⟨r.2, hrec, r.1, ⟨her, hpred⟩, rfl⟩

theorem mem_byEntityRows {kind id : Text} {floor : Floor} {window : Option Window} {extent : Extent}
    {select : Select} {rec : RecordRow}
    (hrec : rec ∈ byEntityRows T kind id floor window extent scope select) :
    rec ∈ T.records ∧ scope.admits rec = true := by
  obtain ⟨r, hr, rfl⟩ := List.mem_map.1 hrec
  have hmem : r ∈ orderBy (newestReference T) (entityMatches T kind id floor window scope) := by
    cases extent with
    | page limit => exact List.mem_of_mem_take hr
    | everything => exact hr
  obtain ⟨hrec, -, -, -, -, -, hadm⟩ := mem_entityMatches.1 (mem_orderBy.1 hmem)
  exact ⟨hrec, hadm⟩

theorem Filter.admits_of_recordPredicates {filter : Filter} {rec : RecordRow}
    (h : filter.recordPredicates rec = true) : filter.scope.admits rec = true := by
  simp only [Filter.recordPredicates, Bool.and_eq_true] at h
  exact h.2

theorem Filter.recordPredicates_eq_false {filter : Filter} {rec : RecordRow}
    (h : filter.scope.admits rec = false) : filter.recordPredicates rec = false := by
  simp [Filter.recordPredicates, h]

theorem mem_filterSource {filter : Filter} {rec : RecordRow} (h : rec ∈ filterSource T filter) :
    rec ∈ T.records := by
  unfold filterSource at h
  split at h
  · obtain ⟨r, hr, hrec⟩ := List.mem_flatMap.1 h
    obtain ⟨-, -, rfl⟩ := List.mem_map.1 hrec
    exact hr
  · exact h

theorem mem_filterMatches {filter : Filter} {rec : RecordRow} (h : rec ∈ filterMatches T filter) :
    rec ∈ T.records ∧ filter.scope.admits rec = true := by
  obtain ⟨hsource, hpred⟩ := List.mem_filter.1 h
  exact ⟨mem_filterSource hsource, Filter.admits_of_recordPredicates hpred⟩

theorem mem_filterRows {filter : Filter} {select : Select} {rec : RecordRow}
    (hrec : rec ∈ filterRows T filter select) :
    rec ∈ T.records ∧ filter.scope.admits rec = true :=
  mem_filterMatches (mem_orderBy.1 (List.mem_of_mem_take hrec))

theorem Filter.admits_of_correlatePredicates {filter : Filter} {rec : RecordRow}
    (h : filter.correlatePredicates T rec = true) : filter.scope.admits rec = true := by
  simp only [Filter.correlatePredicates, Bool.and_eq_true] at h
  exact Filter.admits_of_recordPredicates h.1

theorem mem_pairMatches {left right : Filter} {withinMs : ℤ} {p : RecordRow × RecordRow}
    (hp : p ∈ pairMatches T left right withinMs) :
    (p.1 ∈ T.records ∧ left.scope.admits p.1 = true) ∧
      p.2 ∈ T.records ∧ right.scope.admits p.2 = true := by
  obtain ⟨l, hl, hmem⟩ := List.mem_flatMap.1 hp
  obtain ⟨r, hr, rfl⟩ := List.mem_map.1 hmem
  obtain ⟨hr, hpred⟩ := List.mem_filter.1 hr
  obtain ⟨-, -, -, hlp, hrp⟩ := of_decide_eq_true hpred
  exact ⟨⟨hl, Filter.admits_of_correlatePredicates hlp⟩, hr, Filter.admits_of_correlatePredicates hrp⟩

theorem mem_correlateRows {left right : Filter} {withinMs : ℤ} {select : Select}
    {p : RecordRow × RecordRow} (hp : p ∈ correlateRows T left right withinMs select) :
    (p.1 ∈ T.records ∧ left.scope.admits p.1 = true) ∧
      p.2 ∈ T.records ∧ right.scope.admits p.2 = true :=
  mem_pairMatches (mem_orderBy.1 (List.mem_of_mem_take hp))

end Reads

/-! ## The same answer -/

section Same

variable {scope : Scope} {T T' : Tables}

/-- An order on admitted rows is read off their own columns and their places. -/
theorem Agree.descending_pk {α : Type} (h : Agree scope T T') {f : α → RecordRow} {rows : List α}
    (hrows : ∀ x ∈ rows, f x ∈ T.records ∧ scope.admits (f x) = true) {x y : α} (hx : x ∈ rows)
    (hy : y ∈ rows) : descending (fun r => T.pk (f r)) x y = descending (fun r => T'.pk (f r)) x y :=
  h.compare_pk (hrows y hy).1 (hrows x hx).1 (hrows y hy).2 (hrows x hx).2

theorem Agree.byEntityRows (h : Agree scope T T') (kind id : Text) (floor : Floor)
    (window : Option Window) (extent : Extent) (select : Select) :
    byEntityRows T kind id floor window extent scope select =
      byEntityRows T' kind id floor window extent scope select := by
  have hrows : entityMatches T kind id floor window scope =
      entityMatches T' kind id floor window scope := by
    refine h.flatMap (fun rec hrec => ?_) (fun rec hrec => ?_) fun rec hrec hadm => ?_
    · simp [hrec]
    · simp [hrec]
    · rw [h.refsOf rec hrec hadm]
  have horder : orderBy (newestReference T) (entityMatches T kind id floor window scope) =
      orderBy (newestReference T') (entityMatches T kind id floor window scope) := by
    refine orderBy_congr fun x hx y hy => ?_
    have hmem : ∀ r ∈ entityMatches T kind id floor window scope,
        r.2 ∈ T.records ∧ scope.admits r.2 = true := fun r hr => by
      obtain ⟨hrec, -, -, -, -, -, hadm⟩ := mem_entityMatches.1 hr
      exact ⟨hrec, hadm⟩
    simp only [newestReference, compareLex, h.descending_pk hmem hx hy]
  rw [Index.byEntityRows, horder, hrows, ← Index.byEntityRows]

theorem Agree.exists_eq (h : Agree scope T T') (id : Text) :
    «exists» T id scope = «exists» T' id scope := by
  have hsplit : ∀ U : Tables, «exists» U id scope =
      (U.records.filter scope.admits).any fun rec => rec.recordId.text = id := fun U => by
    simp only [«exists», List.any_filter, Bool.decide_and, Bool.decide_eq_true, Bool.and_comm]
  rw [hsplit, hsplit, h.records]

theorem Agree.filterRows {filter : Filter} (h : Agree filter.scope T T') (select : Select) :
    filterRows T filter select = filterRows T' filter select := by
  have hrows : filterMatches T filter = filterMatches T' filter := by
    unfold filterMatches filterSource
    split
    · rw [List.filter_flatMap, List.filter_flatMap]
      refine h.flatMap (fun rec hrec => ?_) (fun rec hrec => ?_) fun rec hrec hadm => ?_
      · simp [Filter.recordPredicates_eq_false hrec]
      · simp [Filter.recordPredicates_eq_false hrec]
      · rw [h.attrMatches hrec hadm]
    · exact h.filter (fun rec hrec => Filter.recordPredicates_eq_false hrec)
        (fun rec hrec => Filter.recordPredicates_eq_false hrec) fun _ _ _ => rfl
  have horder : orderBy (newestRecord T) (filterMatches T filter) =
      orderBy (newestRecord T') (filterMatches T filter) := by
    refine orderBy_congr fun x hx y hy => ?_
    have hpk : descending T.pk x y = descending T'.pk x y :=
      h.descending_pk (f := id) (fun _ hr => mem_filterMatches hr) hx hy
    simp only [newestRecord, compareLex, hpk]
  rw [Index.filterRows, horder, hrows, ← Index.filterRows]

theorem Agree.correlatePredicates {filter : Filter} (h : Agree filter.scope T T') {rec : RecordRow}
    (hrec : rec ∈ T.records) :
    filter.correlatePredicates T rec = filter.correlatePredicates T' rec := by
  by_cases hadm : filter.scope.admits rec = true
  · simp only [Filter.correlatePredicates, h.attrMatches hrec hadm]
  · simp [Filter.correlatePredicates,
      Filter.recordPredicates_eq_false (Bool.eq_false_iff.2 hadm)]

theorem Filter.correlatePredicates_eq_false {filter : Filter} {rec : RecordRow}
    (h : filter.scope.admits rec = false) : filter.correlatePredicates T rec = false := by
  simp [Filter.correlatePredicates, Filter.recordPredicates_eq_false h]

theorem Agree.pk_ne_iff (h : Agree scope T T') {r s : RecordRow} (hr : r ∈ T.records)
    (hs : s ∈ T.records) (hra : scope.admits r = true) (hsa : scope.admits s = true) :
    T.pk r ≠ T.pk s ↔ T'.pk r ≠ T'.pk s := by
  have := h.compare_pk hr hs hra hsa
  rw [ne_eq, ne_eq, ← Nat.compare_eq_eq, ← Nat.compare_eq_eq, this]

theorem Agree.correlateRows {left right : Filter} (h : Agree scope T T') (hl : left.scope = scope)
    (hr : right.scope = scope) (withinMs : ℤ) (select : Select) :
    correlateRows T left right withinMs select = correlateRows T' left right withinMs select := by
  have hleft : Agree left.scope T T' := hl ▸ h
  have hright : Agree right.scope T T' := hr ▸ h
  have hrows : pairMatches T left right withinMs = pairMatches T' left right withinMs := by
    refine hleft.flatMap (fun l hadm => ?_) (fun l hadm => ?_) fun l hmem hadm => ?_
    · simp [Filter.correlatePredicates_eq_false hadm]
    · simp [Filter.correlatePredicates_eq_false hadm]
    · refine congrArg (List.map _) (hright.filter (fun r hadm => ?_) (fun r hadm => ?_) ?_)
      · simp [Filter.correlatePredicates_eq_false hadm]
      · simp [Filter.correlatePredicates_eq_false hadm]
      · intro r hrmem hradm
        rw [hl] at hadm
        rw [hr] at hradm
        simp only [h.pk_ne_iff hmem hrmem hadm hradm, hleft.correlatePredicates hmem,
          hright.correlatePredicates hrmem]
  have horder : orderBy (pairOrder T) (pairMatches T left right withinMs) =
      orderBy (pairOrder T') (pairMatches T left right withinMs) := by
    refine orderBy_congr fun x hx y hy => ?_
    have hpk1 : descending (fun p => T.pk p.1) x y = descending (fun p => T'.pk p.1) x y :=
      hleft.descending_pk (f := Prod.fst) (fun _ hp => (mem_pairMatches hp).1) hx hy
    have hpk2 : descending (fun p => T.pk p.2) y x = descending (fun p => T'.pk p.2) y x :=
      hright.descending_pk (f := Prod.snd) (fun _ hp => (mem_pairMatches hp).2) hy hx
    simp only [pairOrder, compareLex, hpk1]
    simp only [compareOn]
    simp only [descending] at hpk2
    rw [hpk2]
  rw [Index.correlateRows, horder, hrows, ← Index.correlateRows]

theorem Agree.edges {t : Traversal} (h : Agree t.scope T T') {hop : ℕ} {x : EntityKey}
    {arrive leave : EntityRow → Bool}
    (hdeg : ∀ e ∈ edges T t hop x arrive leave, degree T t e.to_ = degree T' t e.to_) :
    edges T t hop x arrive leave = edges T' t hop x arrive leave := by
  refine h.flatMap (fun rec hadm => ?_) (fun rec hadm => ?_) fun rec hrec hadm => ?_
  · simp [hadm]
  · simp [hadm]
  · rw [← h.refsOf rec hrec hadm]
    refine List.flatMap_congr fun a ha => List.map_congr_left fun b hb => ?_
    obtain ⟨ha, hpred⟩ := List.mem_filter.1 ha
    obtain ⟨hb, hleave⟩ := List.mem_filter.1 hb
    obtain ⟨hx, hw, harrive, -⟩ := of_decide_eq_true hpred
    have hb' : degree T t b.entity = degree T' t b.entity :=
      hdeg _ (mem_edges.2 ⟨rec, a, b, ⟨hrec, hadm, ha, hx, hw⟩, harrive, hb, hleave, rfl⟩)
    rw [hb']

/-- What a traversal reaches is admitted. -/
theorem mem_reached {t : Traversal} {e : Link RecordRow} (he : e ∈ reached T t) :
    e.via ∈ T.records ∧ t.scope.admits e.via = true := by
  cases edge_iff_derivable.2 (Recurse.derivable_of_mem_recurse he) with
  | seed hc => exact ⟨hc.record, hc.admitted⟩
  | next _ _ _ _ hc => exact ⟨hc.record, hc.admitted⟩

theorem Agree.reached {t : Traversal} (h : Agree t.scope T T')
    (hfrontier : (reached T t).length < MAX_FRONTIER)
    (hdeg : ∀ e ∈ reached T t, degree T t e.to_ = degree T' t e.to_) : reached T t = reached T' t := by
  have hmem : ∀ {e}, Recurse.Derivable (nextHop T t) (firstHop T t) e → e ∈ Index.reached T t :=
    (Recurse.mem_recurse_iff hfrontier).2
  have hstart : firstHop T t = firstHop T' t :=
    h.edges fun e he => hdeg e (hmem (.start he))
  have hnext : ∀ x, Recurse.Derivable (nextHop T t) (firstHop T t) x →
      nextHop T t x = nextHop T' t x := by
    intro x hx
    have hx' : ∀ e ∈ nextHop T t x, degree T t e.to_ = degree T' t e.to_ :=
      fun e he => hdeg e (hmem (.expand hx he))
    unfold nextHop at hx' ⊢
    split_ifs with hgo
    · rw [if_pos hgo] at hx'
      exact h.edges hx'
    · rfl
  rw [Index.reached, Recurse.recurse_congr hnext, hstart, ← Index.reached]

theorem Agree.linkedRows {t : Traversal} (h : Agree t.scope T T')
    (hfrontier : (Index.reached T t).length < MAX_FRONTIER)
    (hdeg : ∀ e ∈ Index.reached T t, degree T t e.to_ = degree T' t e.to_) :
    linkedRows T t = linkedRows T' t := by
  have horder : orderBy (linkOrder T) (Index.reached T t) = orderBy (linkOrder T') (Index.reached T t) := by
    refine orderBy_congr fun x hx y hy => ?_
    have hpk : descending (fun l => T.pk l.via) x y = descending (fun l => T'.pk l.via) x y :=
      h.descending_pk (f := Link.via) (fun _ he => mem_reached he) hx hy
    simp only [linkOrder, compareLex, hpk]
  rw [Index.linkedRows, horder, h.reached hfrontier hdeg, ← Index.linkedRows]

theorem mem_linkedRows_admitted {t : Traversal} {e : Link RecordRow} (he : e ∈ linkedRows T t) :
    e.via ∈ T.records ∧ t.scope.admits e.via = true :=
  mem_reached (mem_orderBy.1 (List.mem_of_mem_take he))

theorem mem_searchRows {F : FullText} {needle : Text} {limit : UInt32} {rows : List RecordRow}
    (h : searchRows F T needle limit scope = .ok rows) {rec : RecordRow} (hrec : rec ∈ rows) :
    rec ∈ T.records ∧ scope.admits rec = true ∧ rec.sealed = false := by
  unfold searchRows at h
  cases hF : (F T needle).mapError (refusedNeedle needle) with
  | error e => simp [hF, bind, Except.bind] at h
  | ok found =>
    rw [hF] at h
    obtain rfl := Except.ok.inj h
    obtain ⟨r, hr, rfl⟩ := List.mem_map.1 hrec
    obtain ⟨c, -, hr⟩ := List.mem_flatMap.1 (mem_orderBy.1 (List.mem_of_mem_take hr))
    obtain ⟨rec, hmatch, rfl⟩ := List.mem_map.1 hr
    obtain ⟨hmem, hpred⟩ := List.mem_filter.1 hmatch
    obtain ⟨-, hsealed, hadm⟩ := of_decide_eq_true hpred
    exact ⟨hmem, hadm, by simpa using hsealed⟩

end Same

/-! ## Noninterference -/

/-- **Who may read what.** -/
def Entitled (visibility : List Visibility) (agent : Text) (teams : List Text) (rec : ActionRecord) :
    Prop :=
  match rec.visibility with
  | .org => .org ∈ visibility
  | .team => .team ∈ visibility ∧ ∃ t ∈ teams, rec.team = some t
  | .owner => .owner ∈ visibility ∧ rec.agent = agent
  | .operator => .operator ∈ visibility

theorem Scope.admits_iff_entitled {visibility : List Visibility} {agent : Text} {teams : List Text}
    {rec : RecordRow} : (Scope.caller visibility agent teams).admits rec = true ↔
      Entitled visibility agent teams rec.frontmatter := by
  rw [Scope.admits_caller, Entitled]
  cases rec.frontmatter.visibility <;> simp

/-- Two indexes answer a scope's reads alike, a traversal as far as its frontier and the
    degrees it met allow. -/
structure SameReads (scope : Scope) (T T' : Tables) : Prop where
  byEntity : ∀ kind id floor window limit,
    byEntity T kind id floor window limit scope = byEntity T' kind id floor window limit scope ∧
      byEntityStructures T kind id floor window limit scope =
        byEntityStructures T' kind id floor window limit scope
  byFilter : ∀ filter : Filter, filter.scope = scope →
    byFilter T filter = byFilter T' filter ∧ byFilterStructures T filter = byFilterStructures T' filter
  correlate : ∀ (left right : Filter) withinMs, left.scope = scope → right.scope = scope →
    correlate T left right withinMs = correlate T' left right withinMs ∧
      correlateStructures T left right withinMs = correlateStructures T' left right withinMs
  «exists» : ∀ id, «exists» T id scope = «exists» T' id scope
  linked : ∀ t : Traversal, t.scope = scope → (reached T t).length < MAX_FRONTIER →
    (∀ e ∈ reached T t, degree T t e.to_ = degree T' t e.to_) →
    linked T t = linked T' t ∧ linkedStructures T t = linkedStructures T' t

/-- An identifier read is that of a record the caller may read. -/
def ReadId (P : ActionRecord → Prop) (T : Tables) (id : RecordId) : Prop :=
  ∃ rec ∈ T.records, rec.recordId = id ∧ P rec.frontmatter

/-- A structure read is the stored structure of a record the caller may read. -/
def ReadStructure (P : ActionRecord → Prop) (T : Tables) (s : ActionRecord) : Prop :=
  ∃ rec ∈ T.records, storedStructure rec = .ok s ∧ P rec.frontmatter

/-- Everything a scope's reads return is a record of a kind. -/
structure ReadsOnly (P : ActionRecord → Prop) (scope : Scope) (T : Tables) : Prop where
  byEntity : ∀ kind id floor window limit,
    (∀ r ∈ byEntity T kind id floor window limit scope, ReadId P T r) ∧
      ∀ out, byEntityStructures T kind id floor window limit scope = .ok out →
        ∀ s ∈ out, ReadStructure P T s
  byFilter : ∀ filter : Filter, filter.scope = scope →
    (∀ r ∈ byFilter T filter, ReadId P T r) ∧
      ∀ out, byFilterStructures T filter = .ok out → ∀ s ∈ out, ReadStructure P T s
  correlate : ∀ (left right : Filter) withinMs, left.scope = scope → right.scope = scope →
    (∀ p ∈ correlate T left right withinMs, ReadId P T p.1 ∧ ReadId P T p.2) ∧
      ∀ out, correlateStructures T left right withinMs = .ok out →
        ∀ p ∈ out, ReadStructure P T p.1 ∧ ReadStructure P T p.2
  linked : ∀ t : Traversal, t.scope = scope →
    (∀ l ∈ linked T t, ReadId P T l.via) ∧
      ∀ out, linkedStructures T t = .ok out → ∀ l ∈ out, ReadStructure P T l.via

/-- Every search hit is a record of a kind whose body is not sealed. -/
structure SearchesOnly (P : ActionRecord → Prop) (scope : Scope) (T : Tables) : Prop where
  search : ∀ (F : FullText) needle limit out, search F T needle limit scope = .ok out →
    ∀ r ∈ out, ReadId (fun rec => P rec ∧ rec.dataClass ≠ .subjectDerived) T r
  structures : ∀ (F : FullText) needle limit out, searchStructures F T needle limit scope = .ok out →
    ∀ s ∈ out, ReadStructure (fun rec => P rec ∧ rec.dataClass ≠ .subjectDerived) T s

theorem storedStructure_ok {rec : RecordRow} {s : ActionRecord} (h : storedStructure rec = .ok s) :
    rec.frontmatter.recordId = rec.recordId ∧ s = rec.frontmatter.bare := by
  unfold storedStructure at h
  split_ifs at h with hid
  exact ⟨hid, (Except.ok.inj h).symm⟩

section Returned

variable {P : ActionRecord → Prop} {scope : Scope} {T : Tables}

theorem readId_of_mem {rows : List RecordRow} (h : ∀ rec ∈ rows, rec ∈ T.records ∧ P rec.frontmatter)
    {r : RecordId} (hr : r ∈ rows.map (·.recordId)) : ReadId P T r := by
  obtain ⟨rec, hrec, rfl⟩ := List.mem_map.1 hr
  exact ⟨rec, (h rec hrec).1, rfl, (h rec hrec).2⟩

theorem readStructure_of_mem {rows : List RecordRow} {out : List ActionRecord}
    (h : ∀ rec ∈ rows, rec ∈ T.records ∧ P rec.frontmatter) (hout : rows.mapM storedStructure = .ok out)
    {s : ActionRecord} (hs : s ∈ out) : ReadStructure P T s := by
  obtain ⟨rec, hrec, hok⟩ := (mapM_ok_iff hout s).1 hs
  exact ⟨rec, (h rec hrec).1, hok, (h rec hrec).2⟩

/-- **Every read returns what its scope admits.** -/
theorem readsOnly_of_admits (hP : ∀ rec, scope.admits rec = true → P rec.frontmatter) (T : Tables) :
    ReadsOnly P scope T where
  byEntity kind id floor window limit := by
    have hrows : ∀ select, ∀ rec ∈ byEntityRows T kind id floor window (.page limit) scope select,
        rec ∈ T.records ∧ P rec.frontmatter :=
      fun _ rec hrec => (mem_byEntityRows hrec).imp_right (hP rec)
    exact ⟨fun r hr => readId_of_mem (hrows _) hr, fun out hout s hs => readStructure_of_mem (hrows _) hout hs⟩
  byFilter filter hscope := by
    subst hscope
    have hrows : ∀ select, ∀ rec ∈ filterRows T filter select, rec ∈ T.records ∧ P rec.frontmatter :=
      fun _ rec hrec => (mem_filterRows hrec).imp_right (hP rec)
    exact ⟨fun r hr => readId_of_mem (hrows _) hr, fun out hout s hs => readStructure_of_mem (hrows _) hout hs⟩
  correlate left right withinMs hl hr := by
    have hrows : ∀ select, ∀ p ∈ correlateRows T left right withinMs select,
        (p.1 ∈ T.records ∧ P p.1.frontmatter) ∧ p.2 ∈ T.records ∧ P p.2.frontmatter := fun _ p hp => by
      obtain ⟨h1, h2⟩ := mem_correlateRows hp
      exact ⟨h1.imp_right (hl ▸ hP p.1), h2.imp_right (hr ▸ hP p.2)⟩
    constructor
    · intro p hp
      obtain ⟨q, hq, rfl⟩ := List.mem_map.1 hp
      obtain ⟨h1, h2⟩ := hrows _ q hq
      exact ⟨⟨q.1, h1.1, rfl, h1.2⟩, q.2, h2.1, rfl, h2.2⟩
    · intro out hout p hp
      obtain ⟨q, hq, hok⟩ := (mapM_ok_iff hout p).1 hp
      obtain ⟨h1, h2⟩ := hrows _ q hq
      obtain ⟨l, hleft, hok⟩ := bind_ok.1 hok
      obtain ⟨r, hright, hok⟩ := bind_ok.1 hok
      obtain rfl := Except.ok.inj hok
      exact ⟨⟨q.1, h1.1, hleft, h1.2⟩, q.2, h2.1, hright, h2.2⟩
  linked t hscope := by
    have hrows : ∀ e ∈ linkedRows T t, e.via ∈ T.records ∧ P e.via.frontmatter :=
      fun e he => (mem_linkedRows_admitted he).imp_right (hscope ▸ hP e.via)
    constructor
    · intro l hl
      obtain ⟨e, he, rfl⟩ := List.mem_map.1 hl
      exact ⟨e.via, (hrows e he).1, rfl, (hrows e he).2⟩
    · intro out hout l hl
      obtain ⟨e, he, hok⟩ := (mapM_ok_iff hout l).1 hl
      obtain ⟨s, hs, hok⟩ := bind_ok.1 hok
      obtain rfl := Except.ok.inj hok
      exact ⟨e.via, (hrows e he).1, hs, (hrows e he).2⟩

/-- **A search returns what its scope admits, and nothing sealed.** -/
theorem searchesOnly_of_admits (hP : ∀ rec, scope.admits rec = true → P rec.frontmatter) (T : Tables) :
    SearchesOnly P scope T := by
  have hrows : ∀ {F : FullText} {needle limit rows}, searchRows F T needle limit scope = .ok rows →
      ∀ rec ∈ rows, rec ∈ T.records ∧
        P rec.frontmatter ∧ rec.frontmatter.dataClass ≠ .subjectDerived := by
    intro F needle limit rows h rec hrec
    obtain ⟨hmem, hadm, hsealed⟩ := mem_searchRows h hrec
    exact ⟨hmem, hP rec hadm, of_decide_eq_false hsealed⟩
  constructor
  · intro F needle limit out hout r hr
    cases hs : searchRows F T needle limit scope with
    | error e => simp [search, hs, Except.map] at hout
    | ok rows =>
      simp only [search, hs, Except.map, Except.ok.injEq] at hout
      subst hout
      exact readId_of_mem (hrows hs) hr
  · intro F needle limit out hout s hs
    obtain ⟨rows, hrows', hout⟩ := bind_ok.1 hout
    exact readStructure_of_mem (hrows hrows') hout hs

theorem Agree.sameReads {T' : Tables} (h : Agree scope T T') : SameReads scope T T' where
  byEntity kind id floor window limit := by
    simp only [Index.byEntity, byEntityStructures, h.byEntityRows kind id floor window, and_self]
  byFilter filter hscope := by
    subst hscope
    simp only [Index.byFilter, byFilterStructures, h.filterRows, and_self]
  correlate left right withinMs hl hr := by
    simp only [Index.correlate, correlateStructures, h.correlateRows hl hr, and_self]
  «exists» := h.exists_eq
  linked t hscope hfrontier hdeg := by
    subst hscope
    simp only [Index.linked, linkedStructures, h.linkedRows hfrontier hdeg, and_self]

end Returned

/-- **A caller's reads depend on what it may read, and return nothing else.** -/
theorem scope_noninterference (visibility : List Visibility) (agent : Text) (teams : List Text) :
    (∀ T T', Agree (.caller visibility agent teams) T T' →
      SameReads (.caller visibility agent teams) T T') ∧
    ∀ T, ReadsOnly (Entitled visibility agent teams) (.caller visibility agent teams) T ∧
      SearchesOnly (Entitled visibility agent teams) (.caller visibility agent teams) T :=
  ⟨fun _ _ h => h.sameReads, fun T =>
    ⟨readsOnly_of_admits (fun _ => Scope.admits_iff_entitled.1) T,
      searchesOnly_of_admits (fun _ => Scope.admits_iff_entitled.1) T⟩⟩

end Yaam.Index
