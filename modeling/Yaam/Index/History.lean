/-
  An entity's history, as a page of it is read (`by_entity` and its siblings).

  The statement pages over references, and a record may refer to an entity
  more than once, in one role after the other.

  * `Kept` is what the schema and every publish keep of the rows;
  * `history` is the page's meaning: the admitted records that refer to the
    entity, newest first, each once;
  * `FitsPage`: no record of several references ends its second one on the page;
  * `history_page_iff`: a page holds the newest records exactly then;
  * `second_role_repeats`: a record in two roles fills a page of two.
-/
import Yaam.Index.Scoped
import Yaam.Index.Projection
import Yaam.Lib.Page

namespace Yaam.Index

open Text Contract Page

/-! ## What every index keeps -/

/-- Records have one row each and carry their own identifier; every reference belongs to a record
    and has its time. -/
structure Kept (T : Tables) : Prop where
  oneRow : (T.records.map (·.recordId)).Nodup
  named : ∀ row ∈ T.records, row.frontmatter.recordId = row.recordId
  dated : ∀ r ∈ T.entityRefs, ∃ row ∈ T.records, row.recordId = r.record ∧
    r.receivedMs = row.receivedMs

theorem Kept.empty : Kept .empty :=
  ⟨List.nodup_nil, List.forall_mem_nil _, List.forall_mem_nil _⟩

/-- **Every publish keeps it**, whatever was published before. -/
theorem Kept.published {T : Tables} (h : Kept T) {inp : PublishInput} {row : RecordRow} {ms : ℤ}
    (hrow : recordRow inp.record inp.searchableBody = .ok row)
    (hms : receivedMsOf inp.record.recordId (insertRecord row T.records) = some ms) :
    Kept (Index.published inp row ms T) := by
  obtain ⟨hid, -, hfront, -, -⟩ := recordRow_ok hrow
  have hcases := insertRecord_cases hid h.oneRow hms
  have hold : ∀ old ∈ T.records, old ∈ insertRecord row T.records := by
    intro old ho
    rcases hcases with ⟨-, -, -, hsame, -⟩ | ⟨-, happ, -⟩
    · rwa [hsame]
    · rw [happ]
      exact List.mem_append_left _ ho
  refine ⟨?_, fun r hr => ?_, ?_⟩
  · show ((insertRecord row T.records).map (·.recordId)).Nodup
    rcases hcases with ⟨-, -, -, hsame, -⟩ | ⟨hnew, happ, -⟩
    · rw [hsame]
      exact h.oneRow
    · rw [happ, List.map_append, List.nodup_append]
      refine ⟨h.oneRow, List.nodup_singleton _, fun k hk k' hk' he => ?_⟩
      obtain ⟨old, ho, rfl⟩ := List.mem_map.1 hk
      rw [List.mem_singleton.1 hk'] at he
      exact hnew old ho (he.trans hid)
  · rcases mem_upsert (show r ∈ insertRecord row T.records from hr) with rfl | hr | ⟨z, hz, -, rfl⟩
    · rw [hfront]
      exact hid.symm
    · exact h.named r hr
    · exact h.named r hz
  · -- the record's own references have its row's time
    have hown : ∃ r ∈ insertRecord row T.records, r.recordId = inp.record.recordId ∧ ms = r.receivedMs := by
      rcases hcases with ⟨old, ho, hoid, -, rfl⟩ | ⟨-, happ, rfl⟩
      · exact ⟨old, hold old ho, hoid, rfl⟩
      · refine ⟨row, ?_, hid, rfl⟩
        rw [happ]
        exact List.mem_append_right _ List.mem_cons_self
    intro r hr
    rw [show (Index.published inp row ms T).entityRefs = _ from insertEntities_refs ..] at hr
    refine forall_upsertAll (P := fun r : EntityRow => ∃ row' ∈ insertRecord row T.records,
      row'.recordId = r.record ∧ r.receivedMs = row'.receivedMs) ?_ ?_ ?_ r hr
    · intro x hx
      obtain ⟨e, -, rfl⟩ := List.mem_map.1 hx
      exact hown
    · intro x hx
      obtain ⟨row', hrow', hrec, htime⟩ := h.dated x hx
      exact ⟨row', hold row' hrow', hrec, htime⟩
    · intro x hx y hkey _
      obtain ⟨e, -, rfl⟩ := List.mem_map.1 hx
      obtain ⟨row', hrow', hrec, htime⟩ := hown
      exact ⟨row', hrow', hrec.trans (congrArg Prod.fst hkey).symm, htime⟩

theorem entityRows_receivedMs {f : ActionRecord} {ms : ℤ} {r : EntityRow} (h : r ∈ entityRows f ms) :
    r.receivedMs = ms := by
  rw [entityRows, insertEntities_refs] at h
  refine forall_upsertAll (P := fun r : EntityRow => r.receivedMs = ms) ?_ (fun _ hx => absurd hx List.not_mem_nil) ?_ r h
  · intro x hx
    obtain ⟨e, -, rfl⟩ := List.mem_map.1 hx
    rfl
  · intro x hx y _ _
    obtain ⟨e, -, rfl⟩ := List.mem_map.1 hx
    rfl

theorem Projects.kept {T : Tables} (h : Projects T) : Kept T where
  oneRow := h.oneRow
  named := h.named
  dated r hr := by
    by_cases hrow : ∃ row ∈ T.records, row.recordId = r.record
    · obtain ⟨row, hrow, hid⟩ := hrow
      have hmem : r ∈ entityRows row.frontmatter row.receivedMs := by
        rw [← h.entityRefs row hrow]
        exact List.mem_filter.2 ⟨hr, decide_eq_true hid.symm⟩
      exact ⟨row, hrow, hid, entityRows_receivedMs hmem⟩
    · have hnone := (h.owned r.record fun row hrow' hid => hrow ⟨row, hrow', hid⟩).1
      have hmem : r ∈ (T.entry r.record).entityRefs := List.mem_filter.2 ⟨hr, decide_eq_true rfl⟩
      rw [show T.entry r.record = _ from hnone] at hmem
      exact absurd hmem List.not_mem_nil

variable {T : Tables}

/-- A reference has its record's time. -/
theorem Kept.receivedMs_eq (hT : Kept T) {rec : RecordRow} {r : EntityRow} (hrec : rec ∈ T.records)
    (hr : r ∈ T.refsOf rec) : r.receivedMs = rec.receivedMs := by
  obtain ⟨hmem, hid⟩ := List.mem_filter.1 hr
  obtain ⟨row, hrow, hrid, htime⟩ := hT.dated r hmem
  rw [htime, List.inj_on_of_nodup_map hT.oneRow hrow hrec (hrid.trans (of_decide_eq_true hid))]

/-! ## Newest first -/

section

variable {α : Type} {f : α → ℤ} {g : α → ℕ} {x y : α}

theorem newer_iff : (compareLex (descending f) (descending g) x y).isLE = true ↔
    f y < f x ∨ f x = f y ∧ g y ≤ g x := by
  rw [compareLex, descending, descending]
  rcases lt_trichotomy (f y) (f x) with h | h | h
  · rw [compare_lt_iff_lt.2 h]
    exact iff_of_true rfl (.inl h)
  · have hthen : (compare (f y) (f x)).then (compare (g y) (g x)) = compare (g y) (g x) := by
      rw [compare_eq_iff_eq.2 h]
      rfl
    have hle : (compare (g y) (g x)).isLE = true ↔ g y ≤ g x := Nat.isLE_compare
    rw [hthen]
    refine hle.trans ⟨fun hg => .inr ⟨h.symm, hg⟩, ?_⟩
    rintro (hn | ⟨-, hg⟩)
    · exact absurd h hn.ne
    · exact hg
  · rw [compare_gt_iff_gt.2 h]
    refine iff_of_false Bool.false_ne_true fun hn => ?_
    omega

/-- Rows in order of time and place stand in that order. -/
theorem pairwise_newer (rows : List α) :
    (orderBy (compareLex (descending f) (descending g)) rows).Pairwise fun x y =>
      f y < f x ∨ f x = f y ∧ g y ≤ g x := by
  refine (List.pairwise_mergeSort (fun a b c hab hbc => ?_) (fun a b => ?_) rows).imp fun h => newer_iff.1 h
  · rw [newer_iff] at hab hbc ⊢
    omega
  · rw [Bool.or_eq_true, newer_iff, newer_iff]
    omega

end

/-! ## The history of an entity -/

/-- A record before another, newest first. -/
def Newer (T : Tables) (x y : RecordRow) : Prop :=
  y.receivedMs < x.receivedMs ∨ x.receivedMs = y.receivedMs ∧ T.pk y < T.pk x

instance (T : Tables) : DecidableRel (Newer T) := fun _ _ => inferInstanceAs (Decidable (_ ∨ _))

theorem Newer.irrefl (x : RecordRow) : ¬ Newer T x x := by
  rintro (h | ⟨-, h⟩)
  · exact lt_irrefl _ h
  · exact lt_irrefl _ h

theorem Newer.asymm (x y : RecordRow) (h : Newer T x y) : ¬ Newer T y x := by
  rintro (h' | ⟨he, h'⟩)
  · rcases h with h | ⟨he, h⟩
    · exact lt_asymm h h'
    · omega
  · rcases h with h | ⟨-, h⟩
    · omega
    · exact lt_asymm h h'

section
variable (T) (kind id : Text) (floor : Floor) (window : Option Window) (scope : Scope)

/-- A reference to the entity, at or above the floor and inside the window. -/
def refersTo (er : EntityRow) : Bool :=
  er.kind = kind ∧ er.entityId = id ∧ floor.met er.confidence ∧ window.all (·.contains er.receivedMs)

/-- How many references to the entity a record makes. -/
def references (rec : RecordRow) : ℕ := (T.refsOf rec).countP (refersTo kind id floor window)

/-- **What a page of an entity's history is of**: the admitted records that refer to the entity,
    newest first. -/
def history : List RecordRow :=
  orderBy (newestRecord T) (T.records.filter fun rec =>
    scope.admits rec ∧ 0 < references T kind id floor window rec)

/-- How many references to the entity the newer admitted records make. -/
def newerReferences (rec : RecordRow) : ℕ :=
  ((T.records.filter fun r => scope.admits r ∧ Newer T r rec).map
    (references T kind id floor window)).sum

/-- No record of several references has its second one on the page. -/
def FitsPage (n : ℕ) : Prop :=
  ∀ rec ∈ T.records, scope.admits rec = true → 2 ≤ references T kind id floor window rec →
    n ≤ newerReferences T kind id floor window scope rec + 1

/-- The rows of the whole history, as they are read. -/
def historyRows : List RecordRow :=
  byEntityRows T kind id floor window .everything scope .id

end

variable {kind id : Text} {floor : Floor} {window : Option Window} {scope : Scope} {rec : RecordRow}

theorem mem_history : rec ∈ history T kind id floor window scope ↔ rec ∈ T.records ∧
    scope.admits rec = true ∧ ∃ er ∈ T.refsOf rec, refersTo kind id floor window er = true := by
  rw [history, mem_orderBy, List.mem_filter, decide_eq_true_eq, references, List.countP_pos_iff]

theorem byEntityRows_page (limit : Option UInt32) (select : Select) :
    byEntityRows T kind id floor window (.page limit) scope select =
      (historyRows T kind id floor window scope).take (select.page limit) :=
  List.map_take

/-- The rows of one record. -/
theorem countP_matches (p : RecordRow → Bool) (rec : RecordRow) :
    (((T.refsOf rec).filter fun er => er.kind = kind ∧ er.entityId = id ∧ floor.met er.confidence ∧
      window.all (·.contains er.receivedMs) ∧ scope.admits rec).map (·, rec)).countP (fun r => p r.2) =
      if scope.admits rec && p rec then references T kind id floor window rec else 0 := by
  rw [List.countP_map]
  cases hp : p rec with
  | false =>
    rw [Bool.and_false, if_neg Bool.false_ne_true, List.countP_eq_zero]
    exact fun er _ => by simp [hp]
  | true =>
    rw [Bool.and_true]
    refine (List.countP_eq_length.2 fun er _ => hp).trans ?_
    rw [← List.countP_eq_length_filter]
    cases ha : scope.admits rec with
    | false =>
      rw [if_neg Bool.false_ne_true, List.countP_eq_zero]
      exact fun er _ h => by simp at h
    | true =>
      rw [if_pos rfl, references]
      refine List.countP_congr fun er _ => ?_
      simp [refersTo]

/-- How many of the rows read are of records with a property. -/
theorem countP_historyRows (p : RecordRow → Bool) :
    (historyRows T kind id floor window scope).countP p =
      ((T.records.filter fun r => scope.admits r && p r).map
        (references T kind id floor window)).sum := by
  have hrows : ∀ rows : List RecordRow, (rows.flatMap fun rec => ((T.refsOf rec).filter fun er =>
      er.kind = kind ∧ er.entityId = id ∧ floor.met er.confidence ∧
        window.all (·.contains er.receivedMs) ∧ scope.admits rec).map (·, rec)).countP
          (fun r => p r.2) =
      ((rows.filter fun r => scope.admits r && p r).map (references T kind id floor window)).sum := by
    intro rows
    induction rows with
    | nil => rfl
    | cons rec rows ih =>
      rw [List.flatMap_cons, List.countP_append, countP_matches, ih, List.filter_cons]
      split_ifs
      · rw [List.map_cons, List.sum_cons]
      · exact Nat.zero_add _
  rw [historyRows, byEntityRows, Extent.cut, List.countP_map, orderBy,
    (List.mergeSort_perm _ _).countP_eq]
  exact hrows T.records

theorem nodup_records (hT : Kept T) : T.records.Nodup := List.Nodup.of_map _ hT.oneRow

/-- A record has as many rows as it makes references. -/
theorem count_historyRows (hT : Kept T) (hrec : rec ∈ T.records) (hadm : scope.admits rec = true) :
    (historyRows T kind id floor window scope).count rec = references T kind id floor window rec := by
  have hone : (T.records.filter fun r => scope.admits r && r == rec) = [rec] := by
    have hsame : (T.records.filter fun r => scope.admits r && r == rec) =
        T.records.filter (· == rec) := by
      refine List.filter_congr fun r _ => ?_
      by_cases h : r = rec
      · rw [h, hadm, Bool.true_and]
      · rw [beq_eq_false_iff_ne.2 h, Bool.and_false]
    rw [hsame, List.filter_beq, List.count_eq_one_of_mem (nodup_records hT) hrec]
    rfl
  rw [List.count, countP_historyRows, hone, List.map_singleton, List.sum_singleton]

theorem mem_historyRows : rec ∈ historyRows T kind id floor window scope ↔
    rec ∈ history T kind id floor window scope := by
  rw [mem_history, historyRows, byEntityRows, Extent.cut]
  simp only [List.mem_map, mem_orderBy, Prod.exists, exists_eq_right, mem_entityMatches, refersTo,
    decide_eq_true_eq]
  constructor
  · rintro ⟨er, hrec, her, hkind, hid, hfloor, hwin, hadm⟩
    exact ⟨hrec, hadm, er, her, hkind, hid, hfloor, hwin⟩
  · rintro ⟨hrec, hadm, er, her, hkind, hid, hfloor, hwin⟩
    exact ⟨er, hrec, her, hkind, hid, hfloor, hwin, hadm⟩

theorem pk_inj {x y : RecordRow} (hx : x ∈ T.records) (h : T.pk x = T.pk y) : x = y :=
  (List.idxOf_inj hx).1 h

/-- The rows stand newest first, a record's together. -/
theorem pairwise_historyRows (hT : Kept T) :
    (historyRows T kind id floor window scope).Pairwise fun x y => x = y ∨ Newer T x y := by
  refine List.pairwise_map.2 ((pairwise_newer _).imp_of_mem fun {x y} hx hy h => ?_)
  have hx' := mem_entityMatches.1 (mem_orderBy.1 hx)
  have hy' := mem_entityMatches.1 (mem_orderBy.1 hy)
  rw [hT.receivedMs_eq hx'.1 hx'.2.1, hT.receivedMs_eq hy'.1 hy'.2.1] at h
  rcases h with h | ⟨ht, hpk⟩
  · exact .inr (.inl h)
  · rcases Nat.lt_or_eq_of_le hpk with hlt | heq
    · exact .inr (.inr ⟨ht, hlt⟩)
    · exact .inl (pk_inj hy'.1 heq).symm

theorem nodup_history (hT : Kept T) : (history T kind id floor window scope).Nodup :=
  (List.mergeSort_perm _ _).nodup_iff.2 ((nodup_records hT).filter _)

/-- **A history is in strictly descending order.** -/
theorem pairwise_history (hT : Kept T) :
    (history T kind id floor window scope).Pairwise (Newer T) := by
  refine ((pairwise_newer _).and (nodup_history hT)).imp_of_mem fun {x y} hx hy h => ?_
  obtain ⟨h | ⟨ht, hpk⟩, hne⟩ := h
  · exact .inl h
  · refine .inr ⟨ht, Nat.lt_of_le_of_ne hpk fun heq => hne ?_⟩
    exact (pk_inj (mem_history.1 hy).1 heq).symm

/-- **The rows name the history**, each record as often as it has references. -/
theorem eraseDups_historyRows (hT : Kept T) :
    (historyRows T kind id floor window scope).eraseDups = history T kind id floor window scope := by
  have hrows : (historyRows T kind id floor window scope).eraseDups.Pairwise (Newer T) := by
    refine (((pairwise_historyRows hT).sublist (Gather.eraseDups_sublist _)).and
      (Recurse.eraseDups_nodup _)).imp fun {x y} h => ?_
    exact h.1.resolve_left h.2
  refine List.Perm.eq_of_pairwise (fun x y _ _ hxy hyx => absurd hyx (hxy.asymm x y)) hrows
    (pairwise_history hT) ?_
  refine (List.perm_ext_iff_of_nodup (Recurse.eraseDups_nodup _) (nodup_history hT)).2 fun rec => ?_
  rw [List.mem_eraseDups, mem_historyRows]

/-- When the rows of a page are the newest records. -/
theorem take_historyRows_iff (hT : Kept T) (n : ℕ) :
    (historyRows T kind id floor window scope).take n =
        (history T kind id floor window scope).take n ↔
      FitsPage T kind id floor window scope n := by
  rw [← eraseDups_historyRows hT, take_eraseDups_iff,
    nodup_take_iff Newer.irrefl Newer.asymm (pairwise_historyRows hT)]
  have hnewer : ∀ rec, (historyRows T kind id floor window scope).countP (Newer T · rec) =
      newerReferences T kind id floor window scope rec := by
    intro rec
    rw [countP_historyRows, newerReferences]
    simp only [Bool.decide_and, Bool.decide_eq_true]
  simp only [hnewer, FitsPage]
  constructor
  · intro h rec hrec hadm htwo
    rw [← count_historyRows hT hrec hadm] at htwo
    exact h rec (List.count_pos_iff.1 (by omega)) htwo
  · intro h rec hrow htwo
    obtain ⟨hrec, hadm, -⟩ := mem_history.1 (mem_historyRows.1 hrow)
    rw [count_historyRows hT hrec hadm] at htwo
    exact h rec hrec hadm htwo

theorem map_eq_map_iff {α β : Type} {f : α → β} {l l' : List α}
    (hf : ∀ x ∈ l, ∀ y ∈ l', f x = f y → x = y) : l.map f = l'.map f ↔ l = l' := by
  refine ⟨fun h => ?_, congrArg _⟩
  induction l generalizing l' with
  | nil => exact (List.map_eq_nil_iff.1 h.symm).symm
  | cons x l ih =>
    cases l' with
    | nil => cases h
    | cons y l' =>
      obtain ⟨hxy, hl⟩ := List.cons.inj h
      rw [hf x List.mem_cons_self y List.mem_cons_self hxy,
        ih (fun a ha b hb => hf a (List.mem_cons_of_mem x ha) b (List.mem_cons_of_mem y hb)) hl]

theorem mapM_storedStructure (hT : Kept T) {rows : List RecordRow} (hrows : rows ⊆ T.records) :
    rows.mapM storedStructure = .ok (rows.map fun rec => rec.frontmatter.bare) := by
  induction rows with
  | nil => rfl
  | cons rec rows ih =>
    have hrec : storedStructure rec = .ok rec.frontmatter.bare :=
      if_pos (hT.named rec (hrows List.mem_cons_self))
    rw [List.mapM_cons, hrec, ih fun x hx => hrows (List.mem_cons_of_mem rec hx)]
    rfl

/-- When the whole history names each record once. -/
theorem nodup_historyRows_iff (hT : Kept T) :
    (historyRows T kind id floor window .unrestricted).Nodup ↔
      ∀ rec ∈ T.records, references T kind id floor window rec ≤ 1 := by
  rw [nodup_iff]
  constructor
  · intro h rec hrec
    rw [← count_historyRows hT hrec (Scope.admits_unrestricted rec)]
    by_cases hmem : rec ∈ historyRows T kind id floor window .unrestricted
    · exact h rec hmem
    · rw [List.count_eq_zero_of_not_mem hmem]
      exact Nat.zero_le 1
  · intro h rec hmem
    obtain ⟨hrec, hadm, -⟩ := mem_history.1 (mem_historyRows.1 hmem)
    rw [count_historyRows hT hrec hadm]
    exact h rec hrec

/-- **A page of an entity's history holds its newest records exactly when it fits**: no record of
    several references has its second one on the page.  The unbounded read names each record once
    exactly when none makes several references. -/
theorem history_page_iff (hT : Kept T) (kind id : Text) (floor : Floor) (window : Option Window)
    (limit : Option UInt32) (scope : Scope) :
    ((history T kind id floor window scope).Pairwise (Newer T) ∧
      ∀ rec, rec ∈ history T kind id floor window scope ↔ rec ∈ T.records ∧
        scope.admits rec = true ∧ ∃ er ∈ T.refsOf rec, refersTo kind id floor window er = true) ∧
    (byEntity T kind id floor window limit scope =
        ((history T kind id floor window scope).take (Select.id.page limit)).map (·.recordId) ↔
      FitsPage T kind id floor window scope (Select.id.page limit)) ∧
    (byEntityStructures T kind id floor window limit scope =
        .ok (((history T kind id floor window scope).take (Select.structure_.page limit)).map
          fun rec => rec.frontmatter.bare) ↔
      FitsPage T kind id floor window scope (Select.structure_.page limit)) ∧
    ((byEntityUnbounded T kind id floor).Perm
        ((history T kind id floor none .unrestricted).map (·.recordId)) ↔
      ∀ rec ∈ T.records, references T kind id floor none rec ≤ 1) := by
  have hrows : ∀ {n : ℕ} {window scope}, ∀ x ∈ (historyRows T kind id floor window scope).take n,
      x ∈ T.records := fun x hx => (mem_history.1 (mem_historyRows.1 (List.mem_of_mem_take hx))).1
  have hpage : ∀ {n : ℕ}, ∀ x ∈ (history T kind id floor window scope).take n, x ∈ T.records :=
    fun x hx => (mem_history.1 (List.mem_of_mem_take hx)).1
  refine ⟨⟨pairwise_history hT, fun rec => mem_history⟩, ?_, ?_, ?_⟩
  · rw [byEntity, byEntityRows_page, ← take_historyRows_iff hT]
    exact map_eq_map_iff fun x hx y hy => List.inj_on_of_nodup_map hT.oneRow (hrows x hx) (hpage y hy)
  · rw [byEntityStructures, byEntityRows_page, mapM_storedStructure hT hrows,
      ← take_historyRows_iff hT, Except.ok.injEq]
    refine map_eq_map_iff fun x hx y hy h => ?_
    have hid : x.frontmatter.bare.recordId = y.frontmatter.bare.recordId :=
      congrArg ActionRecord.recordId h
    replace hid : x.frontmatter.recordId = y.frontmatter.recordId := hid
    rw [hT.named x (hrows x hx), hT.named y (hpage y hy)] at hid
    exact List.inj_on_of_nodup_map hT.oneRow (hrows x hx) (hpage y hy) hid
  · rw [← nodup_historyRows_iff hT]
    have hmap : ((history T kind id floor none .unrestricted).map (·.recordId)).Nodup :=
      (List.nodup_map_iff_inj_on (nodup_history hT)).2 fun x hx y hy =>
        List.inj_on_of_nodup_map hT.oneRow (mem_history.1 hx).1 (mem_history.1 hy).1
    constructor
    · intro h
      have hids : ((historyRows T kind id floor none .unrestricted).map (·.recordId)).Nodup :=
        h.nodup_iff.2 hmap
      exact List.Nodup.of_map _ hids
    · intro h
      have hsame : historyRows T kind id floor none .unrestricted =
          history T kind id floor none .unrestricted := by
        rw [← eraseDups_historyRows hT, eraseDups_of_nodup h]
      have hids : byEntityUnbounded T kind id floor =
          (history T kind id floor none .unrestricted).map (·.recordId) :=
        congrArg (List.map fun rec : RecordRow => rec.recordId) hsame
      exact List.Perm.of_eq hids

/-! ## A record in two roles -/

/-- A note about a ticket, in some roles. -/
def ticketInput (id : RecordId) (receivedAt : Text) (roles : List EntityRole) : PublishInput where
  record :=
    { recordId := id, schemaVer := 1, at_ := receivedAt, receivedAt, backfilled := false,
      agent := ['a'], agentVer := none, correlationId := none, action := ['n'], outcome := .success,
      attrs := .empty, entities := roles.map fun role => ⟨['t'], ['A'], role, fieldConfidence⟩,
      subjects := [], visibility := .org, team := none, dataClass := .internal, redactionPolicy := [],
      fieldsMasked := [], tags := [], summary := [] }
  searchableBody := []
  subjectKeys := []

/-- A note about a ticket that names it as its subject and as context, and an older one. -/
def twoRoles : Tables :=
  (publish (ticketInput (lettered 'A' isCrockfordDigit_A) "2026-01-01T00:00:00Z".toList [.primary])
    (publish (ticketInput (lettered 'B' isCrockfordDigit_B) "2026-01-02T00:00:00Z".toList
      [.primary, .context]) .empty).2).2

theorem kept_twoRoles : Kept twoRoles :=
  ⟨by decide +kernel, by decide +kernel, by decide +kernel⟩

instance (T : Tables) (kind id : Text) (floor : Floor) (window : Option Window) (scope : Scope)
    (n : ℕ) : Decidable (FitsPage T kind id floor window scope n) :=
  inferInstanceAs (Decidable (∀ rec ∈ T.records, scope.admits rec = true →
    2 ≤ references T kind id floor window rec →
      n ≤ newerReferences T kind id floor window scope rec + 1))

theorem history_page_two_roles :
    byEntity twoRoles ['t'] ['A'] (.finite fieldConfidence) none (some 1) .unrestricted =
      ((history twoRoles ['t'] ['A'] (.finite fieldConfidence) none .unrestricted).take 1).map
        (·.recordId) :=
  (history_page_iff kept_twoRoles ['t'] ['A'] (.finite fieldConfidence) none (some 1)
    .unrestricted).2.1.2 (by decide +kernel)

/-- **A second role is a second place on the page**: of the two newest records of a ticket the
    newer one is returned twice and the older one not at all. -/
theorem second_role_repeats : Kept twoRoles ∧
    byEntity twoRoles ['t'] ['A'] (.finite fieldConfidence) none (some 2) .unrestricted =
      [lettered 'B' (by decide), lettered 'B' (by decide)] ∧
    ((history twoRoles ['t'] ['A'] (.finite fieldConfidence) none .unrestricted).take 2).map
      (·.recordId) = [lettered 'B' (by decide), lettered 'A' (by decide)] := by
  refine ⟨kept_twoRoles, ?_, ?_⟩
  · rw [byEntity, byEntityRows, orderBy, List.mergeSort_of_pairwise (by decide +kernel)]
    decide +kernel
  · rw [history, orderBy, List.mergeSort_of_pairwise (by decide +kernel)]
    decide +kernel

end Yaam.Index
