/-
  When the further hops of a traversal are news.

  A hop past the first is meant for what the seed's own records do not name.
  The recursive query leaves out the seed as a far end, and tells rows apart by
  their confidence too.

  * `Walked` are the entities a traversal goes on from, over stated references;
  * `IsNews`: no record of the seed makes a further hop, and no edge comes twice;
  * `Plain`: what the references have to be like;
  * `is_news_iff`: a traversal over plain references is news, and one that was
    not cut is only then;
  * `seed_record_again`: a record of three entities makes a second hop of its own.
-/
import Yaam.Index.History

namespace Yaam.Index

open Text Contract

variable {T : Tables} {t : Traversal} {e e' : Link RecordRow}

/-- What is asked of a traversal's answer. -/
structure IsNews (T : Tables) (t : Traversal) (links : List (Link RecordId)) : Prop where
  /-- No further hop is made by a record that references the seed. -/
  far : ∀ l ∈ links, 2 ≤ l.hop → ∀ rec ∈ T.records, rec.recordId = l.via → ∀ r ∈ T.refsOf rec,
    r.entity = t.seed → t.window.contains r.receivedMs = true →
      t.minConfidence.met r.confidence = false
  /-- No two edges have the same hop, endpoints and record. -/
  once : links.Pairwise fun l l' =>
    ¬ (l.hop = l'.hop ∧ l.from_ = l'.from_ ∧ l.to_ = l'.to_ ∧ l.via = l'.via)

/-! ## What a traversal goes on from -/

/-- The entities that stated references lead to, and how many hops they are away. -/
inductive Walked (T : Tables) (t : Traversal) : EntityKey → ℕ → Prop where
  | near {rec : RecordRow} {a b : EntityRow} : Cited T t rec a t.seed →
      t.minConfidence.met a.confidence = true → t.rule.stated a.confidence → b ∈ T.refsOf rec →
      b.entity ≠ t.seed → t.minConfidence.met b.confidence = true → t.rule.stated b.confidence →
      Walked T t b.entity 1
  | further {x : EntityKey} {n : ℕ} {rec : RecordRow} {a b : EntityRow} : Walked T t x n →
      n < t.depth.toNat → t.rule.corridor (inWindow T t x) → Cited T t rec a x →
      t.rule.stated a.confidence → b ∈ T.refsOf rec → b.entity ≠ x → b.entity ≠ t.seed →
      t.minConfidence.met b.confidence = true → t.rule.stated b.confidence →
      Walked T t b.entity (n + 1)

theorem stated_weaker {a b : Confidence} : t.rule.stated (weaker a b) ↔
    t.rule.stated a ∧ t.rule.stated b := by
  rw [← full_iff, ← full_iff, ← full_iff, full_weaker, Bool.and_eq_true]

/-- **They are the far ends of the stated edges.** -/
theorem walked_iff {x : EntityKey} {n : ℕ} : Walked T t x n ↔
    ∃ e, Edge T t t.rule e ∧ e.to_ = x ∧ e.hop = n ∧ t.rule.stated e.confidence := by
  constructor
  · intro h
    induction h with
    | near hc ha hsa hb hne hmet hsb =>
      exact ⟨_, .seed hc ha hb hne hmet, rfl, rfl, stated_weaker.2 ⟨hsa, hsb⟩⟩
    | further _ hdepth hcorr hc hsa hb hne hseed hmet hsb ih =>
      obtain ⟨e, he, rfl, rfl, hs⟩ := ih
      exact ⟨_, .next he hdepth hs hcorr hc hsa hb hne hseed hmet, rfl, rfl,
        stated_weaker.2 ⟨hsa, hsb⟩⟩
  · rintro ⟨e, he, rfl, rfl, hs⟩
    induction he with
    | seed hc ha hb hne hmet =>
      obtain ⟨hsa, hsb⟩ := stated_weaker.1 hs
      exact .near hc ha hsa hb hne hmet hsb
    | next _ hdepth hs' hcorr hc hsa hb hne hseed hmet ih =>
      exact .further (ih hs') hdepth hcorr hc hsa hb hne hseed hmet (stated_weaker.1 hs).2

/-! ## Plain references -/

/-- **What the references have to be like.**  The references of one record to two entities are
    weakest the same, in whatever roles: where it names the seed, and where it names an entity the
    traversal goes on from.  A record that names both names nothing else. -/
structure Plain (T : Tables) (t : Traversal) : Prop where
  first : ∀ {rec : RecordRow} {a a' b b' : EntityRow}, Cited T t rec a t.seed →
    t.minConfidence.met a.confidence = true → Cited T t rec a' t.seed →
    t.minConfidence.met a'.confidence = true → b ∈ T.refsOf rec → b' ∈ T.refsOf rec →
    b.entity ≠ t.seed → b'.entity = b.entity → t.minConfidence.met b.confidence = true →
    t.minConfidence.met b'.confidence = true →
    weaker a.confidence b.confidence = weaker a'.confidence b'.confidence
  later : ∀ {x : EntityKey} {n : ℕ} {rec : RecordRow} {a a' b b' : EntityRow}, Walked T t x n →
    n < t.depth.toNat → t.rule.corridor (inWindow T t x) → Cited T t rec a x →
    t.rule.stated a.confidence → Cited T t rec a' x → t.rule.stated a'.confidence →
    b ∈ T.refsOf rec → b' ∈ T.refsOf rec → b.entity ≠ x → b.entity ≠ t.seed →
    b'.entity = b.entity → t.minConfidence.met b.confidence = true →
    t.minConfidence.met b'.confidence = true →
    weaker a.confidence b.confidence = weaker a'.confidence b'.confidence
  apart : ∀ {x : EntityKey} {n : ℕ} {rec : RecordRow} {a b c : EntityRow}, Walked T t x n →
    n < t.depth.toNat → t.rule.corridor (inWindow T t x) → Cited T t rec a x →
    t.rule.stated a.confidence → Cited T t rec c t.seed →
    t.minConfidence.met c.confidence = true → b ∈ T.refsOf rec →
    t.minConfidence.met b.confidence = true → b.entity = x ∨ b.entity = t.seed

theorem edge_of_mem_linkedRows (h : e ∈ linkedRows T t) : Edge T t t.rule e :=
  edge_iff_derivable.2 (Recurse.derivable_of_mem_recurse (mem_orderBy.1 (List.mem_of_mem_take h)))

theorem linked_eq_cited : linked T t = (linkedRows T t).map Link.cited :=
  List.map_congr_left fun _ he => (edge_of_mem_linkedRows he).withVia _

theorem nodup_linkedRows : (linkedRows T t).Nodup :=
  ((List.mergeSort_perm _ _).nodup_iff.2 (Recurse.recurse_nodup _ _ _)).sublist
    (List.take_sublist _ _)

/-- A record of the seed makes no further hop. -/
theorem Plain.far (h : Plain T t) (he : Edge T t t.rule e) (hhop : 2 ≤ e.hop) {c : EntityRow}
    (hc : c ∈ T.refsOf e.via) (hseed : c.entity = t.seed)
    (hwin : t.window.contains c.receivedMs = true) : t.minConfidence.met c.confidence = false := by
  cases he with
  | seed => exact absurd hhop (by simp [edge])
  | @next e rec a b he hdepth hstated hcorr ha hsa hb hne hnseed hmet =>
    by_contra hmetc
    have hciting : Cited T t rec c t.seed := ⟨ha.record, ha.admitted, hc, hseed, hwin⟩
    have hx := walked_iff.2 ⟨e, he, rfl, rfl, hstated⟩
    rcases h.apart hx hdepth hcorr ha hsa hciting (Bool.not_eq_false _ ▸ hmetc) hb hmet with h | h
    · exact hne h
    · exact hnseed h

/-- Edges of one hop, one record and the same ends are one edge. -/
theorem Plain.once (hT : Kept T) (h : Plain T t) (he : Edge T t t.rule e) (he' : Edge T t t.rule e')
    (hhop : e.hop = e'.hop) (hfrom : e.from_ = e'.from_) (hto : e.to_ = e'.to_)
    (hvia : e.via.recordId = e'.via.recordId) : e = e' := by
  cases he with
  | @seed rec a b hc ha hb hne hmet =>
    cases he' with
    | @seed rec' a' b' hc' ha' hb' hne' hmet' =>
      obtain rfl := List.inj_on_of_nodup_map hT.oneRow hc.record hc'.record hvia
      have hconf := h.first hc ha hc' ha' hb hb' hne hto.symm hmet hmet'
      replace hto : b.entity = b'.entity := hto
      rw [edge, edge, hconf, hto]
    | next he' =>
      have := he'.one_le_hop
      simp only [edge] at hhop
      omega
  | @next e₁ rec a b he₁ hdepth hstated hcorr hc hsa hb hne hnseed hmet =>
    cases he' with
    | seed =>
      have := he₁.one_le_hop
      simp only [edge] at hhop
      omega
    | @next e₂ rec' a' b' he₂ hdepth' hstated' hcorr' hc' hsa' hb' hne' hnseed' hmet' =>
      obtain rfl := List.inj_on_of_nodup_map hT.oneRow hc.record hc'.record hvia
      replace hfrom : e₁.to_ = e₂.to_ := hfrom
      replace hto : b.entity = b'.entity := hto
      have hconf := h.later (walked_iff.2 ⟨e₁, he₁, rfl, rfl, hstated⟩) hdepth hcorr hc hsa
        (hfrom ▸ hc') hsa' hb hb' hne hnseed hto.symm hmet hmet'
      simp only [edge] at hhop ⊢
      rw [hconf, hto, hfrom, hhop]

/-- The edges of a record that answers are told apart by what is answered. -/
theorem IsNews.eq_of_same (h : IsNews T t (linked T t)) {l l' : Link RecordId} (hl : l ∈ linked T t)
    (hl' : l' ∈ linked T t) (hhop : l.hop = l'.hop) (hfrom : l.from_ = l'.from_) (hto : l.to_ = l'.to_)
    (hvia : l.via = l'.via) : l = l' := by
  by_contra hne
  have hsymm : Std.Symm fun l l' : Link RecordId =>
      ¬ (l.hop = l'.hop ∧ l.from_ = l'.from_ ∧ l.to_ = l'.to_ ∧ l.via = l'.via) :=
    ⟨fun _ _ h h' => h ⟨h'.1.symm, h'.2.1.symm, h'.2.2.1.symm, h'.2.2.2.symm⟩⟩
  exact h.once.forall hl hl' hne ⟨hhop, hfrom, hto, hvia⟩

/-- **A traversal over plain references is news**; and one that neither its frontier nor its page
    cut is news only over plain references. -/
theorem is_news_iff (hT : Kept T) : (Plain T t → IsNews T t (linked T t)) ∧
    ((reached T t).length < MAX_FRONTIER → (reached T t).length ≤ linkPage t →
      (IsNews T t (linked T t) ↔ Plain T t)) := by
  have hnews : Plain T t → IsNews T t (linked T t) := by
    intro h
    rw [linked_eq_cited]
    refine ⟨fun l hl hhop rec hrec hvia r hr hseed hwin => ?_, ?_⟩
    · obtain ⟨e, he, rfl⟩ := List.mem_map.1 hl
      refine h.far (edge_of_mem_linkedRows he) hhop ?_ hseed hwin
      rwa [Tables.refsOf, show rec.recordId = e.via.recordId from hvia] at hr
    · refine List.pairwise_map.2 (nodup_linkedRows.imp_of_mem fun {e e'} he he' hne hsame => hne ?_)
      exact h.once hT (edge_of_mem_linkedRows he) (edge_of_mem_linkedRows he') hsame.1 hsame.2.1
        hsame.2.2.1 hsame.2.2.2
  refine ⟨hnews, fun hfrontier hpage => ⟨fun h => ?_, hnews⟩⟩
  have hmem : ∀ {e}, Edge T t t.rule e → e.cited ∈ linked T t := fun he =>
    (mem_linked hfrontier hpage).2 ⟨_, he, rfl⟩
  refine ⟨?_, ?_, ?_⟩
  · intro rec a a' b b' hc ha hc' ha' hb hb' hne hsame hmet hmet'
    have he := Edge.seed hc ha hb hne hmet (R := t.rule)
    have he' := Edge.seed hc' ha' hb' (hsame ▸ hne) hmet' (R := t.rule)
    exact congrArg Link.confidence (h.eq_of_same (hmem he) (hmem he') rfl rfl hsame.symm rfl)
  · intro x n rec a a' b b' hx hdepth hcorr hc hsa hc' hsa' hb hb' hne hnseed hsame hmet hmet'
    obtain ⟨e, he, rfl, rfl, hstated⟩ := walked_iff.1 hx
    have he₁ := Edge.next he hdepth hstated hcorr hc hsa hb hne hnseed hmet
    have he₂ := Edge.next he hdepth hstated hcorr hc' hsa' hb' (hsame ▸ hne) (hsame ▸ hnseed) hmet'
    exact congrArg Link.confidence (h.eq_of_same (hmem he₁) (hmem he₂) rfl rfl hsame.symm rfl)
  · intro x n rec a b c hx hdepth hcorr hc hsa hciting hmetc hb hmet
    by_contra hno
    obtain ⟨hne, hnseed⟩ := not_or.1 hno
    obtain ⟨e, he, rfl, rfl, hstated⟩ := walked_iff.1 hx
    have hnext := Edge.next he hdepth hstated hcorr hc hsa hb hne hnseed hmet
    have hhop : 2 ≤ e.hop + 1 := Nat.succ_le_succ he.one_le_hop
    have := h.far _ (hmem hnext) hhop rec hc.record rfl c hciting.reference hciting.entity
      hciting.window
    rw [hmetc] at this
    cases this

/-! ## Where references are plain, and where not -/

theorem Walked.ne_seed {x : EntityKey} {n : ℕ} (h : Walked T t x n) : x ≠ t.seed := by
  cases h with
  | near _ _ _ _ hne => exact hne
  | further _ _ _ _ _ _ _ hseed => exact hseed

/-- References are plain where a record gives an entity one confidence, whatever the roles, and
    names at most one entity beside the seed. -/
theorem plain_of_one_beside
    (hone : ∀ rec ∈ T.records, ∀ r ∈ T.refsOf rec, ∀ r' ∈ T.refsOf rec, r.entity = r'.entity →
      r.confidence = r'.confidence)
    (hbeside : ∀ rec ∈ T.records, ∀ c ∈ T.refsOf rec, c.entity = t.seed → ∀ r ∈ T.refsOf rec,
      ∀ r' ∈ T.refsOf rec, r.entity ≠ t.seed → r'.entity ≠ t.seed → r.entity = r'.entity) :
    Plain T t where
  first hc _ hc' _ hb hb' _ hsame _ _ := by
    rw [hone _ hc.record _ hc.reference _ hc'.reference (hc.entity.trans hc'.entity.symm),
      hone _ hc.record _ hb _ hb' hsame.symm]
  later _ _ _ hc _ hc' _ hb hb' _ _ hsame _ _ := by
    rw [hone _ hc.record _ hc.reference _ hc'.reference (hc.entity.trans hc'.entity.symm),
      hone _ hc.record _ hb _ hb' hsame.symm]
  apart hx _ _ hc _ hciting _ hb _ := by
    refine or_iff_not_imp_right.2 fun hseed => ?_
    rw [← hc.entity]
    exact hbeside _ hc.record _ hciting.reference hciting.entity _ hb _ hc.reference hseed
      (hc.entity ▸ hx.ne_seed)

/-- A record of the seed and another entity, and a record of that and a third. -/
def chained : Tables :=
  let a := lettered 'A' isCrockfordDigit_A
  let b := lettered 'B' isCrockfordDigit_B
  { Tables.empty with
    records := [plainRow a, plainRow b]
    entityRefs := [naming a ticketA fieldConfidence, naming a ticketB fieldConfidence,
      naming b ticketB fieldConfidence, naming b ticketC fieldConfidence] }

theorem is_news_chained :
    IsNews chained (lookFrom 2 32) (linked chained (lookFrom 2 32)) :=
  (is_news_iff (T := chained) (t := lookFrom 2 32) ⟨by decide +kernel, by decide +kernel, by decide +kernel⟩).1
    (plain_of_one_beside (by decide +kernel) (by decide +kernel))

/-- One record of three entities. -/
def together : Tables :=
  let a := lettered 'A' isCrockfordDigit_A
  { Tables.empty with
    records := [plainRow a]
    entityRefs := [naming a ticketA fieldConfidence, naming a ticketB fieldConfidence,
      naming a ticketC fieldConfidence] }

def half : Confidence := ⟨1 / 2, isF32_half⟩

/-- One record of the seed and an entity in two roles, stated in one and inferred in the other. -/
def inTwoRoles : Tables :=
  let a := lettered 'A' isCrockfordDigit_A
  { Tables.empty with
    records := [plainRow a]
    entityRefs := [naming a ticketA fieldConfidence, naming a ticketB half,
      { naming a ticketB fieldConfidence with role := .primary }] }

/-- `lookFrom`, content with inferred references. -/
def lookWide : Traversal := { lookFrom 1 32 with minConfidence := .finite half }

/-- What a short recursion reached is answered. -/
theorem cited_mem_linked (hfrontier : (reached T t).length < MAX_FRONTIER)
    (hpage : (reached T t).length ≤ linkPage t) (he : e ∈ reached T t) : e.cited ∈ linked T t :=
  (mem_linked hfrontier hpage).2 ⟨e, edge_iff_derivable.2 (Recurse.derivable_of_mem_recurse he), rfl⟩

/-- **A record of the seed comes again at the second hop**, and an edge twice where an entity has
    two roles. -/
theorem seed_record_again :
    Kept together ∧ (∃ l ∈ linked together (lookFrom 2 32), l.hop = 2 ∧ l.from_ = ticketB ∧
      l.to_ = ticketC ∧ l.via = lettered 'A' (by decide)) ∧
    ¬ IsNews together (lookFrom 2 32) (linked together (lookFrom 2 32)) ∧
    Kept inTwoRoles ∧ ¬ IsNews inTwoRoles lookWide (linked inTwoRoles lookWide) := by
  have hagain : ∃ l ∈ linked together (lookFrom 2 32), l.hop = 2 ∧ l.from_ = ticketB ∧
      l.to_ = ticketC ∧ l.via = lettered 'A' (by decide) := by
    have hreached : ∃ e ∈ reached together (lookFrom 2 32), e.hop = 2 ∧ e.from_ = ticketB ∧
        e.to_ = ticketC ∧ e.via.recordId = lettered 'A' (by decide) := by decide +kernel
    obtain ⟨e, he, hhop, hends⟩ := hreached
    exact ⟨e.cited, cited_mem_linked (by decide +kernel) (by decide +kernel) he, hhop, hends⟩
  refine ⟨⟨by decide +kernel, by decide +kernel, by decide +kernel⟩, hagain, ?_,
    ⟨by decide +kernel, by decide +kernel, by decide +kernel⟩, ?_⟩
  · intro h
    obtain ⟨l, hl, hhop, -, -, hvia⟩ := hagain
    have := h.far l hl (le_of_eq hhop.symm) (plainRow (lettered 'A' (by decide))) (by decide +kernel)
      hvia.symm (naming (lettered 'A' (by decide)) ticketA fieldConfidence) (by decide +kernel) rfl
      (by decide +kernel)
    revert this
    decide +kernel
  · intro h
    have hreached : ∃ e ∈ reached inTwoRoles lookWide, ∃ e' ∈ reached inTwoRoles lookWide,
        e.hop = e'.hop ∧ e.from_ = e'.from_ ∧ e.to_ = e'.to_ ∧ e.via.recordId = e'.via.recordId ∧
          e.confidence ≠ e'.confidence := by decide +kernel
    obtain ⟨e, he, e', he', hhop, hfrom, hto, hvia, hconf⟩ := hreached
    have hmem := cited_mem_linked (by decide +kernel) (by decide +kernel) he
    have hmem' := cited_mem_linked (by decide +kernel) (by decide +kernel) he'
    have hsame : e.cited = e'.cited := h.eq_of_same hmem hmem' hhop hfrom hto hvia
    have hweak := congrArg (fun l : Link RecordId => l.confidence) hsame
    exact hconf hweak

end Yaam.Index
