/-
  A traversal answers exactly the graph the references imply.

  * `Edge` is that graph, hop by hop: the seed's own records, then records of an entity
    some edge reached on stated references and that is no hub;
  * `edge_iff_derivable`: it is what the recursive query derives;
  * `linked_exact`: a traversal that its frontier and its page did not cut returns
    exactly the edges, and nothing inferred and no hub extends a path;
  * `linked_past_plain`: a confidence above one and a cap at the top of its range are
    where the two tests are wider than they read.
-/
import Yaam.Index.Query

namespace Yaam.Index

open Text Contract

/-- The two tests of a traversal's expansion, and where its degree count stops. -/
structure Rule where
  stated : Confidence → Prop
  corridor : ℕ → Prop
  cap : ℕ

/-- A reference is stated at confidence one or more; an entity is a corridor up to
    `max_degree`, and always where that is the top of its range. -/
def Traversal.rule (t : Traversal) : Rule where
  stated c := 1 ≤ c.value
  corridor n := n ≤ t.maxDegree.toNat ∨ t.maxDegree.toNat = u32Max
  cap := saturatingSucc t.maxDegree

section Graph

variable (T : Tables) (t : Traversal) (R : Rule)

/-- A reference of a record a traversal may read, to an entity and inside its window. -/
structure Cited (rec : RecordRow) (a : EntityRow) (x : EntityKey) : Prop where
  record : rec ∈ T.records
  admitted : t.scope.admits rec = true
  reference : a ∈ T.refsOf rec
  entity : a.entity = x
  window : t.window.contains a.receivedMs = true

/-- The edge two references of a record make. -/
def edge (hop : ℕ) (x : EntityKey) (a b : EntityRow) (rec : RecordRow) : Link RecordRow where
  from_ := x
  to_ := b.entity
  hop := hop
  confidence := weaker a.confidence b.confidence
  degree := min (inWindow T t b.entity) R.cap
  via := rec

/-- **The graph a traversal asks about.** -/
inductive Edge : Link RecordRow → Prop where
  | seed {rec : RecordRow} {a b : EntityRow} : Cited T t rec a t.seed →
      t.minConfidence.met a.confidence = true → b ∈ T.refsOf rec → b.entity ≠ t.seed →
      t.minConfidence.met b.confidence = true → Edge (edge T t R 1 t.seed a b rec)
  | next {e : Link RecordRow} {rec : RecordRow} {a b : EntityRow} : Edge e →
      e.hop < t.depth.toNat → R.stated e.confidence → R.corridor (inWindow T t e.to_) →
      Cited T t rec a e.to_ → R.stated a.confidence → b ∈ T.refsOf rec → b.entity ≠ e.to_ →
      b.entity ≠ t.seed → t.minConfidence.met b.confidence = true →
      Edge (edge T t R (e.hop + 1) e.to_ a b rec)

end Graph

variable {T : Tables} {t : Traversal} {R : Rule} {e : Link RecordRow}

theorem Edge.degree_eq (h : Edge T t R e) : e.degree = min (inWindow T t e.to_) R.cap := by
  cases h <;> rfl

theorem Edge.hop_le (h : Edge T t R e) : e.hop ≤ max 1 t.depth.toNat := by
  cases h with
  | seed => exact le_max_left _ _
  | next _ hhop => exact le_max_of_le_right hhop

theorem Edge.one_le_hop (h : Edge T t R e) : 1 ≤ e.hop := by
  cases h with
  | seed => exact le_rfl
  | next => exact Nat.le_add_left 1 _

theorem mem_edges {hop : ℕ} {x : EntityKey} {arrive leave : EntityRow → Bool} :
    e ∈ edges T t hop x arrive leave ↔ ∃ rec a b, Cited T t rec a x ∧ arrive a = true ∧
      b ∈ T.refsOf rec ∧ leave b = true ∧ e = edge T t t.rule hop x a b rec := by
  simp only [edges, List.mem_flatMap, List.mem_filter, List.mem_map]
  constructor
  · rintro ⟨rec, hrec, a, ⟨ha, hpred⟩, b, ⟨hb, hleave⟩, rfl⟩
    obtain ⟨hx, hw, harrive, hscope⟩ := of_decide_eq_true hpred
    exact ⟨rec, a, b, ⟨hrec, hscope, ha, hx, hw⟩, harrive, hb, hleave, rfl⟩
  · rintro ⟨rec, a, b, hc, harrive, hb, hleave, rfl⟩
    exact ⟨rec, hc.record, a, ⟨hc.reference, decide_eq_true ⟨hc.entity, hc.window, harrive,
      hc.admitted⟩⟩, b, ⟨hb, hleave⟩, rfl⟩

theorem degree_le_iff {x : EntityKey} :
    degree T t x ≤ t.maxDegree.toNat ↔ t.rule.corridor (inWindow T t x) := by
  have hmax : t.maxDegree.toNat ≤ u32Max := by
    have := t.maxDegree.toNat_lt
    simp only [u32Max]
    omega
  simp only [degree, saturatingSucc, Traversal.rule]
  omega

theorem full_iff {c : Confidence} : full c = true ↔ t.rule.stated c := decide_eq_true_iff

/-- **The graph is what the recursive query derives.** -/
theorem edge_iff_derivable :
    Edge T t t.rule e ↔ Recurse.Derivable (nextHop T t) (firstHop T t) e := by
  constructor
  · intro h
    induction h with
    | seed hc ha hb hne hfloor =>
      exact .start (mem_edges.2 ⟨_, _, _, hc, ha, hb, decide_eq_true ⟨hfloor, hne⟩, rfl⟩)
    | @next e rec a b he hhop hstated hcorr hc ha hb hne hseed hfloor ih =>
      refine .expand ih ?_
      have hdeg : e.degree ≤ t.maxDegree.toNat := by
        rw [he.degree_eq]
        exact degree_le_iff.2 hcorr
      rw [nextHop, if_pos ⟨hhop, hdeg, full_iff.2 hstated⟩]
      exact mem_edges.2 ⟨_, _, _, hc, full_iff.2 ha, hb, decide_eq_true ⟨hfloor, hne, hseed⟩, rfl⟩
  · intro h
    induction h with
    | start hx =>
      obtain ⟨rec, a, b, hc, ha, hb, hleave, rfl⟩ := mem_edges.1 hx
      obtain ⟨hfloor, hne⟩ := of_decide_eq_true hleave
      exact .seed hc ha hb hne hfloor
    | @expand e e' _ hy ih =>
      rw [nextHop] at hy
      split_ifs at hy with hgo
      · obtain ⟨hhop, hdeg, hfull⟩ := hgo
        obtain ⟨rec, a, b, hc, ha, hb, hleave, rfl⟩ := mem_edges.1 hy
        obtain ⟨hfloor, hne, hseed⟩ := of_decide_eq_true hleave
        rw [ih.degree_eq] at hdeg
        exact .next ih hhop (full_iff.1 hfull) (degree_le_iff.1 hdeg) hc (full_iff.1 ha) hb hne
          hseed hfloor
      · simp at hy

/-- An edge with its record named, as a caller reads it. -/
def Link.cited (e : Link RecordRow) : Link RecordId := { e with via := e.via.recordId }

/-- An edge's numbers fit the columns they are read from. -/
theorem Edge.withVia {ρ : Type} (h : Edge T t t.rule e) (via : ρ) :
    e.withVia via = { e with via := via } := by
  have hhop : toU32 e.hop = e.hop := by
    have := h.hop_le
    have := t.depth.toNat_lt
    simp only [toU32, u32Max]
    omega
  have hdeg : toU32 e.degree = e.degree := by
    have hcap : t.rule.cap ≤ u32Max := min_le_right _ _
    rw [toU32, h.degree_eq]
    omega
  simp only [Link.withVia, hhop, hdeg]

/-- What a traversal that was not cut returns. -/
theorem mem_linkedRows (hfrontier : (reached T t).length < MAX_FRONTIER)
    (hpage : (reached T t).length ≤ linkPage t) : e ∈ linkedRows T t ↔ Edge T t t.rule e := by
  have hlen : (orderBy (linkOrder T) (reached T t)).length ≤ linkPage t := by
    simpa [orderBy] using hpage
  rw [linkedRows, List.take_of_length_le hlen, mem_orderBy, edge_iff_derivable]
  exact Recurse.mem_recurse_iff hfrontier

theorem mem_linked {l : Link RecordId} (hfrontier : (reached T t).length < MAX_FRONTIER)
    (hpage : (reached T t).length ≤ linkPage t) :
    l ∈ linked T t ↔ ∃ e, Edge T t t.rule e ∧ e.cited = l := by
  simp only [linked, List.mem_map, mem_linkedRows hfrontier hpage]
  constructor
  · rintro ⟨e, he, rfl⟩
    exact ⟨e, he, (he.withVia _).symm⟩
  · rintro ⟨e, he, rfl⟩
    exact ⟨e, he, he.withVia _⟩

/-- What extends a path: an edge of the hop before, at stated references, into an entity
    that is no hub, and a stated reference that leaves it. -/
def Extends (T : Tables) (t : Traversal) (R : Rule) (l l' : Link RecordId) : Prop :=
  l.hop + 1 = l'.hop ∧ l.to_ = l'.from_ ∧ R.stated l.confidence ∧ R.corridor (inWindow T t l'.from_) ∧
    ∃ rec a, Cited T t rec a l'.from_ ∧ rec.recordId = l'.via ∧ R.stated a.confidence

/-- **A traversal answers exactly the graph.** -/
theorem linked_exact (T : Tables) (t : Traversal) (hfrontier : (reached T t).length < MAX_FRONTIER)
    (hpage : (reached T t).length ≤ linkPage t) :
    (∀ l, l ∈ linked T t ↔ ∃ e, Edge T t t.rule e ∧ e.cited = l) ∧
      (∀ l ∈ linked T t, l.degree = min (inWindow T t l.to_) t.rule.cap) ∧
      ∀ l ∈ linked T t, l.hop ≠ 1 → ∃ l' ∈ linked T t, Extends T t t.rule l' l := by
  have hmem : ∀ l, l ∈ linked T t ↔ ∃ e, Edge T t t.rule e ∧ e.cited = l :=
    fun l => mem_linked hfrontier hpage
  refine ⟨hmem, fun l hl => ?_, fun l hl hhop => ?_⟩
  · obtain ⟨e, he, rfl⟩ := (hmem l).1 hl
    exact he.degree_eq
  · obtain ⟨e, he, rfl⟩ := (hmem l).1 hl
    cases he with
    | seed => exact absurd rfl hhop
    | next he _ hstated hcorr hc ha =>
      exact ⟨_, (hmem _).2 ⟨_, he, rfl⟩, rfl, rfl, hstated, hcorr, _, _, hc, rfl, ha⟩

/-! ## Where the tests are wider than they read -/

/-- The tests as they read: a confidence of one, and no more than `max_degree`. -/
def Traversal.plainRule (t : Traversal) : Rule where
  stated c := c.value = 1
  corridor n := n ≤ t.maxDegree.toNat
  cap := t.maxDegree.toNat + 1

def plainRow (id : RecordId) : RecordRow where
  recordId := id
  schemaVer := 1
  frontmatter :=
    { recordId := id, schemaVer := 1, at_ := [], receivedAt := [], backfilled := false, agent := [],
      agentVer := none, correlationId := none, action := [], outcome := .success,
      attrs := .empty, entities := [], subjects := [], visibility := .org, team := none,
      dataClass := .internal, redactionPolicy := [], fieldsMasked := [], tags := [], summary := [] }
  body := []
  atMs := 0
  receivedMs := 0

def lettered (c : Char) (h : isCrockfordDigit c = true) : RecordId :=
  ⟨List.replicate 26 c, by simp [isRecordId, h]⟩

def twice : Confidence := ⟨2, 2, 0, by decide, by decide, by decide, by norm_num⟩

def naming (id : RecordId) (entity : EntityKey) (confidence : Confidence) : EntityRow :=
  ⟨id, entity.kind, entity.id, .context, confidence, 0⟩

def ticketA : EntityKey := ⟨['t'], ['A']⟩
def ticketB : EntityKey := ⟨['t'], ['B']⟩
def ticketC : EntityKey := ⟨['t'], ['C']⟩

/-- Two records that share an entity, each at confidence two. -/
def overstated : Tables :=
  let a := lettered 'A' isCrockfordDigit_A
  let b := lettered 'B' isCrockfordDigit_B
  { Tables.empty with
    records := [plainRow a, plainRow b]
    entityRefs := [naming a ticketA fieldConfidence, naming a ticketB twice, naming b ticketB twice,
      naming b ticketC fieldConfidence] }

def lookFrom (depth maxDegree : UInt32) : Traversal where
  kind := ticketA.kind
  id := ticketA.id
  depth := depth
  window := ⟨0, 1⟩
  minConfidence := .finite fieldConfidence
  maxDegree := maxDegree
  limit := none
  scope := .unrestricted

theorem linked_exact_overstated :
    (reached overstated (lookFrom 2 32)).length < MAX_FRONTIER ∧
      ∀ l, l ∈ linked overstated (lookFrom 2 32) ↔
        ∃ e, Edge overstated (lookFrom 2 32) (lookFrom 2 32).rule e ∧ e.cited = l :=
  ⟨by decide +kernel,
    (linked_exact overstated (lookFrom 2 32) (by decide +kernel) (by decide +kernel)).1⟩

/-- The numbered record of a crowd. -/
def numbered (i : ℕ) : RecordId :=
  if h : isRecordId (padNat 26 i) = true then ⟨padNat 26 i, h⟩ else lettered '0' (by decide)

theorem numbered_ne (i : ℕ) : numbered i ≠ lettered 'A' (by decide) := by
  intro h
  have hmem : 'A' ∈ (numbered i).text := by
    rw [h]
    simp [lettered]
  unfold numbered at hmem
  split_ifs at hmem with hid
  · exact absurd (mem_padNat hmem) (by decide)
  · simp [lettered] at hmem

/-- The references of `n` records to one entity. -/
def crowd (n : ℕ) : List EntityRow :=
  (List.range n).map fun i => naming (numbered i) ticketB fieldConfidence

/-- A record naming the seed and an entity that `n` other records name. -/
def crowded (n : ℕ) : Tables :=
  let a := lettered 'A' isCrockfordDigit_A
  { Tables.empty with
    records := plainRow a :: (List.range n).map fun i => plainRow (numbered i)
    entityRefs := naming a ticketA fieldConfidence :: naming a ticketB fieldConfidence :: crowd n }

theorem inWindow_crowded (n : ℕ) (depth cap : UInt32) :
    inWindow (crowded n) (lookFrom depth cap) ticketB = n + 1 := by
  have hcrowd : (crowd n).countP (fun d => d.entity = ticketB ∧
      (lookFrom depth cap).window.contains d.receivedMs) = n := by
    rw [List.countP_eq_length.2, crowd, List.length_map, List.length_range]
    intro d hd
    obtain ⟨i, -, rfl⟩ := List.mem_map.1 hd
    rfl
  rw [inWindow, crowded, List.countP_cons_of_neg, List.countP_cons_of_pos, hcrowd]
  · rfl
  · exact ne_true_of_eq_false rfl

/-- Only the first record names the seed. -/
theorem cited_crowded {n : ℕ} {depth cap : UInt32} {rec : RecordRow} {a b : EntityRow}
    (h : Cited (crowded n) (lookFrom depth cap) rec a ticketA) (hb : b ∈ (crowded n).refsOf rec)
    (hne : b.entity ≠ ticketA) :
    rec = plainRow (lettered 'A' (by decide)) ∧
      a = naming (lettered 'A' (by decide)) ticketA fieldConfidence ∧
      b = naming (lettered 'A' (by decide)) ticketB fieldConfidence := by
  obtain ⟨ha, harec⟩ := List.mem_filter.1 h.reference
  obtain ⟨hb', hbrec⟩ := List.mem_filter.1 hb
  replace harec := of_decide_eq_true harec
  replace hbrec := of_decide_eq_true hbrec
  simp only [crowded, crowd, List.mem_cons, List.mem_map] at ha hb'
  have hrec := h.record
  simp only [crowded, List.mem_cons, List.mem_map] at hrec
  obtain rfl : a = naming (lettered 'A' (by decide)) ticketA fieldConfidence := by
    rcases ha with rfl | rfl | ⟨i, -, rfl⟩
    · rfl
    · exact absurd h.entity (by decide)
    · exact absurd h.entity (show ticketB ≠ ticketA by decide)
  obtain rfl : rec = plainRow (lettered 'A' (by decide)) := by
    rcases hrec with rfl | ⟨i, -, rfl⟩
    · rfl
    · exact absurd harec.symm (numbered_ne i)
  refine ⟨rfl, rfl, ?_⟩
  rcases hb' with rfl | rfl | ⟨i, -, rfl⟩
  · exact absurd rfl hne
  · rfl
  · exact absurd hbrec (numbered_ne i)

/-- The one edge from the seed into the crowd. -/
def intoCrowd (n : ℕ) (cap : UInt32) : Link RecordRow :=
  edge (crowded n) (lookFrom 1 cap) (lookFrom 1 cap).rule 1 ticketA
    (naming (lettered 'A' isCrockfordDigit_A) ticketA fieldConfidence)
    (naming (lettered 'A' isCrockfordDigit_A) ticketB fieldConfidence) (plainRow (lettered 'A' isCrockfordDigit_A))

theorem edge_crowded {n : ℕ} {cap : UInt32} {e : Link RecordRow} :
    Edge (crowded n) (lookFrom 1 cap) (lookFrom 1 cap).rule e ↔ e = intoCrowd n cap := by
  constructor
  · intro h
    cases h with
    | seed hc _ hb hne _ =>
      obtain ⟨rfl, rfl, rfl⟩ := cited_crowded hc hb hne
      rfl
    | next he hhop =>
      have : (1 : ℕ) ≤ _ := he.one_le_hop
      have : (lookFrom 1 cap).depth.toNat = 1 := rfl
      omega
  · rintro rfl
    exact .seed ⟨List.mem_cons_self, rfl, List.mem_filter.2 ⟨List.mem_cons_self, by simp [naming, plainRow]⟩,
      rfl, rfl⟩ (by simp [lookFrom, naming, Floor.met]) (List.mem_filter.2 ⟨by simp [crowded], by simp [naming, plainRow]⟩)
      (show ticketB ≠ ticketA by decide) (by simp [lookFrom, naming, Floor.met])

theorem reached_crowded (n : ℕ) (cap : UInt32) : (reached (crowded n) (lookFrom 1 cap)).length ≤ 1 := by
  have hsub : reached (crowded n) (lookFrom 1 cap) ⊆ [intoCrowd n cap] := fun e he =>
    List.mem_singleton.2 (edge_crowded.1 (edge_iff_derivable.2 (Recurse.derivable_of_mem_recurse he)))
  exact ((Recurse.recurse_nodup _ _ _).subperm hsub).length_le

/-- The count of a crowd stops at the cap. -/
theorem linked_crowded (n : ℕ) (cap : UInt32) :
    ∃ l ∈ linked (crowded n) (lookFrom 1 cap),
      inWindow (crowded n) (lookFrom 1 cap) l.to_ = n + 1 ∧
        l.degree = min (n + 1) (saturatingSucc cap) := by
  have hlen := reached_crowded n cap
  have hto : inWindow (crowded n) (lookFrom 1 cap) (intoCrowd n cap).to_ = n + 1 :=
    inWindow_crowded n 1 cap
  refine ⟨(intoCrowd n cap).cited, (mem_linked (hlen.trans_lt (by decide))
    (hlen.trans (show 1 ≤ DEFAULT_LINK_LIMIT by decide))).2 ⟨_, edge_crowded.2 rfl, rfl⟩, hto, ?_⟩
  exact (edge_crowded.2 rfl).degree_eq.trans (congrArg (min · _) hto)

/-- **Where the tests are wider than they read.**  A reference above full confidence
    extends a path, and past the top of `max_degree`'s range the count stops short. -/
theorem linked_past_plain :
    ((reached overstated (lookFrom 2 32)).length < MAX_FRONTIER ∧
      (reached overstated (lookFrom 2 32)).length ≤ linkPage (lookFrom 2 32) ∧
      ∃ l ∈ linked overstated (lookFrom 2 32),
        ¬ ∃ e, Edge overstated (lookFrom 2 32) (lookFrom 2 32).plainRule e ∧ e.cited = l) ∧
    (reached (crowded (2 ^ 32)) (lookFrom 1 4294967295)).length < MAX_FRONTIER ∧
      (reached (crowded (2 ^ 32)) (lookFrom 1 4294967295)).length ≤ linkPage (lookFrom 1 4294967295) ∧
      ∃ l ∈ linked (crowded (2 ^ 32)) (lookFrom 1 4294967295),
        l.degree ≠ min (inWindow (crowded (2 ^ 32)) (lookFrom 1 4294967295) l.to_)
          ((lookFrom 1 4294967295).maxDegree.toNat + 1) := by
  have hfrontier : (reached overstated (lookFrom 2 32)).length < MAX_FRONTIER := by decide +kernel
  have hpage : (reached overstated (lookFrom 2 32)).length ≤ linkPage (lookFrom 2 32) := by
    decide +kernel
  refine ⟨⟨hfrontier, hpage, ?_⟩, (reached_crowded _ _).trans_lt (by decide),
    (reached_crowded _ _).trans (by decide), ?_⟩
  · have hmem : ∃ e ∈ reached overstated (lookFrom 2 32), e.hop = 2 ∧ e.from_ = ticketB := by
      decide +kernel
    obtain ⟨e, he, hhop, hfrom⟩ := hmem
    refine ⟨e.cited, (mem_linked hfrontier hpage).2
      ⟨e, edge_iff_derivable.2 (Recurse.derivable_of_mem_recurse he), rfl⟩, ?_⟩
    rintro ⟨e', he', heq⟩
    cases he' with
    | seed => exact absurd ((congrArg Link.hop heq).trans hhop) (by simp [Link.cited, edge])
    | @next e₁ rec a b _ _ _ _ hc ha =>
      have hto : e₁.to_ = ticketB := (congrArg Link.from_ heq).trans hfrom
      have hval : ∀ r ∈ overstated.entityRefs, r.entity = ticketB → r.confidence.value ≠ 1 := by
        decide +kernel
      exact hval a (List.mem_filter.1 hc.reference).1 (hc.entity.trans hto) ha
  · obtain ⟨l, hl, hin, hdegree⟩ := linked_crowded (2 ^ 32) 4294967295
    refine ⟨l, hl, ?_⟩
    rw [hin, hdegree, lookFrom]
    decide

end Yaam.Index
