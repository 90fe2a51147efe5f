/-
  Whether knowledge counts records (`yaam-knowledge`, `fact.rs`, `note.rs`, `build.rs`).

  * `Roll` is what a held fact is to be about: the records that state it, each once, newest
    first;
  * `Held.Counts` and `CountsRecords`: what a note says of them;
  * `seen_eq`: when no record says a fact twice, what is seen of it is its records;
  * `counts_records_iff`: knowledge counts records exactly when no record names an entity
    twice, and no two sources of one record state a fact in common.
-/
import Yaam.Knowledge.Rebuilt

namespace Yaam.Knowledge

open Text Contract

/-! ## What a held fact is to say -/

/-- A record may contribute, and says this. -/
def States (f : Fact) (r : ActionRecord) : Prop :=
  (derivable r).isOk ∧ f ∈ (certain r).flatMap (factsOf r)

instance (f : Fact) : DecidablePred (States f) := fun _ => inferInstanceAs (Decidable (_ ∧ _))

/-- What a record is seen to say. -/
def seenIn (f : Fact) (r : ActionRecord) : Observation := ⟨f, r.recordId, r.receivedAt⟩

/-- **The records that state a fact**, one of each identifier, newest first. -/
structure Roll (rs : List ActionRecord) (f : Fact) (roll : List ActionRecord) : Prop where
  states : ∀ r ∈ roll, r ∈ rs ∧ States f r
  all : ∀ r ∈ rs, States f r → r.recordId ∈ roll.map (·.recordId)
  distinct : (roll.map (·.recordId)).Nodup
  newest : (roll.map (seenIn f)).Pairwise newerFirst

/-- A held fact counts the records that state it, lists the newest of them, and spans their
    instants. -/
def Held.Counts (rs : List ActionRecord) (h : Held) : Prop :=
  ∃ roll, Roll rs h.fact roll ∧ h.observations = roll.length ∧
    h.sources = (roll.take maxSourcesPerFact).map (·.recordId) ∧
    (∃ r ∈ roll, h.first = r.receivedAt) ∧ (∃ r ∈ roll, h.last = r.receivedAt) ∧
    ∀ r ∈ rs, States h.fact r →
      stampMs h.first ≤ stampMs r.receivedAt ∧ stampMs r.receivedAt ≤ stampMs h.last

/-- **Knowledge counts records**: every held fact does, and the notes are the same in
    whatever order the records are read. -/
def CountsRecords (rs : List ActionRecord) : Prop :=
  (∀ n ∈ collate (observe rs), ∀ h ∈ n.facts, h.Counts rs) ∧
    ∀ rs', rs'.Perm rs → collate (observe rs') = collate (observe rs)

/-- **No record can say a fact twice**: none that may contribute names an entity twice with a
    field's confidence, and no two sources of one record state a fact in common. -/
def SaidOnce (rs : List ActionRecord) : Prop :=
  (∀ r ∈ rs, (derivable r).isOk → (certain r).Nodup) ∧
    rs.Pairwise fun r r' => r.recordId = r'.recordId → ∀ f, ¬ (States f r ∧ States f r')

/-! ## The order of a note -/

/-- Lists with the same elements sort to one list, when what the order ties is equal. -/
theorem insertionSort_congr {α : Type} {le : α → α → Prop} [DecidableRel le] [Std.Total le]
    [IsTrans α le] {l l' : List α} (h : l.Perm l')
    (htie : ∀ a ∈ l, ∀ b ∈ l, le a b → le b a → a = b) : l.insertionSort le = l'.insertionSort le := by
  have hperm : (l.insertionSort le).Perm (l'.insertionSort le) :=
    (l.perm_insertionSort le).trans (h.trans (l'.perm_insertionSort le).symm)
  refine hperm.eq_of_pairwise (fun a b ha hb => ?_) (l.pairwise_insertionSort le)
    (l'.pairwise_insertionSort le)
  exact htie a ((List.mem_insertionSort le).1 ha) b (h.mem_iff.2 ((List.mem_insertionSort le).1 hb))

instance : Std.Total newerFirst where
  total a b := by
    unfold newerFirst
    rcases lt_trichotomy (stampMs a.at_) (stampMs b.at_) with h | h | h
    · exact .inr (.inl h)
    · rcases le_total a.source.text b.source.text with h' | h'
      · exact .inr (.inr ⟨h, h'⟩)
      · exact .inl (.inr ⟨h.symm, h'⟩)
    · exact .inl (.inl h)

instance : IsTrans Observation newerFirst where
  trans a b c := by
    unfold newerFirst
    rintro (hab | ⟨hab, hab'⟩) (hbc | ⟨hbc, hbc'⟩)
    · exact .inl (hbc.trans hab)
    · exact .inl (hbc ▸ hab)
    · exact .inl (hab ▸ hbc)
    · exact .inr ⟨hbc.trans hab, hbc'.trans hab'⟩

/-- Records in one place of the order have one identifier. -/
theorem source_eq {a b : Observation} (hab : newerFirst a b) (hba : newerFirst b a) :
    a.source = b.source := by
  rcases hab with hlt | ⟨heq, hle⟩ <;> rcases hba with hlt' | ⟨heq', hle'⟩
  · exact absurd hlt (asymm hlt')
  · exact absurd heq' hlt.ne'
  · exact absurd heq hlt'.ne'
  · exact RecordId.ext_text (le_antisymm hle' hle)

/-! ## What is seen of a fact -/

/-- How often a record says something. -/
def mentions (f : Fact) (r : ActionRecord) : ℕ :=
  if (derivable r).isOk then ((certain r).flatMap (factsOf r)).count f else 0

variable {f : Fact} {r : ActionRecord} {rs : List ActionRecord}

theorem states_iff : States f r ↔ 0 < mentions f r := by
  unfold States mentions
  split_ifs with hok
  · rw [List.count_pos_iff]
    exact and_iff_right hok
  · exact iff_of_false (fun h => hok h.1) (lt_irrefl 0)

/-- **What is seen of a fact**: every record that states it, as often as it does. -/
theorem seen_eq_flatMap (f : Fact) (rs : List ActionRecord) : ((observe rs).filter (·.fact = f)) =
    rs.flatMap fun r => List.replicate (mentions f r) (seenIn f r) := by
  rw [observe, List.filter_flatMap]
  refine congrArg (rs.flatMap ·) (funext fun r => ?_)
  cases hd : derivable r with
  | error why =>
    rw [mentions, hd]
    rfl
  | ok r' =>
    obtain rfl := (derivable_ok hd).1
    have hok : (derivable r').isOk := by rw [hd]; rfl
    have hfacts : ((certain r').flatMap (factsOf r')).filter
        ((fun o : Observation => decide (o.fact = f)) ∘ fun fact => ⟨fact, r'.recordId, r'.receivedAt⟩) =
          List.replicate (mentions f r') f := by
      rw [mentions, if_pos hok, ← List.filter_eq]
      rfl
    show (observations r').filter (·.fact = f) = _
    rw [observations, List.filter_map, hfacts, List.map_replicate]
    rfl

/-! ## Saying a fact once -/

theorem nodup_factsOf (h : (certain r).Nodup) (e : EntityKey) : (factsOf r e).Nodup := by
  have hattrs : (r.attrs.entries.map fun a => Fact.attribute e a.1 (valueText a.2)).Nodup := by
    refine List.pairwise_map.2 ((List.pairwise_map.1 r.attrs.sorted).imp fun hlt heq => ?_)
    exact hlt.ne (Fact.attribute.inj heq).2.1
  have hothers : (((certain r).filter (· ≠ e)).map fun other => Fact.association e other).Nodup :=
    (h.filter _).map fun a b hab => (Fact.association.inj hab).2
  refine List.nodup_append.2 ⟨hattrs, List.nodup_cons.2 ⟨?_, hothers⟩, ?_⟩
  · intro hmem
    obtain ⟨other, -, heq⟩ := List.mem_map.1 hmem
    cases heq
  · rintro x hx y hy rfl
    obtain ⟨a, -, rfl⟩ := List.mem_map.1 hx
    rcases List.mem_cons.1 hy with heq | hy
    · cases heq
    · obtain ⟨other, -, heq⟩ := List.mem_map.1 hy
      cases heq

/-- A record says no fact twice exactly when it names no entity twice. -/
theorem mentions_le_one_iff (hok : (derivable r).isOk) :
    (∀ f, mentions f r ≤ 1) ↔ (certain r).Nodup := by
  have hcount : (∀ f, mentions f r ≤ 1) ↔ ((certain r).flatMap (factsOf r)).Nodup := by
    rw [List.nodup_iff_count_le_one]
    refine forall_congr' fun f => ?_
    rw [mentions, if_pos hok]
  rw [hcount, List.nodup_flatMap]
  constructor
  · rintro ⟨-, hdisjoint⟩
    refine hdisjoint.imp fun {a b} hab heq => ?_
    have hactor : Fact.actor a r.agent ∈ factsOf r a := List.mem_append_right _ List.mem_cons_self
    exact hab hactor (heq ▸ hactor)
  · intro h
    refine ⟨fun e _ => nodup_factsOf h e, h.imp fun {a b} hab f hfa hfb => ?_⟩
    exact hab ((entity_of_mem_factsOf hfa).symm.trans (entity_of_mem_factsOf hfb))

/-- No record is seen twice under a fact exactly when none can say one twice. -/
theorem nodup_sources_iff : (∀ f, (((observe rs).filter (·.fact = f)).map (·.source)).Nodup) ↔
    SaidOnce rs := by
  have hone : ∀ f, (((observe rs).filter (·.fact = f)).map (·.source)).Nodup ↔
      (∀ r ∈ rs, mentions f r ≤ 1) ∧
        rs.Pairwise fun r r' => r.recordId = r'.recordId → ¬ (States f r ∧ States f r') := by
    intro f
    rw [seen_eq_flatMap, List.map_flatMap, List.nodup_flatMap]
    refine and_congr (forall₂_congr fun r _ => ?_) (List.Pairwise.iff fun r r' => ?_)
    · rw [List.map_replicate, List.nodup_replicate]
    · simp only [Function.onFun, List.map_replicate, List.disjoint_left, List.mem_replicate,
        states_iff, seenIn, Nat.pos_iff_ne_zero]
      constructor
      · rintro h heq ⟨hr, hr'⟩
        exact h ⟨hr, rfl⟩ ⟨hr', heq⟩
      · rintro h a ⟨hr, rfl⟩ ⟨hr', heq⟩
        exact h heq ⟨hr, hr'⟩
  simp only [hone, forall_and, List.pairwise_iff_forall_sublist, SaidOnce]
  refine and_congr ⟨fun h r hr hok => ?_, fun h f r hr => ?_⟩ ?_
  · exact (mentions_le_one_iff hok).1 fun f => h f r hr
  · by_cases hok : (derivable r).isOk
    · exact (mentions_le_one_iff hok).2 (h r hr hok) f
    · rw [mentions, if_neg hok]
      exact Nat.zero_le 1
  · exact ⟨fun h r r' hsub heq f => h f hsub heq, fun h f r r' hsub heq => h hsub heq f⟩

theorem SaidOnce.mentions_le (h : SaidOnce rs) (hr : r ∈ rs) (f : Fact) : mentions f r ≤ 1 := by
  by_cases hok : (derivable r).isOk
  · exact (mentions_le_one_iff hok).2 (h.1 r hr hok) f
  · rw [mentions, if_neg hok]
    exact Nat.zero_le 1

/-- **When no record can say a fact twice**, what is seen of it is the records that state it. -/
theorem seen_eq (h : ∀ r ∈ rs, mentions f r ≤ 1) :
    (observe rs).filter (·.fact = f) = (rs.filter (States f ·)).map (seenIn f) := by
  rw [seen_eq_flatMap]
  induction rs with
  | nil => rfl
  | cons r rs ih =>
    rw [List.flatMap_cons, ih fun r' hr' => h r' (List.mem_cons_of_mem _ hr')]
    by_cases hs : States f r
    · have hmentions : mentions f r = 1 :=
        le_antisymm (h r List.mem_cons_self) (states_iff.1 hs)
      rw [hmentions, List.filter_cons, if_pos (decide_eq_true hs)]
      rfl
    · have hmentions : mentions f r = 0 := Nat.eq_zero_of_not_pos fun hpos => hs (states_iff.2 hpos)
      rw [hmentions, List.filter_cons, if_neg (by simpa using hs)]
      rfl

theorem mem_seen (hr : r ∈ rs) (hs : States f r) : seenIn f r ∈ (observe rs).filter (·.fact = f) := by
  rw [seen_eq_flatMap]
  refine List.mem_flatMap.2 ⟨r, hr, List.mem_replicate.2 ⟨?_, rfl⟩⟩
  exact (states_iff.1 hs).ne'

/-! ## Notes -/

/-- A fact is held as what was seen of it. -/
theorem eq_held {os : List Observation} {n : Note} (hn : n ∈ collate os) {h : Held}
    (hh : h ∈ n.facts) : h = held h.fact (os.filter (·.fact = h.fact)) ∧
      os.filter (·.fact = h.fact) ≠ [] := by
  obtain ⟨-, hfacts⟩ := note_observed hn
  obtain ⟨o, ho, hfact⟩ := hfacts h hh
  refine ⟨?_, List.ne_nil_of_mem (List.mem_filter.2 ⟨ho, decide_eq_true hfact⟩)⟩
  obtain ⟨e, -, rfl⟩ := List.mem_map.1 hn
  obtain ⟨f, -, rfl⟩ := List.mem_map.1 hh
  rfl

/-- The newest of what is in order is at its head, the oldest at its end. -/
theorem stampMs_le_head {os : List Observation} (h : os.Pairwise newerFirst) {a : Observation}
    (ha : os.head? = some a) {o : Observation} (ho : o ∈ os) : stampMs o.at_ ≤ stampMs a.at_ := by
  obtain ⟨rest, rfl⟩ := List.head?_eq_some_iff.1 ha
  rcases List.mem_cons.1 ho with rfl | ho
  · exact le_rfl
  · rcases (List.pairwise_cons.1 h).1 o ho with hlt | ⟨heq, -⟩
    · exact hlt.le
    · exact heq.le

theorem getLast_le_stampMs {os : List Observation} (h : os.Pairwise newerFirst) {z : Observation}
    (hz : os.getLast? = some z) {o : Observation} (ho : o ∈ os) : stampMs z.at_ ≤ stampMs o.at_ := by
  obtain ⟨init, rfl⟩ := List.getLast?_eq_some_iff.1 hz
  rcases List.mem_append.1 ho with ho | ho
  · rcases (List.pairwise_append.1 h).2.2 o ho z List.mem_cons_self with hlt | ⟨heq, -⟩
    · exact hlt.le
    · exact heq.le
  · rw [List.mem_singleton.1 ho]

/-- The records of a fact that none of them says twice, in the order of its note. -/
theorem exists_roll (honce : SaidOnce rs) (f : Fact) : ∃ roll, Roll rs f roll ∧
    roll.map (seenIn f) = ((observe rs).filter (·.fact = f)).insertionSort newerFirst := by
  have hnodup := nodup_sources_iff.2 honce f
  rw [seen_eq fun r hr => honce.mentions_le hr f] at hnodup ⊢
  let roll := (rs.filter (States f ·)).insertionSort fun r r' => newerFirst (seenIn f r) (seenIn f r')
  have hmap : roll.map (seenIn f) = ((rs.filter (States f ·)).map (seenIn f)).insertionSort newerFirst :=
    List.map_insertionSort _ _ _ _ fun _ _ _ _ => Iff.rfl
  have hperm : roll.Perm (rs.filter (States f ·)) := List.perm_insertionSort _ _
  have hmem : ∀ r, r ∈ roll ↔ r ∈ rs ∧ States f r := fun r => by
    rw [hperm.mem_iff, List.mem_filter, decide_eq_true_iff]
  refine ⟨roll, ⟨fun r hr => (hmem r).1 hr, fun r hr hs => ?_, ?_, ?_⟩, hmap⟩
  · exact List.mem_map.2 ⟨r, (hmem r).2 ⟨hr, hs⟩, rfl⟩
  · rw [List.map_map] at hnodup
    exact (hperm.map _).nodup_iff.2 hnodup
  · rw [hmap]
    exact List.pairwise_insertionSort _ _

/-- **When no record can say a fact twice**, a held fact counts its records. -/
theorem counts_held (honce : SaidOnce rs) (hne : (observe rs).filter (·.fact = f) ≠ []) :
    (held f ((observe rs).filter (·.fact = f))).Counts rs := by
  obtain ⟨roll, hroll, hmap⟩ := exists_roll honce f
  have hlength : ((observe rs).filter (·.fact = f)).length = roll.length := by
    rw [← List.length_insertionSort newerFirst, ← hmap, List.length_map]
  have hroll_ne : roll ≠ [] := by
    rintro rfl
    exact hne (List.length_eq_zero_iff.1 hlength)
  have hhead : (roll.map (seenIn f)).head? = some (seenIn f (roll.head hroll_ne)) := by
    rw [List.head?_map, List.head?_eq_some_head hroll_ne]
    rfl
  have hlast : (roll.map (seenIn f)).getLast? = some (seenIn f (roll.getLast hroll_ne)) := by
    rw [List.getLast?_map, List.getLast?_eq_some_getLast hroll_ne]
    rfl
  unfold held
  rw [← hmap]
  dsimp only
  rw [hhead, hlast]
  refine ⟨roll, hroll, hlength, ?_, ⟨_, List.getLast_mem hroll_ne, rfl⟩,
    ⟨_, List.head_mem hroll_ne, rfl⟩, fun r hr hs => ?_⟩
  · rw [← List.map_take, List.map_map]
    rfl
  · have hin : seenIn f r ∈ roll.map (seenIn f) := by
      rw [hmap, List.mem_insertionSort]
      exact mem_seen hr hs
    exact ⟨getLast_le_stampMs hroll.newest hlast hin, stampMs_le_head hroll.newest hhead hin⟩

/-- A fact whose records are counted is seen once in each. -/
theorem Held.Counts.nodup {h : Held} (hcounts : h.Counts rs)
    (hh : h.observations = ((observe rs).filter (·.fact = h.fact)).length) :
    (((observe rs).filter (·.fact = h.fact)).map (·.source)).Nodup := by
  obtain ⟨roll, hroll, hlength, -⟩ := hcounts
  have hsub : roll.map (·.recordId) ⊆ ((observe rs).filter (·.fact = h.fact)).map (·.source) := by
    intro id hid
    obtain ⟨r, hr, rfl⟩ := List.mem_map.1 hid
    obtain ⟨hrs, hs⟩ := hroll.states r hr
    exact List.mem_map.2 ⟨_, mem_seen hrs hs, rfl⟩
  have hperm := (List.subperm_of_subset hroll.distinct hsub).perm_of_length_le (by
    rw [List.length_map, List.length_map, ← hh, hlength])
  exact hperm.nodup_iff.1 hroll.distinct

/-- The order of facts tells any two apart. -/
theorem words_injective : Function.Injective Fact.words := by
  intro f g h
  rcases f with ⟨⟨kind, id⟩, key, value⟩ | ⟨⟨kind, id⟩, agent⟩ | ⟨⟨kind, id⟩, ⟨kind', id'⟩⟩ <;>
    rcases g with ⟨⟨kind₂, id₂⟩, key₂, value₂⟩ | ⟨⟨kind₂, id₂⟩, agent₂⟩ | ⟨⟨kind₂, id₂⟩, ⟨kind₃, id₃⟩⟩ <;>
    simp_all [Fact.words]

/-- **Notes do not depend on the order of what was seen**, when no record is seen twice under
    a fact. -/
theorem collate_congr {os os' : List Observation} (h : os.Perm os')
    (hnodup : ∀ f, ((os.filter (·.fact = f)).map (·.source)).Nodup) : collate os = collate os' := by
  have hentities : (os.map (·.fact.entity)).dedup.insertionSort (fun a b => [a.kind, a.id] ≤ [b.kind, b.id]) =
      (os'.map (·.fact.entity)).dedup.insertionSort fun a b => [a.kind, a.id] ≤ [b.kind, b.id] := by
    refine insertionSort_congr (h.map _).dedup fun a _ b _ hab hba => ?_
    have hwords := le_antisymm hab hba
    simp only [List.cons.injEq, and_true] at hwords
    exact EntityKey.mk.injEq .. ▸ hwords
  have hfacts : ∀ e, ((os.map (·.fact)).filter (·.entity = e)).dedup.insertionSort
      (fun f g => f.words ≤ g.words) =
        ((os'.map (·.fact)).filter (·.entity = e)).dedup.insertionSort fun f g => f.words ≤ g.words := by
    intro e
    refine insertionSort_congr ((h.map _).filter _).dedup fun a _ b _ hab hba => ?_
    exact words_injective (le_antisymm hab hba)
  have hheld : ∀ f, held f (os.filter (·.fact = f)) = held f (os'.filter (·.fact = f)) := by
    intro f
    have hperm : (os.filter (·.fact = f)).Perm (os'.filter (·.fact = f)) := h.filter _
    have hsorted := insertionSort_congr hperm fun a ha b hb hab hba =>
      List.inj_on_of_nodup_map (hnodup f) ha hb (source_eq hab hba)
    unfold held
    rw [hsorted, hperm.length_eq]
  unfold collate
  simp only [hentities, hfacts, hheld]

/-- **Knowledge counts records exactly when no record can say a fact twice.** -/
theorem countsRecords_iff : CountsRecords rs ↔ SaidOnce rs := by
  constructor
  · rintro ⟨hcounts, -⟩
    refine nodup_sources_iff.1 fun f => ?_
    by_cases hnil : (observe rs).filter (·.fact = f) = []
    · rw [hnil]
      exact List.nodup_nil
    obtain ⟨o, ho⟩ := List.exists_mem_of_ne_nil _ hnil
    obtain ⟨ho, hfact⟩ := List.mem_filter.1 ho
    obtain ⟨n, hn, -, h, hh, hheld⟩ := exists_note ho
    obtain rfl : h.fact = f := hheld.trans (of_decide_eq_true hfact)
    exact (hcounts n hn h hh).nodup (congrArg Held.observations (eq_held hn hh).1)
  · intro honce
    refine ⟨fun n hn h hh => ?_, fun rs' hperm => ?_⟩
    · obtain ⟨heq, hne⟩ := eq_held hn hh
      rw [heq]
      exact counts_held honce hne
    · exact (collate_congr (hperm.symm.flatMap_right _) (nodup_sources_iff.2 honce)).symm

/-- **A rebuild publishes its store's notes, and these count records exactly when** no record
    there can say a fact twice. -/
theorem counts_records_iff (h : Host) (now : ℤ) (σ : Core.Store) (t : Tree) :
    (∀ report, (rebuilt h now σ t).1 = .ok report →
      Assembled (rebuilt h now σ t).2 (notesOf h σ)) ∧
    (CountsRecords ((sources h σ).filterMap id) ↔ SaidOnce ((sources h σ).filterMap id)) :=
  ⟨fun _ hok => assembled_of_ok hok, countsRecords_iff⟩

/-! ## One record, twice -/

section
open Core
set_option maxRecDepth 4000

/-- An agent's record about one ticket, in two roles. -/
def twoRoles : ActionRecord :=
  let r := ticketRecord "agent_a".toList
  { r with entities := r.entities ++ r.entities.map fun e => { e with role := .related } }

/-- **A record that names its ticket in two roles is counted twice**: it is admitted, and the
    note of the ticket says that two records named it, and lists the one record twice. -/
theorem two_roles_counted_twice : ∃ σ, accept ticketPipeline (quietEnv 0) twoRoles [] emptyStore =
      (.ok (.stored twoRoles.recordId), σ) ∧
    (rebuilt ticketHost 0 σ ∅).1.isOk ∧
    notesOf ticketHost σ = [⟨ticket, [⟨.actor ticket "agent_a".toList, 2,
      "2026-01-01T00:00:00Z".toList, "2026-01-01T00:00:00Z".toList,
      [twoRoles.recordId, twoRoles.recordId]⟩]⟩] ∧
    ¬ CountsRecords ((sources ticketHost σ).filterMap id) := by
  have hrun : accept ticketPipeline (quietEnv 0) twoRoles [] emptyStore = (.ok (.stored twoRoles.recordId),
      (accept ticketPipeline (quietEnv 0) twoRoles [] emptyStore).2) := by
    refine Prod.ext (ok_of_toOption ?_) rfl
    decide +kernel
  have hnotes : notesOf ticketHost (accept ticketPipeline (quietEnv 0) twoRoles [] emptyStore).2 =
      [⟨ticket, [⟨.actor ticket "agent_a".toList, 2, "2026-01-01T00:00:00Z".toList,
        "2026-01-01T00:00:00Z".toList, [twoRoles.recordId, twoRoles.recordId]⟩]⟩] := by
    decide +kernel
  refine ⟨_, hrun, by decide +kernel, hnotes, fun h => ?_⟩
  have hn := hnotes ▸ List.mem_cons_self
  obtain ⟨roll, hroll, -, hsources, -⟩ := h.1 _ hn _ List.mem_cons_self
  have htake : ((roll.take maxSourcesPerFact).map (·.recordId)).Nodup :=
    hroll.distinct.sublist ((List.take_sublist _ _).map _)
  rw [← hsources] at htake
  exact absurd htake (by decide)

end

end Yaam.Knowledge
