/-
  The scan for wikilinks finds exactly the links (`yaam-md`, `wikilink.rs`).

  * `Scan.next` is one turn of the loop: past a whole span, or one character into a
    malformed one; `Scan.within_eq` says that it ends, and with what;
  * `LinkAt` is a link at a position of a text, `LinksOf` the list of all of them, in
    order;
  * `linksOf_extract`: what is read of a text is its links;
  * `extract_finds_links`: so the loop ends on every text with its links, and a rendered
    reference is read back.
-/
import Yaam.Contract.Record
import Yaam.Md.Wikilink

namespace Yaam.Md

open Text Contract

/-! ## The loop -/

/-- The text after the first `[[`. -/
def findOpen : Text → Option Text
  | [] => none
  | '[' :: '[' :: t => some t
  | _ :: t => findOpen t

/-- Where the loop stands: what it has pushed, and the text that is left. -/
structure Scan where
  out : List (Text × Text)
  rest : Text

/-- One turn of the loop, unless it breaks. -/
def Scan.next (s : Scan) : Option Scan :=
  match findOpen s.rest with
  | none => none
  | some after => match splitClose after with
    | none => none
    | some (inner, rest) =>
      if stray inner then some ⟨s.out, '[' :: after⟩ else some ⟨s.out ++ reference inner, rest⟩

/-- What the loop pushes within a number of turns, if it ends within them. -/
def Scan.within : ℕ → Scan → Option (List (Text × Text))
  | 0, _ => none
  | n + 1, s => match s.next with
    | none => some s.out
    | some s' => s'.within n

variable {t after inner rest : Text} {c : Char} {l : Text × Text} {out : List (Text × Text)}

/-- What precedes the first `[[` is read over. -/
theorem findOpen_cases (t : Text) :
    (findOpen t = none ∧ extract t = []) ∨ ∃ after, findOpen t = some after ∧
      extract t = extract ('[' :: '[' :: after) ∧ after.length + 2 ≤ t.length := by
  induction t using findOpen.induct with
  | case1 => exact .inl ⟨rfl, rfl⟩
  | case2 t => exact .inr ⟨t, rfl, rfl, le_rfl⟩
  | case3 c t hopen ih =>
    have hno : ¬ (c = '[' ∧ t.head? = some '[') := by
      rintro ⟨rfl, ht⟩
      cases t with
      | nil => cases ht
      | cons d t =>
        obtain rfl := Option.some.inj ht
        exact hopen t rfl rfl
    have hfind : findOpen (c :: t) = findOpen t := by
      rw [findOpen]
      exact hopen
    rw [hfind, extract_cons hno]
    rcases ih with hnone | ⟨after, hafter, hextract, hlen⟩
    · exact .inl hnone
    · exact .inr ⟨after, hafter, hextract, hlen.trans (Nat.le_succ _)⟩

/-- **The loop ends**: a turn for each character, and one to see the end, are enough. -/
theorem Scan.within_eq {n : ℕ} (s : Scan) (hn : s.rest.length < n) :
    s.within n = some (s.out ++ extract s.rest) := by
  induction n generalizing s with
  | zero => exact absurd hn (Nat.not_lt_zero _)
  | succ n ih =>
    obtain ⟨out, rest⟩ := s
    rw [Scan.within, Scan.next]
    rcases findOpen_cases rest with ⟨hnone, hextract⟩ | ⟨after, hafter, hextract, hlen⟩
    · simp only [hnone, hextract, List.append_nil]
    · simp only [hafter, hextract, extract_open]
      cases hclose : splitClose after with
      | none => simp
      | some p =>
        obtain ⟨inner, left⟩ := p
        have hleft := splitClose_length hclose
        simp only at hn ⊢
        split_ifs with hstray
        · -- one character in: the text is shorter by one at least
          exact ih ⟨out, '[' :: after⟩ (by simp only [List.length_cons]; omega)
        · refine (ih ⟨out ++ reference inner, left⟩ (by simp only; omega)).trans ?_
          simp only [List.append_assoc]

/-! ## Links of a text -/

/-- A link stands at a position of a text. -/
structure LinkAt (t : Text) (i : ℕ) (l : Text × Text) : Prop where
  spelled : Linkable l.1 l.2
  occurs : renderLink l.1 l.2 <+: t.drop i

/-- The list holds the links of the text, each once for every position it stands at, in
    order of position. -/
def LinksOf (t : Text) (out : List (Text × Text)) : Prop :=
  ∃ ps : List ℕ, ps.Pairwise (· < ·) ∧ (∀ i, i ∈ ps ↔ ∃ l, LinkAt t i l) ∧
    List.Forall₂ (LinkAt t) ps out

theorem linkAt_succ {i : ℕ} : LinkAt (c :: t) (i + 1) l ↔ LinkAt t i l :=
  ⟨fun hl => ⟨hl.spelled, hl.occurs⟩, fun hl => ⟨hl.spelled, hl.occurs⟩⟩

/-- At most one link stands at a position. -/
theorem LinkAt.unique {i : ℕ} {l' : Text × Text} (h : LinkAt t i l) (h' : LinkAt t i l') : l = l' := by
  obtain ⟨u, hu⟩ := h.occurs
  obtain ⟨u', hu'⟩ := h'.occurs
  have hboth : l :: extract u = l' :: extract u' := by
    rw [← extract_renderLink h.spelled u, ← extract_renderLink h'.spelled u', hu, hu']
  exact (List.cons.inj hboth).1

/-- A link is two brackets, an inside that nothing is stray in, and the first `]]` after
    it. -/
theorem LinkAt.split (h : LinkAt t 0 l) : ∃ rest,
    t = '[' :: '[' :: ((l.1 ++ ':' :: l.2) ++ ']' :: ']' :: rest) ∧
      splitClose ((l.1 ++ ':' :: l.2) ++ ']' :: ']' :: rest) = some (l.1 ++ ':' :: l.2, rest) := by
  obtain ⟨rest, hrest⟩ := h.occurs
  refine ⟨rest, ?_, h.spelled.close rest⟩
  rw [List.drop_zero] at hrest
  rw [← hrest]
  simp [renderLink]

theorem LinkAt.opens (h : LinkAt (c :: t) 0 l) : c = '[' ∧ t.head? = some '[' := by
  obtain ⟨rest, ht, -⟩ := h.split
  obtain ⟨rfl, rfl⟩ := List.cons.inj ht
  exact ⟨rfl, rfl⟩

theorem LinksOf.nil : LinksOf [] [] := by
  refine ⟨[], List.Pairwise.nil, fun i => iff_of_false List.not_mem_nil ?_, .nil⟩
  rintro ⟨l, hl⟩
  obtain ⟨u, hu⟩ := hl.occurs
  simp [renderLink] at hu

/-- A character that no link starts with leaves the list. -/
theorem LinksOf.step (h : LinksOf t out) (hno : ∀ l, ¬ LinkAt (c :: t) 0 l) :
    LinksOf (c :: t) out := by
  obtain ⟨ps, hlt, hmem, hall⟩ := h
  refine ⟨ps.map (· + 1), ?_, fun i => ?_, ?_⟩
  · exact List.pairwise_map.2 (hlt.imp Nat.succ_lt_succ)
  · cases i with
    | zero => simpa using hno
    | succ i =>
      simp only [linkAt_succ, ← hmem]
      simp
  · exact List.forall₂_map_left_iff.2 (hall.imp fun i l => linkAt_succ.2)

/-- A link that starts here comes first. -/
theorem LinksOf.link (h : LinksOf t out) (hl : LinkAt (c :: t) 0 l) : LinksOf (c :: t) (l :: out) := by
  obtain ⟨ps, hlt, hmem, hall⟩ := h
  refine ⟨0 :: ps.map (· + 1), ?_, fun i => ?_, .cons hl ?_⟩
  · refine List.pairwise_cons.2 ⟨fun j hj => ?_, List.pairwise_map.2 (hlt.imp Nat.succ_lt_succ)⟩
    obtain ⟨i, -, rfl⟩ := List.mem_map.1 hj
    exact Nat.succ_pos i
  · cases i with
    | zero => simpa using ⟨l.1, l.2, hl⟩
    | succ i =>
      simp only [linkAt_succ, ← hmem]
      simp
  · exact List.forall₂_map_left_iff.2 (hall.imp fun i l => linkAt_succ.2)

/-- No link starts in a text without opening brackets. -/
theorem LinksOf.skip {m : Text} (h : LinksOf t out) (hm : '[' ∉ m) : LinksOf (m ++ t) out := by
  induction m with
  | nil => exact h
  | cons c m ih =>
    simp only [List.mem_cons, not_or] at hm
    exact (ih hm.2).step fun l hl => hm.1 hl.opens.1.symm

/-! ## What is read is the links -/

/-- A text that closes nothing has no link. -/
theorem linksOf_of_splitClose_none (h : splitClose t = none) : LinksOf t [] := by
  induction t with
  | nil => exact .nil
  | cons c t ih =>
    have hrest : splitClose t = none := (splitClose_cons_none h).2
    refine (ih hrest).step fun l hl => ?_
    obtain ⟨rest, ht, hclose⟩ := hl.split
    obtain ⟨rfl, rfl⟩ := List.cons.inj ht
    rw [(splitClose_cons_none hrest).2] at hclose
    cases hclose

theorem splitClose_eq (h : splitClose t = some (inner, rest)) : t = inner ++ ']' :: ']' :: rest := by
  induction t using splitClose.induct generalizing inner with
  | case1 => cases h
  | case2 t =>
    obtain ⟨rfl, rfl⟩ := Prod.mk.inj (Option.some.inj h)
    rfl
  | case3 c t hc ih =>
    rw [splitClose_cons (not_closes hc)] at h
    obtain ⟨⟨i, r⟩, hp, heq⟩ := Option.map_eq_some_iff.1 h
    obtain ⟨rfl, rfl⟩ := Prod.mk.inj heq
    rw [ih hp, List.cons_append]

theorem reference_eq : reference inner = [l] ↔
    inner = l.1 ++ ':' :: l.2 ∧ ':' ∉ l.1 ∧ l.1 ≠ [] ∧ l.2 ≠ [] := by
  obtain ⟨kind, id⟩ := l
  constructor
  · intro h
    unfold reference at h
    cases hsplit : splitOnce ':' inner with
    | none =>
      rw [hsplit] at h
      cases h
    | some p =>
      obtain ⟨k, i⟩ := p
      rw [hsplit] at h
      dsimp only at h
      split_ifs at h with hne
      obtain ⟨rfl, rfl⟩ := Prod.mk.inj (List.cons.inj h).1
      obtain ⟨hinner, hcolon⟩ := splitOnce_eq_some hsplit
      exact ⟨hinner, hcolon, hne⟩
  · rintro ⟨rfl, hcolon, hne⟩
    rw [reference, splitOnce_append_cons hcolon]
    exact if_pos hne

theorem reference_cases (inner : Text) : reference inner = [] ∨ ∃ l, reference inner = [l] := by
  unfold reference
  split
  · split_ifs
    · exact .inr ⟨_, rfl⟩
    · exact .inl rfl
  · exact .inl rfl

/-- A link starts with a span that nothing is stray in exactly when the span is a
    reference to it. -/
theorem linkAt_span (hstray : stray inner = false) :
    LinkAt ('[' :: '[' :: (inner ++ ']' :: ']' :: rest)) 0 l ↔ reference inner = [l] := by
  simp only [stray, Bool.or_eq_false_iff, decide_eq_false_iff_not] at hstray
  obtain ⟨⟨hopen, hclose⟩, hline⟩ := hstray
  rw [reference_eq]
  constructor
  · intro hl
    obtain ⟨u, hu, hsplit⟩ := hl.split
    obtain ⟨-, hu⟩ := List.cons.inj hu
    obtain ⟨-, hu⟩ := List.cons.inj hu
    rw [← hu, splitClose_of_notMem hclose] at hsplit
    obtain ⟨hinner, -⟩ := Prod.mk.inj (Option.some.inj hsplit)
    exact ⟨hinner, hl.spelled.colon, hl.spelled.kind_ok.1, hl.spelled.id_ok.1⟩
  · rintro ⟨rfl, hcolon, hk, hi⟩
    simp only [List.mem_append, List.mem_cons, not_or] at hopen hclose hline
    exact ⟨⟨⟨hk, hopen.1, hclose.1, hline.1⟩, ⟨hi, hopen.2.2, hclose.2.2, hline.2.2⟩, hcolon⟩,
      rest, by simp [renderLink]⟩

/-- **A span that is passed over hides no link**: what it refers to comes first, and the
    rest is what follows it. -/
theorem linksOf_span (h : LinksOf rest out) (hstray : stray inner = false) :
    LinksOf ('[' :: '[' :: (inner ++ ']' :: ']' :: rest)) (reference inner ++ out) := by
  have hno : '[' ∉ inner := fun hmem => by simp [stray, hmem] at hstray
  have hafter : LinksOf (inner ++ ']' :: ']' :: rest) out :=
    (h.skip (m := [']', ']']) (by simp)).skip hno
  have hsecond : LinksOf ('[' :: (inner ++ ']' :: ']' :: rest)) out := by
    refine hafter.step fun l hl => ?_
    -- a link at the second bracket would need a third
    have hhead := hl.opens.2
    cases inner with
    | nil => cases hhead
    | cons d inner =>
      obtain rfl := Option.some.inj hhead
      exact hno List.mem_cons_self
  rcases reference_cases inner with href | ⟨l, href⟩
  · rw [href]
    refine hsecond.step fun l hl => ?_
    rw [linkAt_span hstray, href] at hl
    cases hl
  · rw [href]
    exact hsecond.link ((linkAt_span hstray).2 href)

/-- **What is read of a text is its links.** -/
theorem linksOf_extract (t : Text) : LinksOf t (extract t) := by
  obtain ⟨n, hn⟩ : ∃ n, t.length ≤ n := ⟨_, le_rfl⟩
  induction n generalizing t with
  | zero =>
    obtain rfl := List.length_eq_zero_iff.1 (Nat.le_zero.1 hn)
    exact .nil
  | succ n ih =>
    cases t with
    | nil => exact .nil
    | cons c t =>
      have ht : t.length ≤ n := Nat.le_of_succ_le_succ hn
      by_cases hopen : c = '[' ∧ t.head? = some '['
      · obtain ⟨rfl, hhead⟩ := hopen
        obtain ⟨after, rfl⟩ : ∃ after, t = '[' :: after := by
          cases t with
          | nil => cases hhead
          | cons d after => exact ⟨after, by rw [Option.some.inj hhead]⟩
        rw [extract_open]
        cases hclose : splitClose after with
        | none =>
          refine linksOf_of_splitClose_none ?_
          rw [splitClose_cons (by simp), splitClose_cons (by simp), hclose]
          rfl
        | some p =>
          obtain ⟨inner, rest⟩ := p
          obtain rfl := splitClose_eq hclose
          dsimp only
          split_ifs with hstray
          · -- a link here would have nothing stray inside
            refine (ih _ ht).step fun l hl => ?_
            obtain ⟨u, hu, hsplit⟩ := hl.split
            obtain ⟨-, hu⟩ := List.cons.inj hu
            obtain ⟨-, hu⟩ := List.cons.inj hu
            rw [← hu, hclose] at hsplit
            obtain ⟨rfl, -⟩ := Prod.mk.inj (Option.some.inj hsplit)
            rw [hl.spelled.not_stray] at hstray
            cases hstray
          · have hlen := splitClose_length hclose
            refine linksOf_span (ih rest ?_) (Bool.not_eq_true _ ▸ hstray)
            simp only [List.length_cons] at ht
            omega
      · rw [extract_cons hopen]
        exact (ih t ht).step fun l hl => hopen hl.opens

/-- **The scan finds exactly the links.**  On every text the loop ends, within a turn for
    each character and one more, with the text's links: one for each position where one
    stands, in order.  A reference whose parts can be spelled is read back. -/
theorem extract_finds_links (t : Text) :
    (∀ n, t.length < n → Scan.within n ⟨[], t⟩ = some (extract t)) ∧
      LinksOf t (extract t) ∧ (∀ i l l', LinkAt t i l → LinkAt t i l' → l = l') ∧
      ∀ e : EntityRef, Linkable e.kind e.id → extract (renderLink e.kind e.id) = [(e.kind, e.id)] := by
  refine ⟨fun n hn => Scan.within_eq ⟨[], t⟩ hn, linksOf_extract t, fun i l l' hl => hl.unique, ?_⟩
  intro e he
  have hread := extract_renderLink he []
  rwa [List.append_nil, extract_nil] at hread

/-- A stray run of brackets does not hide the link in it, and a rendered reference is
    read back. -/
theorem extract_finds_links_stray :
    Scan.within 30 ⟨[], "a [[b]c]] [[ticket:9]]".toList⟩ = some [("ticket".toList, "9".toList)] ∧
      extract (renderLink "ticket".toList "9".toList) = [("ticket".toList, "9".toList)] := by
  obtain ⟨hends, -, -, hback⟩ := extract_finds_links "a [[b]c]] [[ticket:9]]".toList
  exact ⟨hends 30 (by decide), hback ⟨"ticket".toList, "9".toList, .primary, fieldConfidence⟩
    ⟨by decide, by decide, by decide⟩⟩

end Yaam.Md
