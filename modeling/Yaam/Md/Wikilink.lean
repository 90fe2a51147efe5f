/-
  `[[kind:id]]` cross-references (`yaam-md`, `wikilink.rs`).

  * `extract` reads the references of a text, `renderLink` writes one;
  * `extract_skip` and `extract_renderLink`: what is read of a text without brackets,
    and of a reference in front of a text;
  * `extract_append`: a text is read by itself when what follows opens a reference
    before it closes one.
-/
import Yaam.Lib.Text

namespace Yaam.Md

open Text

/-- A text up to its first `]]`, and what follows. -/
def splitClose : Text → Option (Text × Text)
  | [] => none
  | ']' :: ']' :: t => some ([], t)
  | c :: t => (splitClose t).map fun p => (c :: p.1, p.2)

/-- Whether the inside of a reference holds what cannot stand there. -/
def stray (inner : Text) : Bool := '[' ∈ inner || ']' ∈ inner || '\n' ∈ inner

/-- The kind and the identifier of a reference, when it has both. -/
def reference (inner : Text) : List (Text × Text) :=
  match splitOnce ':' inner with
  | some (kind, id) => if kind ≠ [] ∧ id ≠ [] then [(kind, id)] else []
  | none => []

/-- The references of a text, within a number of steps. -/
def extractWithin : ℕ → Text → List (Text × Text)
  | 0, _ => []
  | _ + 1, [] => []
  | n + 1, '[' :: '[' :: after => match splitClose after with
    | none => []
    | some (inner, rest) =>
      -- a stray bracket run: one character in, so that a reference inside it is found
      if stray inner then extractWithin n ('[' :: after)
      else reference inner ++ extractWithin n rest
  | n + 1, _ :: t => extractWithin n t

/-- The wikilinks of a text, in order. -/
def extract (body : Text) : List (Text × Text) := extractWithin body.length body

/-- An entity as a wikilink. -/
def renderLink (kind id : Text) : Text := "[[".toList ++ kind ++ ':' :: id ++ "]]".toList

/-! ## One step at a time -/

theorem splitClose_cons {c : Char} {t : Text} (h : ¬ (c = ']' ∧ t.head? = some ']')) :
    splitClose (c :: t) = (splitClose t).map fun p => (c :: p.1, p.2) := by
  rw [splitClose.eq_def]
  split
  · rename_i heq
    cases heq
  · rename_i u heq
    obtain ⟨rfl, rfl⟩ := List.cons.inj heq
    exact absurd ⟨rfl, rfl⟩ h
  · rename_i heq
    obtain ⟨rfl, rfl⟩ := List.cons.inj heq
    rfl

/-- A text that closes at its head does so in front of another bracket. -/
theorem not_closes {c : Char} {t : Text} (h : ∀ u, c = ']' → t = ']' :: u → False) :
    ¬ (c = ']' ∧ t.head? = some ']') := by
  rintro ⟨hc, ht⟩
  cases t with
  | nil => cases ht
  | cons d t =>
    obtain rfl := Option.some.inj ht
    exact h t hc rfl

theorem splitClose_cons_none {c : Char} {t : Text} (h : splitClose (c :: t) = none) :
    ¬ (c = ']' ∧ t.head? = some ']') ∧ splitClose t = none := by
  have hno : ¬ (c = ']' ∧ t.head? = some ']') := by
    refine not_closes ?_
    rintro u rfl rfl
    cases h
  rw [splitClose_cons hno, Option.map_eq_none_iff] at h
  exact ⟨hno, h⟩

theorem splitClose_length {t inner rest : Text} (h : splitClose t = some (inner, rest)) :
    rest.length < t.length := by
  induction t using splitClose.induct generalizing inner with
  | case1 => cases h
  | case2 t =>
    obtain ⟨-, rfl⟩ := Prod.mk.inj (Option.some.inj h)
    simp only [List.length_cons]
    omega
  | case3 c t hc ih =>
    rw [splitClose_cons (not_closes hc)] at h
    obtain ⟨⟨i, r⟩, hp, heq⟩ := Option.map_eq_some_iff.1 h
    obtain ⟨-, rfl⟩ := Prod.mk.inj heq
    have hlt : r.length < t.length := ih hp
    exact hlt.trans (Nat.lt_succ_self _)

/-- Steps enough for a text's length are enough. -/
theorem extractWithin_congr {n m : ℕ} {t : Text} (hn : t.length ≤ n) (hm : t.length ≤ m) :
    extractWithin n t = extractWithin m t := by
  induction n generalizing m t with
  | zero =>
    obtain rfl := List.length_eq_zero_iff.1 (Nat.le_zero.1 hn)
    cases m <;> rfl
  | succ n ih =>
    cases m with
    | zero =>
      obtain rfl := List.length_eq_zero_iff.1 (Nat.le_zero.1 hm)
      rfl
    | succ m =>
      have htail : ∀ {c : Char} {u : Text}, t = c :: u → u.length ≤ n ∧ u.length ≤ m := by
        rintro c u rfl
        exact ⟨Nat.le_of_succ_le_succ hn, Nat.le_of_succ_le_succ hm⟩
      rw [extractWithin.eq_def, extractWithin.eq_def]
      split
      · rename_i heq
        cases heq
      · rfl
      · rename_i after heq
        obtain rfl := Nat.succ.inj heq
        obtain ⟨h1, h2⟩ := htail rfl
        cases hs : splitClose after with
        | none => simp
        | some p =>
          obtain ⟨inner, rest⟩ := p
          have hlt := splitClose_length hs
          simp only [List.length_cons] at h1 h2
          have hopen : extractWithin n ('[' :: after) = extractWithin m ('[' :: after) := ih h1 h2
          have hrest : extractWithin n rest = extractWithin m rest :=
            ih (by omega) (by omega)
          simp only [hopen, hrest]
      · rename_i c u hno heq
        obtain rfl := Nat.succ.inj heq
        obtain ⟨h1, h2⟩ := htail rfl
        rw [ih h1 h2]

theorem extractWithin_of_le {n : ℕ} {t : Text} (h : t.length ≤ n) :
    extractWithin n t = extract t := extractWithin_congr h le_rfl

@[simp] theorem extract_nil : extract [] = [] := rfl

/-- A character that opens nothing is read over. -/
theorem extract_cons {c : Char} {t : Text} (h : ¬ (c = '[' ∧ t.head? = some '[')) :
    extract (c :: t) = extract t := by
  rw [extract, List.length_cons, extractWithin.eq_def]
  split
  · rename_i heq
    cases heq
  · rename_i heq
    cases heq
  · rename_i heq
    obtain ⟨rfl, rfl⟩ := List.cons.inj heq
    exact absurd ⟨rfl, rfl⟩ h
  · rename_i hn heq
    obtain ⟨rfl, rfl⟩ := List.cons.inj heq
    obtain rfl := Nat.succ.inj hn
    rfl

theorem extract_open (after : Text) : extract ('[' :: '[' :: after) =
    match splitClose after with
    | none => []
    | some (inner, rest) =>
      if stray inner then extract ('[' :: after) else reference inner ++ extract rest := by
  rw [extract, List.length_cons, extractWithin]
  cases hs : splitClose after with
  | none => rfl
  | some p =>
    obtain ⟨inner, rest⟩ := p
    have hlt := splitClose_length hs
    have hrest : extractWithin ('[' :: after).length rest = extract rest :=
      extractWithin_of_le (by simp only [List.length_cons]; omega)
    simp only [hrest]
    rfl

/-- A text without opening brackets is read over. -/
theorem extract_skip {m : Text} (h : '[' ∉ m) (t : Text) : extract (m ++ t) = extract t := by
  induction m with
  | nil => rfl
  | cons c m ih =>
    simp only [List.mem_cons, not_or] at h
    rw [List.cons_append, extract_cons fun hc => h.1 hc.1.symm, ih h.2]

theorem splitClose_of_notMem {w : Text} (h : ']' ∉ w) (t : Text) :
    splitClose (w ++ ']' :: ']' :: t) = some (w, t) := by
  induction w with
  | nil => rfl
  | cons c w ih =>
    simp only [List.mem_cons, not_or] at h
    rw [List.cons_append, splitClose_cons fun hc => h.1 hc.1.symm, ih h.2]
    rfl

/-! ## References -/

/-- A kind and an identifier that a reference can spell. -/
structure Linkable (kind id : Text) : Prop where
  kind_ok : kind ≠ [] ∧ '[' ∉ kind ∧ ']' ∉ kind ∧ '\n' ∉ kind
  id_ok : id ≠ [] ∧ '[' ∉ id ∧ ']' ∉ id ∧ '\n' ∉ id
  colon : ':' ∉ kind

/-- The first `]]` after a reference's inside is the one that closes it. -/
theorem Linkable.close {kind id : Text} (h : Linkable kind id) (t : Text) :
    splitClose ((kind ++ ':' :: id) ++ ']' :: ']' :: t) = some (kind ++ ':' :: id, t) := by
  refine splitClose_of_notMem ?_ t
  simp [h.kind_ok.2.2.1, h.id_ok.2.2.1]

theorem Linkable.not_stray {kind id : Text} (h : Linkable kind id) :
    stray (kind ++ ':' :: id) = false := by
  obtain ⟨⟨-, hk1, hk2, hk3⟩, ⟨-, hi1, hi2, hi3⟩, -⟩ := h
  simp [stray, hk1, hk2, hk3, hi1, hi2, hi3]

/-- **A reference is read back**, whatever follows it. -/
theorem extract_renderLink {kind id : Text} (h : Linkable kind id) (t : Text) :
    extract (renderLink kind id ++ t) = (kind, id) :: extract t := by
  have htext : renderLink kind id ++ t = '[' :: '[' :: ((kind ++ ':' :: id) ++ ']' :: ']' :: t) := by
    simp [renderLink]
  rw [htext, extract_open, h.close]
  simp only [h.not_stray, Bool.false_eq_true, if_false, reference, splitOnce_append_cons h.colon]
  rw [if_pos ⟨h.kind_ok.1, h.id_ok.1⟩]
  rfl

theorem splitClose_append_some {a b inner rest : Text} (h : splitClose a = some (inner, rest)) :
    splitClose (a ++ b) = some (inner, rest ++ b) := by
  induction a using splitClose.induct generalizing inner with
  | case1 => cases h
  | case2 t =>
    obtain ⟨rfl, rfl⟩ := Prod.mk.inj (Option.some.inj h)
    rfl
  | case3 c t hc ih =>
    rw [splitClose_cons (not_closes hc)] at h
    obtain ⟨⟨i, r⟩, hp, heq⟩ := Option.map_eq_some_iff.1 h
    obtain ⟨rfl, rfl⟩ := Prod.mk.inj heq
    have hno' : ¬ (c = ']' ∧ (t ++ b).head? = some ']') := by
      rintro ⟨hc', ht⟩
      cases t with
      | nil => cases hp
      | cons d t => exact not_closes hc ⟨hc', ht⟩
    rw [List.cons_append, splitClose_cons hno', ih hp]
    rfl

theorem splitClose_append_none {a b : Text} (h : splitClose a = none) (hb : b.head? ≠ some ']') :
    splitClose (a ++ b) = (splitClose b).map fun p => (a ++ p.1, p.2) := by
  induction a with
  | nil => simp
  | cons c a ih =>
    obtain ⟨hno, h⟩ := splitClose_cons_none h
    have hno' : ¬ (c = ']' ∧ (a ++ b).head? = some ']') := by
      rintro ⟨hc', ha⟩
      cases a with
      | nil => exact hb ha
      | cons d a => exact hno ⟨hc', ha⟩
    rw [List.cons_append, splitClose_cons hno', ih h, Option.map_map]
    rfl

/-- Nothing is referred to where nothing is closed. -/
theorem extract_of_splitClose_none {t : Text} (h : splitClose t = none) : extract t = [] := by
  induction t with
  | nil => rfl
  | cons c t ih =>
    have hrest : splitClose t = none := (splitClose_cons_none h).2
    by_cases hopen : c = '[' ∧ t.head? = some '['
    · obtain ⟨rfl, ht⟩ := hopen
      cases t with
      | nil => cases ht
      | cons d after =>
        obtain rfl := Option.some.inj ht
        rw [extract_open, (splitClose_cons_none hrest).2]
    · rw [extract_cons hopen, ih hrest]

/-- What follows a text and opens a reference before it closes one. -/
structure Detached (b : Text) : Prop where
  opens : b.head? ≠ some '['
  closes : b.head? ≠ some ']'
  first : ∀ inner rest, splitClose b = some (inner, rest) → '[' ∈ inner

/-- **A text is read by itself** when what follows is detached from it. -/
theorem extract_append {b : Text} (hb : Detached b) (a : Text) :
    extract (a ++ b) = extract a ++ extract b := by
  obtain ⟨n, hn⟩ : ∃ n, a.length ≤ n := ⟨_, le_rfl⟩
  induction n generalizing a with
  | zero =>
    obtain rfl := List.length_eq_zero_iff.1 (Nat.le_zero.1 hn)
    rfl
  | succ n ih =>
    cases a with
    | nil => rfl
    | cons c a =>
      have ha : a.length ≤ n := Nat.le_of_succ_le_succ hn
      by_cases hopen : c = '[' ∧ a.head? = some '['
      · obtain ⟨rfl, hhead⟩ := hopen
        cases a with
        | nil => cases hhead
        | cons d after =>
          obtain rfl := Option.some.inj hhead
          rw [List.cons_append, List.cons_append, extract_open, extract_open]
          cases hs : splitClose after with
          | some p =>
            obtain ⟨inner, rest⟩ := p
            have hlt := splitClose_length hs
            rw [splitClose_append_some hs]
            simp only
            split_ifs with hstray
            · exact ih ('[' :: after) ha
            · simp only [List.length_cons] at ha
              rw [ih rest (by omega), List.append_assoc]
          | none =>
            rw [splitClose_append_none hs hb.closes]
            have hopened : extract ('[' :: after) = [] :=
              extract_of_splitClose_none (by rw [splitClose_cons (by simp), hs]; rfl)
            cases hbs : splitClose b with
            | none => simp [extract_of_splitClose_none hbs]
            | some p =>
              obtain ⟨inner, rest⟩ := p
              have hstray : stray (after ++ inner) = true := by
                simp [stray, hb.first inner rest hbs]
              simp only [Option.map_some, hstray, if_true, List.nil_append]
              have := ih ('[' :: after) ha
              rw [hopened, List.nil_append] at this
              exact this
      · have hopen' : ¬ (c = '[' ∧ (a ++ b).head? = some '[') := by
          rintro ⟨hc, hhead⟩
          cases a with
          | nil => exact hb.opens hhead
          | cons d a => exact hopen ⟨hc, hhead⟩
        rw [List.cons_append, extract_cons hopen', extract_cons hopen, ih a ha]

end Yaam.Md
