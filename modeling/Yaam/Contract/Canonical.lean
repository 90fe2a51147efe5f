/-
  Canonicalising an identifier twice (`Registry::canonicalise` of
  yaam-contract).

  A step of a kind's normalisation is a trimming or recases a part of the
  identifier.  The separators cut an identifier into its head, before the
  first of `- / : # @`, its path, up to the first of `: # @`, and its locator.
  Recasing moves none of the cuts, and trimming takes blanks off the ends, so
  that a list of steps amounts to one recasing for each part and at most one
  trimming.

  * `Casing.Charwise`: what is asked of the Unicode tables;
  * `Recasing.twice`: lowercasings and uppercasings one after the other, in
    any number and order, are idempotent;
  * `normalise_eq`: the steps of a kind, as three recasings and a trimming;
  * `canonicalise_twice`: a canonical identifier is its own canonical form.
-/
import Yaam.Contract.Record

namespace Yaam.Contract

open Text

/-! ## Changing the case of a text -/

/-- The characters that case mappings leave alone: separators and whitespace. -/
def Mark (c : Char) : Prop := c ∈ ['-', '/', ':', '#', '@'] ∨ isWhite c = true

/-- A change of case: character by character, on all but the marks, and making none. -/
structure Recases (f : Text → Text) : Prop where
  append : ∀ s t, f (s ++ t) = f s ++ f t
  fixed : ∀ c, Mark c → f [c] = [c]
  kept : ∀ c, ¬ Mark c → f [c] ≠ [] ∧ ∀ d ∈ f [c], ¬ Mark d

/-- The tables of a casing map characters one by one, and settle after a round of each. -/
structure Casing.Charwise (K : Casing) : Prop where
  lower : Recases K.lower
  upper : Recases K.upper
  lower_lower : ∀ t, K.lower (K.lower t) = K.lower t
  upper_upper : ∀ t, K.upper (K.upper t) = K.upper t
  upper_lower_upper : ∀ t, K.upper (K.lower (K.upper t)) = K.upper t

section Recases
variable {f g : Text → Text} (hf : Recases f)
include hf

theorem Recases.nil : f [] = [] := by
  have h := hf.append [] []
  rwa [List.append_nil, List.self_eq_append_left] at h

theorem Recases.cons (c : Char) (t : Text) : f (c :: t) = f [c] ++ f t := hf.append [c] t

theorem Recases.single_ne_nil (c : Char) : f [c] ≠ [] := by
  by_cases hc : Mark c
  · rw [hf.fixed c hc]
    exact List.cons_ne_nil c []
  · exact (hf.kept c hc).1

theorem Recases.mem {t : Text} {d : Char} (h : d ∈ f t) : ∃ c ∈ t, d ∈ f [c] := by
  induction t with
  | nil =>
    rw [hf.nil] at h
    cases h
  | cons c t ih =>
    rw [hf.cons] at h
    rcases List.mem_append.1 h with h | h
    · exact ⟨c, List.mem_cons_self, h⟩
    · obtain ⟨e, he, hd⟩ := ih h
      exact ⟨e, List.mem_cons_of_mem c he, hd⟩

/-- A mark of the recased character is the character. -/
theorem Recases.mark_mem {c d : Char} (h : d ∈ f [c]) (hd : Mark d) : d = c := by
  by_cases hc : Mark c
  · rw [hf.fixed c hc] at h
    exact List.mem_singleton.1 h
  · exact absurd hd ((hf.kept c hc).2 d h)

/-- No mark appears. -/
theorem Recases.mark_of_mem {t : Text} {d : Char} (h : d ∈ f t) (hd : Mark d) : d ∈ t := by
  obtain ⟨c, hc, hdc⟩ := hf.mem h
  rw [hf.mark_mem hdc hd]
  exact hc

theorem Recases.comp (hg : Recases g) : Recases (f ∘ g) where
  append s t := by simp only [Function.comp_apply, hg.append, hf.append]
  fixed c hc := by rw [Function.comp_apply, hg.fixed c hc, hf.fixed c hc]
  kept c hc := by
    obtain ⟨hne, hall⟩ := hg.kept c hc
    refine ⟨?_, fun d hd hm => ?_⟩
    · obtain ⟨e, t, he⟩ := List.exists_cons_of_ne_nil hne
      rw [Function.comp_apply, he, hf.cons]
      exact List.append_ne_nil_of_left_ne_nil (hf.single_ne_nil e) _
    · obtain ⟨e, he, hde⟩ := hf.mem hd
      rw [hf.mark_mem hde hm] at hm
      exact hall e he hm

end Recases

theorem Recases.id : Recases id where
  append _ _ := rfl
  fixed _ _ := rfl
  kept _ hc := ⟨List.cons_ne_nil _ _, fun _ hd => List.mem_singleton.1 hd ▸ hc⟩

/-! ## Words of lowercasings and uppercasings -/

/-- Lowercasings and uppercasings, one after the other. -/
inductive Recasing (K : Casing) : (Text → Text) → Prop where
  | done : Recasing K id
  | lower {f} : Recasing K f → Recasing K (K.lower ∘ f)
  | upper {f} : Recasing K f → Recasing K (K.upper ∘ f)

theorem Recasing.recases {K : Casing} (hK : K.Charwise) {f : Text → Text} (hf : Recasing K f) :
    Recases f := by
  induction hf with
  | done => exact Recases.id
  | lower _ ih => exact hK.lower.comp ih
  | upper _ ih => exact hK.upper.comp ih

/-- At most three of them count. -/
theorem Recasing.cases_six {K : Casing} (hK : K.Charwise) {f : Text → Text} (hf : Recasing K f) :
    f = id ∨ f = K.lower ∨ f = K.upper ∨ f = K.lower ∘ K.upper ∨ f = K.upper ∘ K.lower ∨
      f = K.lower ∘ K.upper ∘ K.lower := by
  have hll : K.lower ∘ K.lower = K.lower := funext hK.lower_lower
  have huu : K.upper ∘ K.upper = K.upper := funext hK.upper_upper
  have hulu : K.upper ∘ K.lower ∘ K.upper = K.upper := funext hK.upper_lower_upper
  have hlul : K.lower ∘ K.lower ∘ K.upper = K.lower ∘ K.upper := by rw [← Function.comp_assoc, hll]
  induction hf with
  | done => exact .inl rfl
  | lower _ ih =>
    rcases ih with rfl | rfl | rfl | rfl | rfl | rfl
    · exact .inr (.inl rfl)
    · exact .inr (.inl hll)
    · exact .inr (.inr (.inr (.inl rfl)))
    · exact .inr (.inr (.inr (.inl hlul)))
    · exact .inr (.inr (.inr (.inr (.inr rfl))))
    · refine .inr (.inr (.inr (.inr (.inr ?_))))
      rw [← Function.comp_assoc, hll]
  | upper _ ih =>
    rcases ih with rfl | rfl | rfl | rfl | rfl | rfl
    · exact .inr (.inr (.inl rfl))
    · exact .inr (.inr (.inr (.inr (.inl rfl))))
    · exact .inr (.inr (.inl huu))
    · exact .inr (.inr (.inl hulu))
    · refine .inr (.inr (.inr (.inr (.inl ?_))))
      rw [← Function.comp_assoc, huu]
    · refine .inr (.inr (.inr (.inr (.inl ?_))))
      rw [← Function.comp_assoc K.lower, ← Function.comp_assoc K.upper, hulu]

/-- **Any word of case changes is idempotent.** -/
theorem Recasing.twice {K : Casing} (hK : K.Charwise) {f : Text → Text} (hf : Recasing K f)
    (t : Text) : f (f t) = f t := by
  rcases hf.cases_six hK with rfl | rfl | rfl | rfl | rfl | rfl
  · rfl
  · exact hK.lower_lower t
  · exact hK.upper_upper t
  · simp only [Function.comp_apply, hK.upper_lower_upper]
  · simp only [Function.comp_apply, hK.upper_lower_upper]
  · simp only [Function.comp_apply, hK.lower_lower, hK.upper_lower_upper]

/-! ## The three parts of an identifier -/

/-- Head, path and locator as the separators cut them. -/
structure Parts (h p l : Text) : Prop where
  head : ∀ c ∈ h, c ∉ ['-', '/', ':', '#', '@']
  path : ∀ c ∈ p, c ∉ [':', '#', '@']
  starts : ∀ c ∈ p.head?, c ∈ ['-', '/', ':', '#', '@']
  locator : ∀ c ∈ l.head?, c ∈ [':', '#', '@']

theorem mem_separators {c : Char} (h : c ∈ [':', '#', '@']) : c ∈ ['-', '/', ':', '#', '@'] :=
  List.mem_cons_of_mem _ (List.mem_cons_of_mem _ h)

/-- Text without the separators, up to the first of them. -/
theorem cut_at {seps : List Char} {s t : Text} (hs : ∀ c ∈ s, c ∉ seps)
    (ht : ∀ c ∈ t.head?, c ∈ seps) :
    (s ++ t).takeWhile (· ∉ seps) = s ∧ (s ++ t).dropWhile (· ∉ seps) = t := by
  have hs' : ∀ c ∈ s, decide (c ∉ seps) = true := fun c hc => decide_eq_true (hs c hc)
  rw [List.takeWhile_append_of_pos hs', List.dropWhile_append_of_pos hs']
  cases t with
  | nil => exact ⟨List.append_nil s, rfl⟩
  | cons c t =>
    have hc : decide (c ∉ seps) = false := decide_eq_false (not_not_intro (ht c rfl))
    rw [List.takeWhile_cons_of_neg (by rw [hc]; decide), List.dropWhile_cons_of_neg (by rw [hc]; decide)]
    exact ⟨List.append_nil s, rfl⟩

theorem exists_cut (seps : List Char) (t : Text) :
    ∃ s u, t = s ++ u ∧ (∀ c ∈ s, c ∉ seps) ∧ ∀ c ∈ u.head?, c ∈ seps := by
  refine ⟨t.takeWhile (· ∉ seps), t.dropWhile (· ∉ seps), List.takeWhile_append_dropWhile.symm,
    fun c hc => ?_, fun c hc => ?_⟩
  · have := List.mem_takeWhile_imp hc
    exact of_decide_eq_true this
  have := List.head?_dropWhile_not (fun c => decide (c ∉ seps)) t
  rw [Option.mem_def.1 hc] at this
  exact of_not_not (of_decide_eq_false this)

/-- **Every identifier has its three parts.** -/
theorem exists_parts (t : Text) : ∃ h p l, Parts h p l ∧ t = h ++ (p ++ l) := by
  obtain ⟨h, u, rfl, hh, hu⟩ := exists_cut ['-', '/', ':', '#', '@'] t
  obtain ⟨p, l, rfl, hp, hl⟩ := exists_cut [':', '#', '@'] u
  refine ⟨h, p, l, ⟨hh, hp, fun c hc => hu c ?_, hl⟩, rfl⟩
  rw [List.head?_append, Option.mem_def.1 hc]
  rfl

section Parts
variable {h p l : Text} (H : Parts h p l)
include H

theorem Parts.tail : ∀ c ∈ (p ++ l).head?, c ∈ ['-', '/', ':', '#', '@'] := by
  intro c hc
  cases p with
  | nil => exact mem_separators (H.locator c hc)
  | cons d p => exact H.starts c hc

/-- `uppercase_prefix` recases the head. -/
theorem Parts.recase_head (f : Text → Text) :
    recase ['-', '/', ':', '#', '@'] f (h ++ (p ++ l)) = f h ++ (p ++ l) := by
  obtain ⟨h1, h2⟩ := cut_at H.head H.tail
  rw [recase, h1, h2]

/-- `lowercase_path` recases the head and the path. -/
theorem Parts.recase_path {f : Text → Text} (hf : Recases f) :
    recase [':', '#', '@'] f (h ++ (p ++ l)) = f h ++ (f p ++ l) := by
  have hhp : ∀ c ∈ h ++ p, c ∉ [':', '#', '@'] := fun c hc hm =>
    (List.mem_append.1 hc).elim (fun hc => H.head c hc (mem_separators hm)) fun hc => H.path c hc hm
  obtain ⟨h1, h2⟩ := cut_at hhp H.locator
  rw [recase, ← List.append_assoc, h1, h2, hf.append, List.append_assoc]

/-- Recasing the parts does not move the cuts. -/
theorem Parts.map {a b c : Text → Text} (ha : Recases a) (hb : Recases b) (hc : Recases c) :
    Parts (a h) (b p) (c l) where
  head d hd hm := H.head d (ha.mark_of_mem hd (.inl hm)) hm
  path d hd hm := H.path d (hb.mark_of_mem hd (.inl (mem_separators hm))) hm
  starts d hd := by
    cases p with
    | nil =>
      rw [hb.nil] at hd
      cases hd
    | cons e p =>
      have he := H.starts e rfl
      rw [hb.cons, hb.fixed e (.inl he)] at hd
      cases hd
      exact he
  locator d hd := by
    cases l with
    | nil =>
      rw [hc.nil] at hd
      cases hd
    | cons e l =>
      have he := H.locator e rfl
      rw [hc.cons, hc.fixed e (.inl (mem_separators he))] at hd
      cases hd
      exact he

end Parts

/-! ## Trimming -/

theorem trimEnd_white {w : Char} (hw : isWhite w = true) (t : Text) :
    trimEnd (t ++ [w]) = trimEnd t := by
  rw [trimEnd, List.reverse_append, List.reverse_singleton, List.singleton_append,
    List.dropWhile_cons_of_pos hw, trimEnd]

theorem trimEnd_black {w : Char} (hw : isWhite w = false) (t : Text) :
    trimEnd (t ++ [w]) = t ++ [w] := by
  rw [trimEnd, List.reverse_append, List.reverse_singleton, List.singleton_append,
    List.dropWhile_cons_of_neg (by rw [hw]; decide), List.reverse_cons, List.reverse_reverse]

/-- Trimming stops at the first character that is not blank. -/
theorem trimEnd_append {u : Text} (hu : ∃ c ∈ u, isWhite c = false) (s : Text) :
    trimEnd (s ++ u) = s ++ trimEnd u := by
  induction u using List.reverseRecOn with
  | nil =>
    obtain ⟨c, hc, -⟩ := hu
    cases hc
  | append_singleton u w ih =>
    rw [← List.append_assoc]
    by_cases hw : isWhite w = true
    · rw [trimEnd_white hw, trimEnd_white hw]
      obtain ⟨c, hc, hcw⟩ := hu
      rcases List.mem_append.1 hc with hc | hc
      · exact ih ⟨c, hc, hcw⟩
      · rw [List.mem_singleton.1 hc, hw] at hcw
        cases hcw
    · have hw := Bool.eq_false_iff.2 hw
      rw [trimEnd_black hw, trimEnd_black hw, List.append_assoc]

theorem trimStart_append {t : Text} (ht : ∀ c ∈ t.head?, isWhite c = false) (s : Text) :
    trimStart (s ++ t) = trimStart s ++ t := by
  induction s with
  | nil =>
    cases t with
    | nil => rfl
    | cons c t => exact List.dropWhile_cons_of_neg (by rw [ht c rfl]; decide)
  | cons w s ih =>
    by_cases hw : isWhite w = true
    · rw [List.cons_append, trimStart, List.dropWhile_cons_of_pos hw, trimStart,
        List.dropWhile_cons_of_pos hw]
      exact ih
    · rw [List.cons_append, trimStart, List.dropWhile_cons_of_neg hw, trimStart,
        List.dropWhile_cons_of_neg hw, List.cons_append]

section Recases
variable {f : Text → Text} (hf : Recases f)
include hf

theorem Recases.black {c d : Char} (hc : isWhite c = false) (hd : d ∈ f [c]) :
    isWhite d = false := by
  by_contra hw
  rw [hf.mark_mem hd (.inr (Bool.not_eq_false _ ▸ hw))] at hw
  exact hw hc

theorem Recases.trimStart (t : Text) : Text.trimStart (f t) = f (Text.trimStart t) := by
  induction t with
  | nil => rw [hf.nil]; exact hf.nil.symm
  | cons w t ih =>
    rw [hf.cons]
    by_cases hw : isWhite w = true
    · rw [hf.fixed w (.inr hw), List.singleton_append, Text.trimStart,
        List.dropWhile_cons_of_pos hw, Text.trimStart, List.dropWhile_cons_of_pos hw]
      exact ih
    · obtain ⟨d, u, hdu⟩ := List.exists_cons_of_ne_nil (hf.single_ne_nil w)
      have hd := hf.black (Bool.eq_false_iff.2 hw) (hdu ▸ List.mem_cons_self : d ∈ f [w])
      have hr : Text.trimStart (w :: t) = w :: t := List.dropWhile_cons_of_neg hw
      rw [hr, hf.cons w t, hdu, List.cons_append]
      exact List.dropWhile_cons_of_neg (by rw [hd]; decide)

theorem Recases.trimEnd (t : Text) : Text.trimEnd (f t) = f (Text.trimEnd t) := by
  induction t using List.reverseRecOn with
  | nil => rw [hf.nil]; exact hf.nil.symm
  | append_singleton t w ih =>
    rw [hf.append]
    by_cases hw : isWhite w = true
    · rw [hf.fixed w (.inr hw), trimEnd_white hw, trimEnd_white hw, ih]
    · have hw := Bool.eq_false_iff.2 hw
      obtain ⟨u, d, hud⟩ := (List.eq_nil_or_concat' (f [w])).resolve_left (hf.single_ne_nil w)
      have hd := hf.black hw (hud ▸ List.mem_append_right u (List.mem_singleton_self d))
      rw [trimEnd_black hw, hf.append, hud, ← List.append_assoc, trimEnd_black hd]

end Recases

theorem not_white_of_separator {c : Char} (h : c ∈ ['-', '/', ':', '#', '@']) :
    isWhite c = false := by
  have : ∀ c ∈ ['-', '/', ':', '#', '@'], isWhite c = false := by decide
  exact this c h

theorem trimEnd_initial (t : Text) : Text.trimEnd t <+: t := by
  have := List.dropWhile_suffix (p := isWhite) (l := t.reverse)
  rw [← List.reverse_prefix, List.reverse_reverse] at this
  exact this

theorem head?_of_initial {s t : Text} (h : s <+: t) : ∀ c ∈ s.head?, c ∈ t.head? := by
  obtain ⟨u, rfl⟩ := h
  intro c hc
  rw [List.head?_append, Option.mem_def.1 hc]
  rfl

theorem Parts.shrink {h p l h' p' l' : Text} (H : Parts h p l) (hh : h' ⊆ h) (hp : p' <+: p)
    (hl : l' <+: l) : Parts h' p' l' where
  head c hc := H.head c (hh hc)
  path c hc := H.path c (hp.subset hc)
  starts c hc := H.starts c (head?_of_initial hp c hc)
  locator c hc := H.locator c (head?_of_initial hl c hc)

/-- **Trimming works on the parts, and recasing does not disturb it.** -/
theorem Parts.trim {h p l : Text} (H : Parts h p l) : ∃ h' p' l', Parts h' p' l' ∧
    ∀ {a b c : Text → Text}, Recases a → Recases b → Recases c →
      Text.trim (a h ++ (b p ++ c l)) = a h' ++ (b p' ++ c l') := by
  have hstart : ∀ {a b c : Text → Text}, Recases a → Recases b → Recases c →
      Text.trim (a h ++ (b p ++ c l)) = Text.trimEnd (a (Text.trimStart h) ++ (b p ++ c l)) := by
    intro a b c ha hb hc
    rw [Text.trim,
      trimStart_append (fun d hd => not_white_of_separator ((H.map ha hb hc).tail d hd)),
      ha.trimStart]
  have hhead : Text.trimStart h ⊆ h := List.dropWhile_subset _
  -- the last part that is not empty loses its blanks
  by_cases hl : l = []
  · by_cases hp : p = []
    · refine ⟨Text.trimEnd (Text.trimStart h), [], [],
        H.shrink (fun c hc => hhead ((trimEnd_initial _).subset hc)) List.nil_prefix List.nil_prefix, ?_⟩
      intro a b c ha hb hc
      rw [hstart ha hb hc, hl, hp, hb.nil, hc.nil, List.append_nil, List.append_nil, List.append_nil,
        ha.trimEnd]
    · refine ⟨Text.trimStart h, Text.trimEnd p, [],
        H.shrink hhead (trimEnd_initial p) List.nil_prefix, ?_⟩
      intro a b c ha hb hc
      obtain ⟨e, p', rfl⟩ := List.exists_cons_of_ne_nil hp
      have he := H.starts e rfl
      have hblack : ∃ d ∈ b (e :: p'), isWhite d = false := by
        refine ⟨e, ?_, not_white_of_separator he⟩
        rw [hb.cons, hb.fixed e (.inl he)]
        exact List.mem_cons_self
      rw [hstart ha hb hc, hl, hc.nil, List.append_nil, trimEnd_append hblack, hb.trimEnd,
        List.append_nil]
  · refine ⟨Text.trimStart h, p, Text.trimEnd l, H.shrink hhead (List.prefix_refl p)
      (trimEnd_initial l), ?_⟩
    intro a b c ha hb hc
    obtain ⟨e, l', rfl⟩ := List.exists_cons_of_ne_nil hl
    have he := mem_separators (H.locator e rfl)
    have hblack : ∃ d ∈ c (e :: l'), isWhite d = false := by
      refine ⟨e, ?_, not_white_of_separator he⟩
      rw [hc.cons, hc.fixed e (.inl he)]
      exact List.mem_cons_self
    rw [hstart ha hb hc, ← List.append_assoc, trimEnd_append hblack, hc.trimEnd, List.append_assoc]

theorem head?_trimStart (t : Text) : ∀ c ∈ (Text.trimStart t).head?, isWhite c = false := by
  intro c hc
  have := List.head?_dropWhile_not isWhite t
  rw [show (t.dropWhile isWhite).head? = some c from hc] at this
  exact this

theorem trim_trim (t : Text) : Text.trim (Text.trim t) = Text.trim t := by
  refine trim_of_ends (fun c hc => head?_trimStart t c (head?_of_initial (trimEnd_initial _) c hc))
    fun c hc => head?_trimStart (Text.trimStart t).reverse c ?_
  rwa [Text.trim, Text.trimEnd, List.getLast?_reverse] at hc

/-! ## The steps of a kind -/

section Steps
variable (K : Casing)

/-- What a step does to the head. -/
def Normalise.onHead : Normalise → Text → Text
  | .trim => id
  | .lowercase | .lowercasePath => K.lower
  | .uppercasePrefix => K.upper

/-- What a step does to the path. -/
def Normalise.onPath : Normalise → Text → Text
  | .trim | .uppercasePrefix => id
  | .lowercase | .lowercasePath => K.lower

/-- What a step does to the locator. -/
def Normalise.onLocator : Normalise → Text → Text
  | .lowercase => K.lower
  | .trim | .uppercasePrefix | .lowercasePath => id

/-- A step that recases does so part by part. -/
theorem Normalise.apply_parts {K : Casing} (hK : K.Charwise) {s : Normalise} (hs : s ≠ .trim)
    {h p l : Text} (H : Parts h p l) :
    s.apply K (h ++ (p ++ l)) = s.onHead K h ++ (s.onPath K p ++ s.onLocator K l) := by
  cases s with
  | trim => exact absurd rfl hs
  | lowercase => exact (hK.lower.append _ _).trans (congrArg _ (hK.lower.append _ _))
  | uppercasePrefix => exact H.recase_head K.upper
  | lowercasePath => exact H.recase_path hK.lower

variable {K}

theorem Normalise.recasing_head {f : Text → Text} (hf : Recasing K f) (s : Normalise) :
    Recasing K (s.onHead K ∘ f) := by
  cases s with
  | trim => exact hf
  | lowercase => exact hf.lower
  | uppercasePrefix => exact hf.upper
  | lowercasePath => exact hf.lower

theorem Normalise.recasing_path {f : Text → Text} (hf : Recasing K f) (s : Normalise) :
    Recasing K (s.onPath K ∘ f) := by
  cases s with
  | trim => exact hf
  | lowercase => exact hf.lower
  | uppercasePrefix => exact hf
  | lowercasePath => exact hf.lower

theorem Normalise.recasing_locator {f : Text → Text} (hf : Recasing K f) (s : Normalise) :
    Recasing K (s.onLocator K ∘ f) := by
  cases s with
  | trim => exact hf
  | lowercase => exact hf.lower
  | uppercasePrefix => exact hf
  | lowercasePath => exact hf

variable (hK : K.Charwise)
include hK

/-- A step that recases may come before or after a trimming. -/
theorem Normalise.apply_trim {s : Normalise} (hs : s ≠ .trim) (t : Text) :
    s.apply K (Text.trim t) = Text.trim (s.apply K t) := by
  obtain ⟨h, p, l, H, rfl⟩ := exists_parts t
  obtain ⟨h', p', l', H', htrim⟩ := H.trim
  have hid := htrim Recases.id Recases.id Recases.id
  simp only [id_eq] at hid
  have hh := (s.recasing_head (K := K) .done).recases hK
  have hp := (s.recasing_path (K := K) .done).recases hK
  have hl := (s.recasing_locator (K := K) .done).recases hK
  rw [hid, Normalise.apply_parts hK hs H', Normalise.apply_parts hK hs H]
  exact (htrim hh hp hl).symm

/-- **The steps of a kind amount to a recasing of each part and at most one trimming.** -/
theorem normalise_eq (steps : List Normalise) : ∃ a b c : Text → Text,
    (Recasing K a ∧ Recasing K b ∧ Recasing K c) ∧ ∃ τ : Text → Text, (τ = id ∨ τ = Text.trim) ∧
      ∀ {h p l : Text}, Parts h p l →
        steps.foldl (Normalise.apply K) (h ++ (p ++ l)) = τ (a h ++ (b p ++ c l)) := by
  induction steps using List.reverseRecOn with
  | nil => exact ⟨id, id, id, ⟨.done, .done, .done⟩, id, .inl rfl, fun _ => rfl⟩
  | append_singleton steps s ih =>
    obtain ⟨a, b, c, ⟨ha, hb, hc⟩, τ, hτ, heq⟩ := ih
    by_cases hs : s = .trim
    · refine ⟨a, b, c, ⟨ha, hb, hc⟩, Text.trim, .inr rfl, fun H => ?_⟩
      rw [List.foldl_append, heq H, hs]
      rcases hτ with rfl | rfl
      · rfl
      · exact trim_trim _
    · refine ⟨s.onHead K ∘ a, s.onPath K ∘ b, s.onLocator K ∘ c,
        ⟨s.recasing_head ha, s.recasing_path hb, s.recasing_locator hc⟩, τ, hτ, fun H => ?_⟩
      have H' := H.map (ha.recases hK) (hb.recases hK) (hc.recases hK)
      rw [List.foldl_append, heq H, List.foldl_cons, List.foldl_nil]
      rcases hτ with rfl | rfl
      · exact Normalise.apply_parts hK hs H'
      · rw [Normalise.apply_trim hK hs, Normalise.apply_parts hK hs H']
        rfl

/-- **A kind's steps, taken twice, are its steps taken once.** -/
theorem normalise_twice (steps : List Normalise) (t : Text) :
    steps.foldl (Normalise.apply K) (steps.foldl (Normalise.apply K) t) =
      steps.foldl (Normalise.apply K) t := by
  obtain ⟨a, b, c, ⟨ha, hb, hc⟩, τ, hτ, heq⟩ := normalise_eq hK steps
  obtain ⟨h, p, l, H, rfl⟩ := exists_parts t
  have ra := ha.recases hK
  have rb := hb.recases hK
  have rc := hc.recases hK
  have H' := H.map ra rb rc
  have htwice : a (a h) ++ (b (b p) ++ c (c l)) = a h ++ (b p ++ c l) := by
    rw [ha.twice hK, hb.twice hK, hc.twice hK]
  rw [heq H]
  rcases hτ with rfl | rfl
  · rw [id_eq, heq H', id_eq, htwice]
  · obtain ⟨h', p', l', Ht, htrim⟩ := H'.trim
    have hid := htrim Recases.id Recases.id Recases.id
    simp only [id_eq] at hid
    rw [hid, heq Ht, ← htrim ra rb rc, htwice, trim_trim, hid]

end Steps

/-- **A canonical identifier is its own canonical form.** -/
theorem Registry.canonicalise_twice {R : Registry} (hR : R.casing.Charwise)
    {kind id canonical : Text} (h : R.canonicalise kind id = .ok canonical) :
    R.canonicalise kind canonical = .ok canonical := by
  unfold Registry.canonicalise at h ⊢
  split at h
  · cases h
  · next k hk =>
    dsimp only at h ⊢
    split_ifs at h with hp
    cases h
    rw [normalise_twice hR, if_pos hp]

/-! ## The ASCII letters -/

/-- The case tables on the letters of ASCII. -/
def asciiCasing : Casing := ⟨List.map Char.toLower, List.map Char.toUpper⟩

instance : DecidablePred Mark := fun c =>
  inferInstanceAs (Decidable (c ∈ ['-', '/', ':', '#', '@'] ∨ isWhite c = true))

/-- The alphabet that starts at a code. -/
def alphabet (first : ℕ) : List Char := (List.range' first 26).map Char.ofNat

theorem mem_alphabet {c : Char} {first : ℕ} (h : first ≤ c.toNat ∧ c.toNat < first + 26) :
    c ∈ alphabet first :=
  List.mem_map.2 ⟨c.toNat, List.mem_range'_1.2 h, Char.ofNat_toNat c⟩

theorem toLower_cases (c : Char) : c.toLower = c ∨ c ∈ alphabet 65 := by
  unfold Char.toLower
  split
  · next h => exact .inr (mem_alphabet ⟨h.1, Nat.lt_succ_of_le h.2⟩)
  · exact .inl rfl

theorem toUpper_cases (c : Char) : c.toUpper = c ∨ c ∈ alphabet 97 := by
  unfold Char.toUpper
  split
  · next h => exact .inr (mem_alphabet ⟨h.1, Nat.lt_succ_of_le h.2⟩)
  · exact .inl rfl

theorem upper_letters : ∀ c ∈ alphabet 65, c.toLower.toLower = c.toLower ∧ c.toLower.toUpper = c := by
  decide +kernel

theorem lower_letters : ∀ c ∈ alphabet 97,
    c.toUpper.toUpper = c.toUpper ∧ c.toUpper.toLower.toUpper = c.toUpper := by
  decide +kernel

/-- A table that moves one alphabet, to characters that are no marks, recases. -/
theorem recases_map {f : Char → Char} {first : ℕ} (hf : ∀ c, f c = c ∨ c ∈ alphabet first)
    (hl : ∀ c ∈ alphabet first, ¬ Mark c ∧ ¬ Mark (f c)) : Recases (List.map f) where
  append _ _ := List.map_append
  fixed c hc := by
    rcases hf c with h | h
    · rw [List.map_singleton, h]
    · exact absurd hc (hl c h).1
  kept c hc := by
    refine ⟨List.cons_ne_nil _ _, fun d hd => ?_⟩
    rw [List.mem_singleton.1 hd]
    rcases hf c with h | h
    · rwa [h]
    · exact (hl c h).2

theorem asciiCasing_charwise : asciiCasing.Charwise where
  lower := recases_map toLower_cases (by decide +kernel)
  upper := recases_map toUpper_cases (by decide +kernel)
  lower_lower t := by
    refine (List.map_map ..).trans (List.map_congr_left fun c _ => ?_)
    rcases toLower_cases c with h | h
    · rw [Function.comp_apply, h, h]
    · exact (upper_letters c h).1
  upper_upper t := by
    refine (List.map_map ..).trans (List.map_congr_left fun c _ => ?_)
    rcases toUpper_cases c with h | h
    · rw [Function.comp_apply, h, h]
    · exact (lower_letters c h).1
  upper_lower_upper t := by
    refine ((congrArg _ (List.map_map ..)).trans (List.map_map ..)).trans
      (List.map_congr_left fun c _ => ?_)
    rcases toUpper_cases c with h | h
    · rw [Function.comp_apply, Function.comp_apply, h]
      rcases toLower_cases c with h' | h'
      · rw [h', h]
      · exact (upper_letters c h').2
    · exact (lower_letters c h).2

/-- `^[A-Z]+-[0-9]+$`, trimmed and its prefix in uppercase. -/
def ticketKind : KindSpec where
  name := "ticket".toList
  pattern t := match splitOnce '-' t with
    | some (key, n) => key ≠ [] && key.all Char.isUpper && n ≠ [] && n.all isDigit
    | none => false
  normalise := [.trim, .uppercasePrefix]

theorem canonicalise_twice_ticket :
    (⟨asciiCasing, [ticketKind]⟩ : Registry).canonicalise "ticket".toList "  proj-42 ".toList =
        .ok "PROJ-42".toList ∧
      (⟨asciiCasing, [ticketKind]⟩ : Registry).canonicalise "ticket".toList "PROJ-42".toList =
        .ok "PROJ-42".toList := by
  have h : (⟨asciiCasing, [ticketKind]⟩ : Registry).canonicalise "ticket".toList
      "  proj-42 ".toList = .ok "PROJ-42".toList := by rfl
  exact ⟨h, Registry.canonicalise_twice (R := ⟨asciiCasing, [ticketKind]⟩) asciiCasing_charwise h⟩

end Yaam.Contract
