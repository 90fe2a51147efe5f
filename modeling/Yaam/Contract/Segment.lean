/-
  Identifiers as file names (`yaam-contract`, `entity.rs`).

  * `fromPathSegment` reads a file name back to the identifier;
  * `fromPathSegment_toPathSegment` and `toPathSegment_of_fromPathSegment`: the two are
    inverse, so that `toPathSegment_inj`;
  * `slash_notMem_toPathSegment`: a name is one component.
-/
import Yaam.Contract.Record

namespace Yaam.Contract

open Text

/-- Reads the rest of a path segment. -/
def fromSegmentChars (segment : Text) : Text → Except Error Text
  | [] => .ok []
  | ['~'] => .error (.invalid s!"path segment `{String.ofList segment}` ends in a dangling `~`")
  | '~' :: code :: t => match escapes.find? (·.2 = code) with
    | none => .error (.invalid
        s!"path segment `{String.ofList segment}` holds an unknown escape `~{code}`")
    | some (decoded, _) => (fromSegmentChars segment t).map (decoded :: ·)
  | c :: t =>
    if escapes.any (·.1 = c) then
      .error (.invalid s!"path segment `{String.ofList segment}` holds an unescaped `{c}`")
    else (fromSegmentChars segment t).map (c :: ·)

/-- Inverse of `toPathSegment`: accepts only what that can write. -/
def fromPathSegment (segment : Text) : Except Error Text := fromSegmentChars segment segment

theorem map_ok {ε α β : Type} {f : α → β} {x : Except ε α} {b : β} :
    x.map f = .ok b ↔ ∃ a, x = .ok a ∧ f a = b := by
  cases x <;> simp [Except.map]

theorem toPathSegment_nil : toPathSegment [] = [] := rfl

theorem toPathSegment_cons (c : Char) (id : Text) : toPathSegment (c :: id) =
    (match escapes.find? (·.1 = c) with
      | some (_, code) => ['~', code]
      | none => [c]) ++ toPathSegment id := rfl

/-- A character is escaped, or it is none of those the table has. -/
theorem escape_cases (c : Char) :
    (∃ code, (c, code) ∈ escapes ∧ escapes.find? (·.1 = c) = some (c, code) ∧
      escapes.find? (·.2 = code) = some (c, code)) ∨
    escapes.find? (·.1 = c) = none ∧ escapes.any (·.1 = c) = false := by
  by_cases h : ∃ code, (c, code) ∈ escapes
  · obtain ⟨code, h⟩ := h
    refine .inl ⟨code, h, ?_⟩
    simp only [escapes, List.mem_cons, Prod.mk.injEq, List.not_mem_nil, or_false] at h
    rcases h with ⟨rfl, rfl⟩ | ⟨rfl, rfl⟩ | ⟨rfl, rfl⟩ | ⟨rfl, rfl⟩ | ⟨rfl, rfl⟩ <;> decide
  · have hno : ∀ p ∈ escapes, p.1 ≠ c := by
      rintro ⟨a, code⟩ hp rfl
      exact h ⟨code, hp⟩
    refine .inr ⟨List.find?_eq_none.2 fun p hp => by simpa using hno p hp, ?_⟩
    rw [List.any_eq_false]
    exact fun p hp => by simpa using hno p hp

theorem fromSegmentChars_cons (segment : Text) {c : Char} {t : Text} (hc : c ≠ '~')
    (hany : escapes.any (·.1 = c) = false) :
    fromSegmentChars segment (c :: t) = (fromSegmentChars segment t).map (c :: ·) := by
  rw [fromSegmentChars.eq_4 _ _ _ (fun h _ => hc h) fun _ _ h _ => hc h, hany]
  rfl

theorem fromSegmentChars_toPathSegment (segment id : Text) :
    fromSegmentChars segment (toPathSegment id) = .ok id := by
  induction id with
  | nil => rfl
  | cons c id ih =>
    rw [toPathSegment_cons]
    rcases escape_cases c with ⟨code, -, hfind, hcode⟩ | ⟨hfind, hany⟩
    · rw [hfind]
      simp only [List.cons_append, List.nil_append, fromSegmentChars, hcode, ih]
      rfl
    · rw [hfind]
      have hc : c ≠ '~' := by
        rintro rfl
        exact absurd hany (by decide)
      simp only [List.cons_append, List.nil_append]
      rw [fromSegmentChars_cons segment hc hany, ih]
      rfl

/-- **An identifier is read back from its file name.** -/
theorem fromPathSegment_toPathSegment (id : Text) : fromPathSegment (toPathSegment id) = .ok id :=
  fromSegmentChars_toPathSegment _ id

theorem toPathSegment_of_fromSegmentChars (segment : Text) {t id : Text}
    (h : fromSegmentChars segment t = .ok id) : toPathSegment id = t := by
  induction t using fromSegmentChars.induct generalizing id with
  | case1 =>
    obtain rfl := Except.ok.inj h
    rfl
  | case2 => cases h
  | case3 code t hnone =>
    rw [fromSegmentChars, hnone] at h
    cases h
  | case4 code t decoded code' hsome ih =>
    rw [fromSegmentChars, hsome] at h
    obtain ⟨id', hid, rfl⟩ := map_ok.1 h
    have hcode : code' = code := by simpa using List.find?_some hsome
    have hmem := List.mem_of_find?_eq_some hsome
    rw [toPathSegment_cons, ih hid]
    rcases escape_cases decoded with ⟨code'', hmem', hfind, -⟩ | ⟨hfind, hany⟩
    · obtain rfl : code'' = code' := by
        simp only [escapes, List.mem_cons, Prod.mk.injEq, List.not_mem_nil, or_false] at hmem hmem'
        grind
      rw [hfind, hcode]
      rfl
    · have := List.find?_eq_none.1 hfind _ hmem
      simp at this
  | case5 c t hlast hcode hany =>
    rw [fromSegmentChars.eq_4 _ _ _ hlast hcode, if_pos hany] at h
    cases h
  | case6 c t hlast hcode hany ih =>
    rw [fromSegmentChars.eq_4 _ _ _ hlast hcode, if_neg hany] at h
    obtain ⟨id', hid, rfl⟩ := map_ok.1 h
    rcases escape_cases c with ⟨code, hmem, -, -⟩ | ⟨hfind, -⟩
    · exact absurd (List.any_eq_true.2 ⟨_, hmem, by simp⟩) hany
    · rw [toPathSegment_cons, hfind, ih hid]
      rfl

/-- **A file name that is read stands for the identifier it is written for.** -/
theorem toPathSegment_of_fromPathSegment {segment id : Text} (h : fromPathSegment segment = .ok id) :
    toPathSegment id = segment := toPathSegment_of_fromSegmentChars segment h

theorem toPathSegment_inj {id id' : Text} (h : toPathSegment id = toPathSegment id') : id = id' := by
  have := fromPathSegment_toPathSegment id
  rw [h, fromPathSegment_toPathSegment] at this
  exact (Except.ok.inj this).symm

/-- A file name is one component. -/
theorem slash_notMem_toPathSegment (id : Text) : '/' ∉ toPathSegment id := by
  induction id with
  | nil => simp [toPathSegment_nil]
  | cons c id ih =>
    rw [toPathSegment_cons, List.mem_append, not_or]
    refine ⟨?_, ih⟩
    rcases escape_cases c with ⟨code, hmem, hfind, -⟩ | ⟨hfind, hany⟩
    · rw [hfind]
      simp only [escapes, List.mem_cons, Prod.mk.injEq, List.not_mem_nil, or_false] at hmem
      rcases hmem with ⟨-, rfl⟩ | ⟨-, rfl⟩ | ⟨-, rfl⟩ | ⟨-, rfl⟩ | ⟨-, rfl⟩ <;> simp
    · rw [hfind, List.mem_singleton]
      rintro rfl
      exact absurd hany (by decide)

end Yaam.Contract
