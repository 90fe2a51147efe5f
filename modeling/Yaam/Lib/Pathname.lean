/-
  Path names: the text of a path, how texts are joined, and where a name leads.

  * `join` is Rust's `Path::join`, which starts again at an absolute name;
  * `resolve` walks a name: blank and `.` components stay, `..` climbs;
  * `Plain`: a component that names an entry of its directory;
  * `splitOn_join` and `resolve_join`: what joining does to the components, and where
    a joined name leads.
-/
import Yaam.Lib.Tree

namespace Yaam.Text

/-- A name that starts at the root. -/
def Absolute (name : Text) : Prop := name.head? = some '/'

instance (name : Text) : Decidable (Absolute name) := inferInstanceAs (Decidable (_ = _))

/-- `Path::join`. -/
def join (base name : Text) : Text :=
  if Absolute name then name
  else if base = [] ∨ base.getLast? = some '/' then base ++ name
  else base ++ '/' :: name

/-- A component that names an entry of its directory. -/
def Plain (name : Text) : Prop := name ≠ [] ∧ name ≠ ".".toList ∧ name ≠ "..".toList ∧ '/' ∉ name

instance (name : Text) : Decidable (Plain name) := inferInstanceAs (Decidable (_ ∧ _))

/-- One component of a path, as it is walked. -/
def stepInto (dir : Path) (name : Text) : Path :=
  if name = [] ∨ name = ".".toList then dir
  else if name = "..".toList then dir.dropLast
  else dir ++ [name]

/-- Where a relative name leads from a directory. -/
def walk (dir : Path) (name : Text) : Path := (splitOn '/' name).foldl stepInto dir

/-- Where an absolute name leads. -/
def resolve (name : Text) : Path := walk [] name

theorem Plain.not_absolute {name : Text} (h : Plain name) : ¬ Absolute name := by
  rintro ha
  cases name with
  | nil => cases ha
  | cons c t =>
    obtain rfl := Option.some.inj ha
    exact h.2.2.2 (by simp)

theorem Plain.stepInto {name : Text} (h : Plain name) (dir : Path) :
    stepInto dir name = dir ++ [name] := by
  rw [Text.stepInto, if_neg (not_or.2 ⟨h.1, h.2.1⟩), if_neg h.2.2.1]

theorem Plain.walk {name : Text} (h : Plain name) (dir : Path) : walk dir name = dir ++ [name] := by
  rw [Text.walk, splitOn_of_notMem h.2.2.2]
  exact h.stepInto dir

/-- A directory's own name, as joining leaves it. -/
def Whole (base : Text) : Prop := base ≠ [] ∧ base.getLast? ≠ some '/'

theorem Plain.whole {name : Text} (h : Plain name) : Whole name := by
  refine ⟨h.1, fun hl => h.2.2.2 ?_⟩
  exact List.mem_of_getLast? hl

theorem join_of_whole {base name : Text} (hb : Whole base) (hn : ¬ Absolute name) :
    join base name = base ++ '/' :: name := by
  rw [join, if_neg hn, if_neg (not_or.2 hb)]

theorem whole_join {base name : Text} (hb : Whole base) (hn : Plain name) :
    Whole (join base name) := by
  rw [join_of_whole hb hn.not_absolute]
  refine ⟨by simp, fun hl => ?_⟩
  have hmem : '/' ∈ name := by
    rcases List.eq_nil_or_concat name with rfl | ⟨t, c, rfl⟩
    · exact absurd rfl hn.1
    · rw [show base ++ '/' :: t.concat c = (base ++ '/' :: t) ++ [c] by simp, List.getLast?_concat] at hl
      simp [Option.some.inj hl]
  exact hn.2.2.2 hmem

theorem joinWith_splitOn (sep : Char) (t : Text) : joinWith sep (splitOn sep t) = t := by
  induction t with
  | nil => rfl
  | cons c t ih =>
    obtain ⟨l, ls, hls⟩ := List.exists_cons_of_ne_nil (splitOn_ne_nil sep t)
    rw [hls] at ih
    by_cases hc : c = sep
    · rw [splitOn_cons, if_pos hc, hls, joinWith_cons_cons, ih, hc]
      rfl
    · rw [splitOn_cons, if_neg hc, hls, ← ih]
      cases ls <;> rfl

/-- A plain component is added to the components. -/
theorem splitOn_join {base name : Text} (hb : Whole base) (hn : Plain name) :
    splitOn '/' (join base name) = splitOn '/' base ++ [name] := by
  rw [join_of_whole hb hn.not_absolute, splitOn_append, splitOn_of_notMem hn.2.2.2]

theorem absolute_append {base : Text} (hb : base ≠ []) (t : Text) :
    Absolute (base ++ t) ↔ Absolute base := by
  cases base with
  | nil => exact absurd rfl hb
  | cons c base => exact Iff.rfl

/-- Joining a relative name leads there from the base. -/
theorem resolve_join {base name : Text} (hb : base ≠ []) (hn : ¬ Absolute name) :
    resolve (join base name) = walk (resolve base) name := by
  rw [join, if_neg hn]
  split_ifs with h
  · obtain ⟨base, rfl⟩ : ∃ t, base = t ++ ['/'] := by
      rcases List.eq_nil_or_concat base with rfl | ⟨t, c, rfl⟩
      · exact absurd rfl hb
      · have : c = '/' := by simpa using h
        exact ⟨t, by rw [this, List.concat_eq_append]⟩
    rw [List.append_assoc, List.singleton_append, resolve, walk, walk, resolve, walk, splitOn_append,
      splitOn_append, List.foldl_append, List.foldl_append]
    rfl
  · rw [resolve, walk, walk, resolve, walk, splitOn_append, List.foldl_append]

/-- A base followed by an absolute name is that name. -/
theorem join_absolute {base name : Text} (hn : Absolute name) : join base name = name := by
  rw [join, if_pos hn]

/-- The name of a directory that is given by its components. -/
def rooted (dir : Path) : Text := '/' :: joinWith '/' dir

theorem rooted_ne_nil (dir : Path) : rooted dir ≠ [] := List.cons_ne_nil _ _

theorem foldl_stepInto {names : List Text} (h : ∀ name ∈ names, Plain name) (dir : Path) :
    names.foldl stepInto dir = dir ++ names := by
  induction names generalizing dir with
  | nil => simp
  | cons name names ih =>
    rw [List.foldl_cons, (h name (by simp)).stepInto, ih fun x hx => h x (by simp [hx])]
    simp

theorem resolve_rooted {dir : Path} (h : ∀ name ∈ dir, Plain name) : resolve (rooted dir) = dir := by
  have hsplit : splitOn '/' (rooted dir) = [] :: splitOn '/' (joinWith '/' dir) :=
    splitOn_append_cons (List.not_mem_nil) _
  rw [resolve, walk, hsplit, List.foldl_cons]
  by_cases hd : dir = []
  · subst hd
    rfl
  · rw [splitOn_joinWith hd fun l hl => (h l hl).2.2.2]
    exact foldl_stepInto h _

end Yaam.Text
