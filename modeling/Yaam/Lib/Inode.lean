/-
  Files whose names are kept apart from their contents, as processes see them that
  share a directory: an open file is written through its number, whatever name the
  number has by then.

  * `Disk` gives names to numbered files; `create`, `writeAt` and `rename` are what a
    process does to one;
  * `Disk.Wf`: a file has one name at most, and numbers to come are unused;
  * `read_create`, `read_writeAt` and `read_rename`: what each does to what the names
    read.
-/
import Yaam.Lib.Utf8
import Mathlib.Logic.Function.Basic

namespace Yaam

/-- A directory of named files, and what every numbered file holds. -/
structure Disk (ν : Type) where
  names : ν → Option ℕ
  content : ℕ → Bytes
  /-- The number the next new file gets. -/
  fresh : ℕ

namespace Disk

variable {ν : Type}

/-- What a name reads. -/
def read (d : Disk ν) (n : ν) : Option Bytes := (d.names n).map d.content

section
variable [DecidableEq ν]

/-- Opens a file for writing, truncated, making it when there is none: its number. -/
def create (d : Disk ν) (n : ν) : ℕ × Disk ν :=
  match d.names n with
  | some ino => (ino, { d with content := Function.update d.content ino [] })
  | none =>
    (d.fresh, ⟨Function.update d.names n (some d.fresh), Function.update d.content d.fresh [],
      d.fresh + 1⟩)

/-- Gives a file another name, which any other file under it loses; there must be such a
    file. -/
def rename (d : Disk ν) (a b : ν) : Option (Disk ν) :=
  (d.names a).map fun ino =>
    { d with names := Function.update (Function.update d.names a none) b (some ino) }

end

/-- Bytes with a stretch of them overwritten; a gap before the stretch reads as zeros. -/
def overwrite (old : Bytes) (off : ℕ) (bs : Bytes) : Bytes :=
  old.take off ++ List.replicate (off - old.length) 0 ++ bs ++ old.drop (off + bs.length)

/-- Writes through an open file. -/
def writeAt (d : Disk ν) (ino off : ℕ) (bs : Bytes) : Disk ν :=
  { d with content := Function.update d.content ino (overwrite (d.content ino) off bs) }

/-- No file has two names, and no file has a number to come. -/
structure Wf (d : Disk ν) : Prop where
  single : ∀ a b ino, d.names a = some ino → d.names b = some ino → a = b
  bound : ∀ a ino, d.names a = some ino → ino < d.fresh

variable {d : Disk ν} {a b n : ν} {ino : ℕ}

theorem read_eq_some {bs : Bytes} :
    d.read n = some bs ↔ ∃ ino, d.names n = some ino ∧ d.content ino = bs := by
  simp [read]

/-! ## Writing -/

theorem Wf.writeAt (hd : d.Wf) (ino off : ℕ) (bs : Bytes) : (d.writeAt ino off bs).Wf :=
  ⟨hd.single, hd.bound⟩

/-- Writing to a file leaves what the names of others read. -/
theorem read_writeAt (h : d.names a ≠ some ino) (off : ℕ) (bs : Bytes) :
    (d.writeAt ino off bs).read a = d.read a := by
  show (d.names a).map _ = (d.names a).map _
  cases ha : d.names a with
  | none => rfl
  | some m =>
    have hne : m ≠ ino := by
      rintro rfl
      exact h ha
    simp only [Option.map_some, Disk.writeAt, Function.update_of_ne hne]

variable [DecidableEq ν]

/-! ## Opening -/

theorem names_create : (d.create n).2.names n = some (d.create n).1 := by
  unfold create
  cases h : d.names n with
  | some ino => exact h
  | none => simp

theorem names_create_of_ne (h : a ≠ n) : (d.create n).2.names a = d.names a := by
  unfold create
  cases d.names n with
  | some ino => rfl
  | none => exact Function.update_of_ne h _ _

theorem content_create : (d.create n).2.content = Function.update d.content (d.create n).1 [] := by
  unfold create
  cases d.names n <;> rfl

/-- The file opened is no other name's. -/
theorem Wf.create_ne (hd : d.Wf) (h : a ≠ n) : d.names a ≠ some (d.create n).1 := by
  intro ha
  unfold create at ha
  cases hn : d.names n with
  | some ino =>
    rw [hn] at ha
    exact h (hd.single a n ino ha hn)
  | none =>
    rw [hn] at ha
    exact absurd (hd.bound a _ ha) (lt_irrefl _)

theorem Wf.create (hd : d.Wf) (n : ν) : (d.create n).2.Wf := by
  unfold Disk.create
  cases hn : d.names n with
  | some ino => exact ⟨hd.single, hd.bound⟩
  | none =>
    constructor
    · intro a b ino ha hb
      by_cases han : a = n <;> by_cases hbn : b = n
      · rw [han, hbn]
      · subst han
        simp only [Function.update_self, Function.update_of_ne hbn, Option.some.injEq] at ha hb
        exact absurd (hd.bound b ino hb) (by omega)
      · subst hbn
        simp only [Function.update_self, Function.update_of_ne han, Option.some.injEq] at ha hb
        exact absurd (hd.bound a ino ha) (by omega)
      · simp only [Function.update_of_ne han, Function.update_of_ne hbn] at ha hb
        exact hd.single a b ino ha hb
    · intro a ino ha
      by_cases han : a = n
      · subst han
        simp only [Function.update_self, Option.some.injEq] at ha
        simp only
        omega
      · simp only [Function.update_of_ne han] at ha
        have := hd.bound a ino ha
        simp only
        omega

/-- Opening one name leaves what the others read. -/
theorem Wf.read_create (hd : d.Wf) (h : a ≠ n) : (d.create n).2.read a = d.read a := by
  rw [read, names_create_of_ne h, read]
  cases ha : d.names a with
  | none => rfl
  | some ino =>
    have hne : ino ≠ (d.create n).1 := by
      rintro rfl
      exact hd.create_ne h ha
    simp only [Option.map_some, content_create, Function.update_of_ne hne]

/-! ## Renaming -/

theorem rename_eq_some {d' : Disk ν} (h : d.rename a b = some d') :
    ∃ ino, d.names a = some ino ∧ d'.names b = some ino ∧ d'.content = d.content ∧
      d'.read b = some (d.content ino) := by
  unfold rename at h
  cases ha : d.names a with
  | none => simp [ha] at h
  | some ino =>
    rw [ha] at h
    obtain rfl := Option.some.inj h
    exact ⟨ino, rfl, by simp, rfl, by simp [read]⟩

theorem Wf.rename (hd : d.Wf) {d' : Disk ν} (h : d.rename a b = some d') (hab : a ≠ b) : d'.Wf := by
  unfold Disk.rename at h
  cases ha : d.names a with
  | none => simp [ha] at h
  | some ino =>
    rw [ha] at h
    obtain rfl := Option.some.inj h
    -- under the new names, a name other than the target is an old one, and not the source
    have hold : ∀ c m, c ≠ b → Function.update (Function.update d.names a none) b (some ino) c =
        some m → d.names c = some m ∧ c ≠ a := by
      intro c m hcb hc
      rw [Function.update_of_ne hcb] at hc
      by_cases hca : c = a
      · subst hca
        simp at hc
      · rw [Function.update_of_ne hca] at hc
        exact ⟨hc, hca⟩
    constructor
    · intro c e m hc he
      by_cases hcb : c = b <;> by_cases heb : e = b
      · rw [hcb, heb]
      · subst hcb
        simp only [Function.update_self, Option.some.injEq] at hc
        subst hc
        obtain ⟨he, hea⟩ := hold e _ heb he
        exact absurd (hd.single e a _ he ha) hea
      · subst heb
        simp only [Function.update_self, Option.some.injEq] at he
        subst he
        obtain ⟨hc, hca⟩ := hold c _ hcb hc
        exact absurd (hd.single c a _ hc ha) hca
      · exact hd.single c e m (hold c m hcb hc).1 (hold e m heb he).1
    · intro c m hc
      by_cases hcb : c = b
      · subst hcb
        simp only [Function.update_self, Option.some.injEq] at hc
        exact hc ▸ hd.bound a ino ha
      · exact hd.bound c m (hold c m hcb hc).1

end Disk

end Yaam
