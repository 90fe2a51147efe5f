/-
  What the shares of a data key give away (`yaam-crypto`, `seal.rs`).

  * `combine_split`: the shares of a root key combine to it, whatever was drawn for them;
  * `others` are the shares that are left without one subject's, `shift` the draws under
    which they are the same for another root key;
  * `shares_all_or_nothing`: all shares give the root key, and all but one are spread
    alike for every root key.
-/
import Mathlib.Logic.Equiv.Basic
import Yaam.Crypto.Unseal

namespace Yaam.Crypto

open Contract

/-! ## Exclusive or -/

theorem xor_comm (a b : Bytes) : xor a b = xor b a :=
  List.zipWith_comm_of_comm UInt8.xor_comm

theorem xor_assoc : ∀ a b c : Bytes, xor (xor a b) c = xor a (xor b c)
  | [], _, _ => by simp [xor]
  | _ :: _, [], _ => by simp [xor]
  | _ :: _, _ :: _, [] => by simp [xor]
  | x :: a, y :: b, z :: c => by
    have ih := xor_assoc a b c
    simp only [xor, List.zipWith_cons_cons] at ih ⊢
    rw [ih, UInt8.xor_assoc]

theorem xor_right_comm (a b c : Bytes) : xor (xor a b) c = xor (xor a c) b := by
  rw [xor_assoc, xor_comm b, ← xor_assoc]

/-- What is added twice is gone. -/
theorem xor_xor_cancel : ∀ {a b : Bytes}, a.length = b.length → xor (xor a b) b = a
  | [], [], _ => rfl
  | [], _ :: _, h => by simp at h
  | _ :: _, [], h => by simp at h
  | x :: a, y :: b, h => by
    have ih := xor_xor_cancel (a := a) (b := b) (by simpa using h)
    simp only [xor, List.zipWith_cons_cons] at ih ⊢
    rw [ih, UInt8.xor_assoc, UInt8.xor_self, UInt8.xor_zero]

theorem zero_xor {a : Bytes} (h : a.length = 32) : xor (List.replicate 32 0) a = a := by
  have hzip : ∀ {n : ℕ} {b : Bytes}, b.length = n → xor (List.replicate n 0) b = b := by
    intro n b
    induction b generalizing n with
    | nil => simp [xor]
    | cons x b ih =>
      rintro rfl
      have ih := ih rfl
      simp only [xor] at ih
      simp [xor, List.replicate_succ, ih]
  exact hzip h

/-- The difference of two keys. -/
def Key.xor (k l : Key) : Key := ⟨Crypto.xor k.bytes l.bytes, length_xor k.length l.length⟩

theorem Key.xor_xor_cancel (k l : Key) : (k.xor l).xor l = k :=
  Key.ext_iff_bytes.1 (Crypto.xor_xor_cancel (k.length.trans l.length.symm))

theorem split_cons_cons (pad : SubjectHash → Key) (r : Bytes) (s s' : SubjectHash)
    (ss : List SubjectHash) : split pad r (s :: s' :: ss) =
      ⟨s, (pad s).bytes⟩ :: split pad (xor r (pad s).bytes) (s' :: ss) := rfl

/-! ## All shares -/

theorem foldl_split (pad : SubjectHash → Key) : ∀ {acc r : Bytes} {ss : List SubjectHash},
    acc.length = 32 → r.length = 32 → ss ≠ [] →
      (split pad r ss).foldl (fun acc s => xor acc s.bytes) acc = xor acc r
  | _, _, [], _, _, h => absurd rfl h
  | _, _, [_], _, _, _ => rfl
  | acc, r, s :: s' :: ss, hacc, hr, _ => by
    have hs : (xor r (pad s).bytes).length = 32 := length_xor hr (pad s).length
    rw [split_cons_cons, List.foldl_cons,
      foldl_split pad (length_xor hacc (pad s).length) hs (List.cons_ne_nil _ _), xor_assoc,
      xor_comm (pad s).bytes, xor_xor_cancel (hr.trans (pad s).length.symm)]

/-- **The shares of a root key combine to it.** -/
theorem combine_split (pad : SubjectHash → Key) (root : Key) {ss : List SubjectHash} (hne : ss ≠ []) :
    (split pad root.bytes ss).foldl (fun acc s => xor acc s.bytes) (List.replicate 32 0) =
      root.bytes := by
  rw [foldl_split pad (by simp) root.length hne, zero_xor root.length]

/-! ## All shares but one -/

/-- The shares that are left when one subject's is withheld. -/
def others (s : SubjectHash) (shares : List BareShare) : List BareShare :=
  shares.filter fun b => b.subject ≠ s

/-- What is drawn, with one subject's share moved by a difference. -/
def shift (s : SubjectHash) (d : Key) (pad : SubjectHash → Key) : SubjectHash → Key :=
  Function.update pad s ((pad s).xor d)

theorem shift_involutive (s : SubjectHash) (d : Key) : Function.Involutive (shift s d) := by
  intro pad
  ext i
  by_cases hi : i = s
  · subst hi
    simp [shift, Key.xor_xor_cancel]
  · simp [shift, hi]

theorem shift_of_ne {s i : SubjectHash} (h : i ≠ s) (d : Key) (pad : SubjectHash → Key) :
    shift s d pad i = pad i := Function.update_of_ne h _ _

theorem split_congr {pad pad' : SubjectHash → Key} : ∀ {r : Bytes} {ss : List SubjectHash},
    (∀ s ∈ ss, pad s = pad' s) → split pad r ss = split pad' r ss
  | _, [], _ => rfl
  | _, [_], _ => rfl
  | r, s :: s' :: ss, h => by
    rw [split_cons_cons, split_cons_cons, h s List.mem_cons_self,
      split_congr fun i hi => h i (List.mem_cons_of_mem _ hi)]

/-- Moving the withheld share by the difference of two root keys hides which was split. -/
theorem others_split_shift {s : SubjectHash} {d : Key} (pad : SubjectHash → Key) :
    ∀ {r r' : Bytes} {ss : List SubjectHash}, xor r' d.bytes = r → ss.Nodup → s ∈ ss →
      others s (split (shift s d pad) r' ss) = others s (split pad r ss)
  | _, _, [], _, _, hs => absurd hs List.not_mem_nil
  | _, _, [i], _, _, hs => by
    obtain rfl := List.mem_singleton.1 hs
    simp [others, split]
  | r, r', i :: i' :: ss, hr, hnd, hs => by
    obtain ⟨hi, hnd⟩ := List.nodup_cons.1 hnd
    rw [split_cons_cons, split_cons_cons]
    by_cases his : i = s
    · subst his
      have hrest : xor r' (shift i d pad i).bytes = xor r (pad i).bytes := by
        rw [shift, Function.update_self, Key.xor, ← hr, xor_right_comm, xor_assoc]
      rw [hrest, split_congr fun j hj => shift_of_ne (ne_of_mem_of_not_mem hj hi) d pad]
      simp [others]
    · have hs' : s ∈ i' :: ss := (List.mem_cons.1 hs).resolve_left (Ne.symm his)
      have hrest : xor (xor r' (pad i).bytes) d.bytes = xor r (pad i).bytes := by
        rw [xor_right_comm, hr]
      have ih := others_split_shift (s := s) pad hrest hnd hs'
      rw [shift_of_ne his]
      simp only [others, List.filter_cons] at ih ⊢
      rw [ih]

/-- **Every share is needed**: together the shares give the root key, and without one of
    them what is left is the same, draw for draw, for any other root key. -/
theorem shares_all_or_nothing {ss : List SubjectHash} (hne : ss ≠ []) (hnd : ss.Nodup) (root : Key) :
    (∀ pad, (split pad root.bytes ss).foldl (fun acc s => xor acc s.bytes) (List.replicate 32 0) =
      root.bytes) ∧
    ∀ s ∈ ss, ∀ root' : Key, ∃ e : Equiv.Perm (SubjectHash → Key), ∀ pad,
      others s (split (e pad) root'.bytes ss) = others s (split pad root.bytes ss) := by
  refine ⟨fun pad => combine_split pad root hne, fun s hs root' => ?_⟩
  refine ⟨(shift_involutive s (root.xor root')).toPerm, fun pad => ?_⟩
  refine others_split_shift pad ?_ hnd hs
  rw [xor_comm]
  exact xor_xor_cancel (root.length.trans root'.length.symm)

theorem shares_all_or_nothing_pair : ∃ e : Equiv.Perm (SubjectHash → Key), ∀ pad,
    others (pair.head (by decide)) (split (e pad) (List.replicate 32 1) pair) =
      others (pair.head (by decide)) (split pad zeroKey.bytes pair) :=
  (shares_all_or_nothing (by decide) (by decide) zeroKey).2 _ (List.head_mem _)
    ⟨List.replicate 32 1, List.length_replicate⟩

end Yaam.Crypto
