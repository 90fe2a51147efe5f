/-
  UTF-8: texts as byte strings.

  * `encode` writes a text, `decode` reads one and accepts exactly the encodings
    (`decode_eq_some_iff`);
  * `decode_encode_append`: an encoded text in front does not disturb the rest;
  * `decode_append_ascii`: what does not decode is not mended by a byte that
    starts a character after it.
-/
import Yaam.Lib.Text

namespace Yaam

/-- A byte string. -/
abbrev Bytes := List UInt8

namespace Utf8

/-- The bytes of a text. -/
def encode (t : Text) : Bytes := t.flatMap String.utf8EncodeChar

/-- The code point a byte string spells, if it has the length of one character. -/
def codePoint : Bytes → Option ℕ
  | [a] => some a.toNat
  | [a, b] => some ((a.toNat - 0xC0) * 64 + (b.toNat - 0x80))
  | [a, b, c] => some (((a.toNat - 0xE0) * 64 + (b.toNat - 0x80)) * 64 + (c.toNat - 0x80))
  | [a, b, c, d] =>
    some ((((a.toNat - 0xF0) * 64 + (b.toNat - 0x80)) * 64 + (c.toNat - 0x80)) * 64 +
      (d.toNat - 0x80))
  | _ => none

/-- The character a byte string is the encoding of. -/
def charOf (p : Bytes) : Option Char :=
  ((codePoint p).map Char.ofNat).filter fun c => String.utf8EncodeChar c = p

/-- Reads characters off a byte string; `p` holds the bytes of the one begun. -/
def decodeFrom (p : Bytes) : Bytes → Option Text
  | [] => if p = [] then some [] else none
  | b :: bs => match charOf (p ++ [b]) with
    | some c => (decodeFrom [] bs).map (c :: ·)
    | none => if p.length < 3 then decodeFrom (p ++ [b]) bs else none

/-- The text a byte string encodes. -/
def decode (bs : Bytes) : Option Text := decodeFrom [] bs

/-- Whether a second byte fits a first one of three or four. -/
def secondFits (a b : UInt8) : Bool :=
  0xE0 ≤ a.toNat && a.toNat ≤ 0xF4 && 0x80 ≤ b.toNat && b.toNat ≤ 0xBF &&
    !(a == 0xE0 && b.toNat < 0xA0) && !(a == 0xED && 0xA0 ≤ b.toNat) &&
    !(a == 0xF0 && b.toNat < 0x90) && !(a == 0xF4 && 0x90 ≤ b.toNat)

/-- Whether bytes are the start of a character that more bytes would complete. -/
def isBegun : Bytes → Bool
  | [a] => 0xC2 ≤ a.toNat && a.toNat ≤ 0xF4
  | [a, b] => secondFits a b
  | [a, b, c] => 0xF0 ≤ a.toNat && secondFits a b && 0x80 ≤ c.toNat && c.toNat ≤ 0xBF
  | _ => false

/-- How many first bytes encode a text. -/
def validUpTo (bs : Bytes) : ℕ :=
  ((List.range (bs.length + 1)).reverse.find? fun n => (decode (bs.take n)).isSome).getD 0

/-- Reads characters off a byte string, with a replacement character for each run of bytes
    that is no start of one; `p` holds the bytes of the one begun. -/
def decodeLossyFrom (p : Bytes) : Bytes → Text
  | [] => if p = [] then [] else ['\uFFFD']
  | b :: bs => match charOf (p ++ [b]) with
    | some c => c :: decodeLossyFrom [] bs
    | none =>
      if isBegun (p ++ [b]) then decodeLossyFrom (p ++ [b]) bs
      else if p = [] then '\uFFFD' :: decodeLossyFrom [] bs
      -- the run ends before this byte, which may start another
      else '\uFFFD' :: match charOf [b] with
        | some c => c :: decodeLossyFrom [] bs
        | none => if isBegun [b] then decodeLossyFrom [b] bs else '\uFFFD' :: decodeLossyFrom [] bs

/-- `from_utf8_lossy`. -/
def decodeLossy (bs : Bytes) : Text := decodeLossyFrom [] bs

/-- How `FromUtf8Error` reads. -/
def errorText (bs : Bytes) : String :=
  let index := validUpTo bs
  let rest := bs.drop index
  if isBegun rest then s!"incomplete utf-8 byte sequence from index {index}"
  else
    let bad := if isBegun (rest.take 3) then 3 else if isBegun (rest.take 2) then 2 else 1
    s!"invalid utf-8 sequence of {bad} bytes from index {index}"

@[simp] theorem encode_nil : encode [] = [] := rfl

theorem encode_cons (c : Char) (t : Text) :
    encode (c :: t) = String.utf8EncodeChar c ++ encode t := rfl

theorem encode_append (t u : Text) : encode (t ++ u) = encode t ++ encode u := by
  simp [encode]

/-! ## One character -/

/-- The width a first byte announces. -/
def width (b : UInt8) : ℕ :=
  if b.toNat < 0x80 then 1 else if b.toNat < 0xE0 then 2 else if b.toNat < 0xF0 then 3 else 4

/-- A character's bytes: its width stands in the first, the others are
    continuations. -/
theorem utf8EncodeChar_shape (c : Char) :
    ∃ a as, String.utf8EncodeChar c = a :: as ∧ as.length + 1 = width a ∧ as.length ≤ 3 ∧
      (∀ b ∈ as, 0x80 ≤ b.toNat) ∧ codePoint (a :: as) = some c.toNat := by
  have hv : c.toNat < 0x110000 := by
    have := c.valid
    rcases this with h | ⟨-, h⟩
    · exact lt_trans h (by decide)
    · exact h
  have hn : c.val.toNat = c.toNat := rfl
  unfold String.utf8EncodeChar
  simp only [hn]
  split_ifs with h1 h2 h3
  · exact ⟨_, _, rfl, by simp [width]; omega, by simp, by simp, by simp [codePoint]; omega⟩
  · exact ⟨_, _, rfl, by simp [width]; split_ifs <;> omega, by simp, by simp; omega,
      by simp [codePoint]; omega⟩
  · exact ⟨_, _, rfl, by simp [width]; split_ifs <;> omega, by simp, by simp; omega,
      by simp [codePoint]; omega⟩
  · exact ⟨_, _, rfl, by simp [width]; split_ifs <;> omega, by simp, by simp; omega,
      by simp [codePoint]; omega⟩

theorem charOf_eq_some_iff {p : Bytes} {c : Char} :
    charOf p = some c ↔ String.utf8EncodeChar c = p := by
  constructor
  · intro h
    simp only [charOf, Option.filter_eq_some_iff, decide_eq_true_eq] at h
    exact h.2
  · rintro rfl
    obtain ⟨a, as, he, -, -, -, hc⟩ := utf8EncodeChar_shape c
    rw [← he] at hc
    simp [charOf, hc, Option.filter, Char.ofNat_toNat]

/-- No encoding is a proper prefix of another. -/
theorem charOf_cut {c : Char} {p q : Bytes} (h : String.utf8EncodeChar c = p ++ q)
    (hq : q ≠ []) : charOf p = none := by
  cases hd : charOf p with
  | none => rfl
  | some d =>
    rw [charOf_eq_some_iff] at hd
    obtain ⟨a, as, ha, hla, -⟩ := utf8EncodeChar_shape c
    obtain ⟨b, bs, hb, hlb, -⟩ := utf8EncodeChar_shape d
    rw [h] at ha
    rw [← hd, hb, List.cons_append] at ha
    obtain ⟨rfl, rfl⟩ := List.cons.inj ha
    have : 0 < q.length := List.length_pos_iff.2 hq
    simp only [List.length_append] at hla
    omega

/-- The bytes of one character are read off whole. -/
theorem decodeFrom_char {c : Char} {p q : Bytes} (h : String.utf8EncodeChar c = p ++ q) (hq : q ≠ [])
    (bs : Bytes) : decodeFrom p (q ++ bs) = (decode bs).map (c :: ·) := by
  induction q generalizing p with
  | nil => exact absurd rfl hq
  | cons b q ih =>
    rw [List.cons_append, decodeFrom]
    by_cases hq' : q = []
    · subst hq'
      rw [charOf_eq_some_iff.2 h]
      rfl
    · have hb : String.utf8EncodeChar c = (p ++ [b]) ++ q := by simpa using h
      have hlen : p.length < 3 := by
        obtain ⟨a, as, ha, -, hl, -⟩ := utf8EncodeChar_shape c
        have := congrArg List.length (h.symm.trans ha)
        have : 0 < q.length := List.length_pos_iff.2 hq'
        simp only [List.length_append, List.length_cons] at *
        omega
      rw [charOf_cut hb hq']
      simp only [hlen, if_true]
      exact ih hb hq'

/-! ## Texts -/

/-- **An encoded text in front is read off, whatever follows.** -/
theorem decode_encode_append (t : Text) (bs : Bytes) :
    decode (encode t ++ bs) = (decode bs).map (t ++ ·) := by
  induction t with
  | nil => simp
  | cons c t ih =>
    have hne : String.utf8EncodeChar c ≠ [] := by
      obtain ⟨a, as, h, -⟩ := utf8EncodeChar_shape c
      simp [h]
    have hc : decodeFrom [] (String.utf8EncodeChar c ++ (encode t ++ bs)) =
        (decode (encode t ++ bs)).map (c :: ·) := decodeFrom_char (List.nil_append _).symm hne _
    rw [encode_cons, List.append_assoc, decode, hc, ih, Option.map_map]
    rfl

@[simp] theorem decode_encode (t : Text) : decode (encode t) = some t := by
  have := decode_encode_append t []
  simpa [decode, decodeFrom] using this

theorem decodeFrom_sound {p bs : Bytes} {t : Text} (h : decodeFrom p bs = some t) :
    p ++ bs = encode t := by
  induction bs generalizing p t with
  | nil =>
    rw [decodeFrom] at h
    split_ifs at h with hp
    cases h
    simp [hp]
  | cons b bs ih =>
    rw [decodeFrom] at h
    split at h
    · rename_i c hc
      obtain ⟨u, hu, rfl⟩ := Option.map_eq_some_iff.1 h
      rw [encode_cons, charOf_eq_some_iff.1 hc, ← ih hu]
      simp
    · split_ifs at h
      simpa using ih h

/-- **Decoding accepts exactly the encodings.** -/
theorem decode_eq_some_iff {bs : Bytes} {t : Text} : decode bs = some t ↔ bs = encode t :=
  ⟨fun h => by simpa using decodeFrom_sound h, fun h => by rw [h, decode_encode]⟩

/-- A cut between two characters leaves a prefix of the text. -/
theorem prefix_of_take {l p : Text} {k : ℕ} (h : (encode l).take k = encode p) : ∃ q, l = p ++ q := by
  have hl : decode (encode p ++ (encode l).drop k) = some l := by
    rw [← h, List.take_append_drop, decode_encode]
  rw [decode_encode_append, Option.map_eq_some_iff] at hl
  obtain ⟨q, -, hq⟩ := hl
  exact ⟨q, hq.symm⟩

theorem encode_inj {t u : Text} (h : encode t = encode u) : t = u := by
  have := congrArg decode h
  simpa using this

/-- A byte that starts a character marks a character boundary. -/
theorem boundary_of_ascii {t : Text} {a bs : Bytes} {x : UInt8} (hx : x.toNat < 0x80)
    (h : encode t = a ++ x :: bs) : ∃ u, a = encode u := by
  induction t generalizing a with
  | nil => simp at h
  | cons c t ih =>
    rw [encode_cons] at h
    obtain ⟨b, cs, hc, -, -, hcont, -⟩ := utf8EncodeChar_shape c
    rcases List.append_eq_append_iff.1 h with ⟨a', rfl, ht⟩ | ⟨a', hca, ht⟩
    · obtain ⟨u, rfl⟩ := ih ht
      exact ⟨c :: u, rfl⟩
    · cases a with
      | nil => exact ⟨[], rfl⟩
      | cons a₀ a =>
        cases a' with
        | nil => exact ⟨[c], by simpa [encode] using hca.symm⟩
        | cons y a' =>
          -- the byte would be a continuation of this character
          rw [hc, List.cons_append] at hca
          obtain ⟨-, hcs⟩ := List.cons.inj hca
          have hy := hcont y (by simp [hcs])
          obtain ⟨rfl, -⟩ := List.cons.inj ht
          omega

/-- **What does not decode is not mended by what starts with an ASCII byte.** -/
theorem decode_append_ascii {a bs : Bytes} {x : UInt8} (hx : x.toNat < 0x80)
    (ha : decode a = none) : decode (a ++ x :: bs) = none := by
  cases h : decode (a ++ x :: bs) with
  | none => rfl
  | some t =>
    obtain ⟨u, rfl⟩ := boundary_of_ascii hx (decode_eq_some_iff.1 h).symm
    simp at ha

/-! ## ASCII -/

/-- Below `0x80` a character is one byte. -/
theorem encode_ascii {t : Text} (h : ∀ c ∈ t, c.toNat < 0x80) :
    encode t = t.map fun c => UInt8.ofNat c.toNat := by
  induction t with
  | nil => rfl
  | cons c t ih =>
    have hc : c.val.toNat ≤ 127 := Nat.le_of_lt_succ (h c List.mem_cons_self)
    rw [encode_cons, ih fun d hd => h d (List.mem_cons_of_mem _ hd), List.map_cons]
    simp only [String.utf8EncodeChar, hc, if_true]
    rfl

end Utf8

end Yaam
