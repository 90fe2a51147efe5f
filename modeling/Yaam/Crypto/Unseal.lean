/-
  Unsealing a body (`yaam-crypto`, `seal.rs`), and that it undoes sealing for exactly
  the record and the subjects that were sealed.

  * `unseal` fetches every subject's key, unwraps every share and decrypts;
  * `Openers` is what opens what `Ciphers` closes, `Ideal` what is asked of the two;
  * `Opens` is what a sealed body does: it opens to its plaintext while every subject
    has its key, and for no other record or set of subjects;
  * `seal_unseal`: sealing gives such a body, whatever order the subjects come in.
-/
import Yaam.Crypto.Seal

namespace Yaam.Crypto

open Text Contract Eff

/-- The primitives unsealing uses: AES-256-GCM's decryption, and the AES-256 key
    unwrap. -/
structure Openers where
  gcmOpen : Key → Nonce → Bytes → Bytes → Option Bytes
  keyUnwrap : Key → Bytes → Option Bytes

/-- Ideal primitives: a ciphertext opens under its own key, nonce and associated data,
    and under no others; a wrapped share unwraps to the share; digests do not collide. -/
structure Ideal (C : Ciphers) (O : Openers) : Prop where
  gcm_open : ∀ k n a p, O.gcmOpen k n a (C.gcm k n a p) = some p
  gcm_only : ∀ k n a p k' n' a' q, O.gcmOpen k' n' a' (C.gcm k n a p) = some q →
    k' = k ∧ n' = n ∧ a' = a
  keyUnwrap_wrap : ∀ k s, s.length = 32 → O.keyUnwrap k (C.keyWrap k s) = some s
  length_keyWrap : ∀ k s, (C.keyWrap k s).length = s.length + 8
  sha256_injective : Function.Injective C.sha256

section
variable (C : Ciphers) (O : Openers)

def decrypt (dek : Key) (nonce : Nonce) (aad ciphertext : Bytes) : Except Error Bytes :=
  match O.gcmOpen dek nonce aad ciphertext with
  | some p => .ok p
  | none => .error .authentication

def unwrapShare (kek wrapped : Bytes) : Except Error Bytes :=
  if h : kek.length = 32 then
    if wrapped.length < 16 then .error (.malformedBlock s!"wrapped share is {wrapped.length} bytes")
    else match O.keyUnwrap ⟨kek, h⟩ wrapped with
      | some share => .ok share
      | none => .error .authentication
  else .error (.malformedBlock "subject key is not 32 bytes")

/-- One share, unwrapped under its subject's key. -/
def unsealShare (K : FsKeyStore) (epoch : Epoch) (share : WrappedShare) :
    Eff Tree Error BareShare := do
  match ← K.get share.subject epoch with
  | none => fail (.keyAbsent share.subject.text epoch.text)
  | some kek => do
    let bytes ← ofExcept (unwrapShare O kek share.bytes)
    if bytes.length ≠ 32 then
      fail (.malformedBlock (s!"share for `{String.ofList share.subject.text}` unwrapped to " ++
        s!"{bytes.length} bytes, expected 32"))
    else return ⟨share.subject, bytes⟩

/-- Unwraps the shares in order. -/
def unsealShares (K : FsKeyStore) (epoch : Epoch) : List WrappedShare → Eff Tree Error (List BareShare)
  | [] => return []
  | share :: shares => do
    let b ← unsealShare O K epoch share
    let bs ← unsealShares K epoch shares
    return b :: bs

/-- Unseals a body: the associated data is computed from the record and its shares'
    subjects, never read from the block. -/
def «unseal» (K : FsKeyStore) (record : RecordId) (body : SealedBody) : Eff Tree Error Bytes := do
  let bare ← unsealShares O K body.epoch body.shares
  let subjects ← ofExcept (canonicalSubjects (bare.map (·.subject)))
  let dek ← ofExcept (derive C record bare)
  ofExcept (decrypt O dek body.nonce (associatedData C record subjects) body.ciphertext)

end

/-! ## Subject sets -/

theorem canonicalSubjects_eq_ok {ss : List SubjectHash} (hne : ss ≠ []) (hnd : ss.Nodup) :
    canonicalSubjects ss = .ok (ss.insertionSort fun a b => a.text ≤ b.text) := by
  have hsorted : (ss.insertionSort fun a b => a.text ≤ b.text).Nodup :=
    (List.perm_insertionSort _ ss).nodup_iff.2 hnd
  rw [canonicalSubjects, if_neg hne]
  simp [List.dedup_eq_self.2 hsorted]

/-- **An empty or repeating subject set is refused.** -/
theorem canonicalSubjects_error {ss : List SubjectHash} (h : ss = [] ∨ ¬ ss.Nodup) :
    ∃ e, canonicalSubjects ss = .error e := by
  cases hc : canonicalSubjects ss with
  | error e => exact ⟨e, rfl⟩
  | ok ts =>
    obtain ⟨rfl, hne, hnd⟩ := canonicalSubjects_ok hc
    have hnd' := (List.perm_insertionSort _ ss).nodup_iff.1 hnd
    rcases h with rfl | h
    · exact absurd rfl hne
    · exact absurd hnd' h

instance : Std.Total fun a b : SubjectHash => a.text ≤ b.text :=
  ⟨fun a b => le_total a.text b.text⟩

instance : IsTrans SubjectHash fun a b => a.text ≤ b.text :=
  ⟨fun _ _ _ => le_trans⟩

instance : Std.Antisymm fun a b : SubjectHash => a.text ≤ b.text :=
  ⟨fun _ _ hab hba => SubjectHash.ext_text (le_antisymm hab hba)⟩

/-- Sorting forgets the order the subjects came in. -/
theorem insertionSort_perm {ss ss' : List SubjectHash} (h : ss'.Perm ss) :
    ss'.insertionSort (fun a b => a.text ≤ b.text) = ss.insertionSort fun a b => a.text ≤ b.text :=
  List.Perm.eq_of_pairwise' (List.pairwise_insertionSort _ _) (List.pairwise_insertionSort _ _)
    ((List.perm_insertionSort _ _).trans (h.trans (List.perm_insertionSort _ _).symm))

theorem canonicalSubjects_perm {ss ss' : List SubjectHash} (h : ss'.Perm ss) :
    canonicalSubjects ss' = canonicalSubjects ss := by
  rw [canonicalSubjects, canonicalSubjects, insertionSort_perm h]
  have hnil : ss' = [] ↔ ss = [] := by rw [← List.length_eq_zero_iff, h.length_eq, List.length_eq_zero_iff]
  simp only [hnil]

/-! ## Associated data -/

/-- A text of known length, followed by anything, is read back from its bytes. -/
theorem encode_append_inj {l l' : Text} {x x' : Bytes} (hlen : l.length = l'.length)
    (h : Utf8.encode l ++ x = Utf8.encode l' ++ x') : l = l' ∧ x = x' := by
  have hcut : ∀ {m m' : Text} {y y' : Bytes}, m.length = m'.length →
      (Utf8.encode m).length ≤ (Utf8.encode m').length →
      Utf8.encode m ++ y = Utf8.encode m' ++ y' → m = m' := by
    intro m m' y y' hlen hle heq
    have htake := congrArg (List.take (Utf8.encode m).length) heq
    rw [List.take_append_of_le_length hle, List.take_left] at htake
    obtain ⟨q, rfl⟩ := Utf8.prefix_of_take htake.symm
    have hq : q = [] := List.length_eq_zero_iff.1 (by simpa using hlen)
    rw [hq, List.append_nil]
  have hl : l = l' := by
    rcases le_total (Utf8.encode l).length (Utf8.encode l').length with hle | hle
    · exact hcut hlen hle h
    · exact (hcut hlen.symm hle h.symm).symm
  subst hl
  exact ⟨rfl, List.append_cancel_left h⟩

/-- What is digested says which subjects they are, and in which order. -/
theorem digested_inj {ss ss' : List SubjectHash}
    (h : (ss.flatMap fun s => Utf8.encode s.text ++ [10]) =
      ss'.flatMap fun s => Utf8.encode s.text ++ [10]) : ss = ss' := by
  induction ss generalizing ss' with
  | nil =>
    cases ss' with
    | nil => rfl
    | cons s' ss' => simp at h
  | cons s ss ih =>
    cases ss' with
    | nil => simp at h
    | cons s' ss' =>
      simp only [List.flatMap_cons, List.append_assoc] at h
      obtain ⟨htext, hrest⟩ := encode_append_inj (by rw [SubjectHash.length_text, SubjectHash.length_text]) h
      rw [SubjectHash.ext_text htext, ih (List.append_cancel_left hrest)]

/-- **Associated data says which record and which subjects it is for.** -/
theorem associatedData_inj {C : Ciphers} (hsha : Function.Injective C.sha256)
    {record record' : RecordId} {ss ss' : List SubjectHash}
    (h : associatedData C record ss = associatedData C record' ss') : record = record' ∧ ss = ss' := by
  simp only [associatedData, List.append_assoc, List.cons_append] at h
  obtain ⟨htext, hrest⟩ := encode_append_inj (by rw [RecordId.length_text, RecordId.length_text]) h
  refine ⟨?_, digested_inj (hsha ?_)⟩
  · cases record
    cases record'
    simpa using htext
  · exact (List.cons.inj (List.append_cancel_left (List.cons.inj hrest).2)).2

/-! ## Keys -/

/-- The store holds a subject's key for an epoch: a file that unwraps to it, and no
    marker. -/
structure KeyWrapper.Holds (W : KeyWrapper) (s : SubjectHash) (e : Epoch) (t : Tree) (k : Bytes) :
    Prop where
  unmarked : tombstonePath s ∉ t
  path : keyPath s e = .ok (subjectDir s ++ [e.text])
  length : k.length = 32
  file : ∃ f, t.lookup (subjectDir s ++ [e.text]) = some f ∧ W.unwrap f.content = .ok k

variable {K : FsKeyStore} {s : SubjectHash} {e : Epoch} {t t' : Tree} {k : Bytes}

theorem KeyWrapper.Holds.grown {W : KeyWrapper} (h : W.Holds s e t k) (hg : Grown t t') :
    W.Holds s e t' k := by
  obtain ⟨f, hf, hu⟩ := h.file
  exact ⟨fun hm => h.unmarked ((hg.2 s).1 hm), h.path, h.length, f, hg.1 _ f hf, hu⟩

theorem FsKeyStore.get_of_marked (h : tombstonePath s ∈ t) : K.get s e t = (.ok none, t) := by
  rw [FsKeyStore.get, bind_of_ok (isTombstoned_apply s t)]
  simp [h]

theorem FsKeyStore.get_of_absent (hpath : keyPath s e = .ok (subjectDir s ++ [e.text]))
    (hread : K.fault .readKey s = none) (h : t.lookup (subjectDir s ++ [e.text]) = none) :
    K.get s e t = (.ok none, t) := by
  rw [FsKeyStore.get, bind_of_ok (isTombstoned_apply s t)]
  by_cases hm : tombstonePath s ∈ t
  · simp [hm]
  · simp [hm, hpath, FsKeyStore.io, hread, h]

/-- A key that is held is found. -/
theorem KeyWrapper.Holds.get (h : K.wrapper.Holds s e t k) (hread : K.fault .readKey s = none) :
    K.get s e t = (.ok (some k), t) := by
  obtain ⟨f, hf, hu⟩ := h.file
  rw [FsKeyStore.get, bind_of_ok (isTombstoned_apply s t)]
  simp [h.unmarked, h.path, FsKeyStore.io, hread, hf, hu, h.length]

/-- A key that is found is held. -/
theorem FsKeyStore.get_holds (h : K.get s e t = (.ok (some k), t')) : K.wrapper.Holds s e t k := by
  rw [FsKeyStore.get, bind_of_ok (isTombstoned_apply s t)] at h
  by_cases hm : tombstonePath s ∈ t
  · simp [hm] at h
  simp only [hm, decide_false, Bool.false_eq_true, if_false] at h
  obtain ⟨path, t₁, hpath, h⟩ := bind_eq_ok.1 h
  obtain ⟨hp, rfl⟩ := ofExcept_eq_ok.1 hpath
  obtain rfl := keyPath_ok hp
  obtain ⟨u, t₂, hio, h⟩ := bind_eq_ok.1 h
  obtain rfl : t = t₂ := (K.io_state .readKey s t).symm.trans (congrArg Prod.snd hio)
  rw [state_bind] at h
  cases hf : t.lookup (subjectDir s ++ [e.text]) with
  | none => simp [hf] at h
  | some f =>
    simp only [hf] at h
    obtain ⟨key, t₃, hunwrap, h⟩ := bind_eq_ok.1 h
    obtain ⟨hu, rfl⟩ := ofExcept_eq_ok.1 hunwrap
    by_cases hlen : key.length = 32
    · rw [if_neg (not_not.2 hlen)] at h
      obtain ⟨hk, -⟩ := pure_eq_ok.1 h
      obtain rfl := Option.some.inj hk
      exact ⟨hm, hp, hlen, f, hf, hu⟩
    · rw [if_pos hlen] at h
      exact absurd h fail_ne_ok

/-- **A key that is minted is held.** -/
theorem FsKeyStore.mint_holds (hW : K.wrapper.Lawful) {fresh : Key}
    (h : K.mint fresh s e t = (.ok k, t')) : K.wrapper.Holds s e t' k := by
  have hm : tombstonePath s ∉ t := FsKeyStore.mint_ok h
  rw [FsKeyStore.mint, bind_of_ok (isTombstoned_apply s t)] at h
  simp only [hm, decide_false, Bool.false_eq_true, if_false] at h
  obtain ⟨existing, t₁, hget, h⟩ := bind_eq_ok.1 h
  obtain rfl : t = t₁ := (K.get_state s e t).symm.trans (congrArg Prod.snd hget)
  cases existing with
  | some key =>
    obtain ⟨rfl, rfl⟩ := pure_eq_ok.1 h
    exact FsKeyStore.get_holds hget
  | none =>
    obtain ⟨u, t₂, hio, h⟩ := bind_eq_ok.1 h
    obtain rfl : t = t₂ := (K.io_state .createDir s t).symm.trans (congrArg Prod.snd hio)
    obtain ⟨wrapped, t₃, hwrap, h⟩ := bind_eq_ok.1 h
    obtain ⟨hw, rfl⟩ := ofExcept_eq_ok.1 hwrap
    obtain ⟨path, t₄, hpath, h⟩ := bind_eq_ok.1 h
    obtain ⟨hp, rfl⟩ := ofExcept_eq_ok.1 hpath
    obtain rfl := keyPath_ok hp
    obtain ⟨u, t₅, hio, h⟩ := bind_eq_ok.1 h
    obtain rfl : t = t₅ := (K.io_state .createKey s t).symm.trans (congrArg Prod.snd hio)
    rw [state_bind] at h
    by_cases hmem : subjectDir s ++ [e.text] ∈ t
    · rw [if_pos hmem] at h
      obtain ⟨again, t₆, hagain, h⟩ := bind_eq_ok.1 h
      cases again with
      | none => exact absurd h fail_ne_ok
      | some key =>
        obtain ⟨rfl, rfl⟩ := pure_eq_ok.1 h
        have hheld := FsKeyStore.get_holds hagain
        obtain rfl : t = t₆ := (K.get_state s e t).symm.trans (congrArg Prod.snd hagain)
        exact hheld
    · rw [if_neg hmem, change_bind] at h
      obtain ⟨rfl, rfl⟩ := pure_eq_ok.1 h
      have hg := grown_write wrapped K.now hmem
      exact ⟨fun h' => hm ((hg.2 s).1 h'), hp, fresh.length, _, AList.lookup_insert _, hW _ _ hw⟩

/-- A subject's key can be fetched or made: no marker, file operations that succeed, and
    a key file that unwraps, or none and a wrapper that takes a fresh key. -/
structure FsKeyStore.Mintable (K : FsKeyStore) (d : Draws) (e : Epoch) (t : Tree) (s : SubjectHash) :
    Prop where
  unmarked : tombstonePath s ∉ t
  quiet : ∀ op, K.fault op s = none
  key : (∃ k, K.wrapper.Holds s e t k) ∨
    t.lookup (subjectDir s ++ [e.text]) = none ∧ ∃ b, K.wrapper.wrap (d.fresh s).bytes = .ok b

theorem subjectDir_concat_inj {s s' : SubjectHash} {l l' : Text}
    (h : subjectDir s ++ [l] = subjectDir s' ++ [l']) : s = s' := by
  simp only [subjectDir, List.cons_append, List.nil_append, List.cons.injEq] at h
  exact SubjectHash.ext_text h.2.1

variable {d : Draws} {epoch : Epoch}

/-- Minting answers, and leaves the key files of the other subjects. -/
theorem FsKeyStore.Mintable.mint (h : K.Mintable d e t s)
    (hpath : keyPath s e = .ok (subjectDir s ++ [e.text])) :
    ∃ k t', K.mint (d.fresh s) s e t = (.ok k, t') ∧
      ∀ s', s' ≠ s → ∀ l, t'.lookup (subjectDir s' ++ [l]) = t.lookup (subjectDir s' ++ [l]) := by
  rcases h.key with ⟨k, hk⟩ | ⟨hnone, b, hb⟩
  · refine ⟨k, t, ?_, fun _ _ _ => rfl⟩
    rw [FsKeyStore.mint, bind_of_ok (isTombstoned_apply s t)]
    simp only [h.unmarked, decide_false, Bool.false_eq_true, if_false]
    rw [bind_of_ok (hk.get (h.quiet _))]
    rfl
  · have hmem : subjectDir s ++ [e.text] ∉ t := by
      rw [← AList.lookup_isSome, hnone]
      exact Bool.false_ne_true
    have hio : ∀ op, K.io op s = pure () := fun op => by rw [FsKeyStore.io, h.quiet op]
    refine ⟨(d.fresh s).bytes, t.write (subjectDir s ++ [e.text]) b K.now, ?_, ?_⟩
    · rw [FsKeyStore.mint, bind_of_ok (isTombstoned_apply s t)]
      simp only [h.unmarked, decide_false, Bool.false_eq_true, if_false]
      rw [bind_of_ok (FsKeyStore.get_of_absent hpath (h.quiet _) hnone)]
      simp [hio, hb, hpath, hmem]
      rfl
    · intro s' hne l
      exact AList.lookup_insert_ne fun heq => hne (subjectDir_concat_inj heq)

/-- **Where every subject's key can be fetched or made, the shares are wrapped.** -/
theorem sealShares_complete {C : Ciphers} (hW : K.wrapper.Lawful) {shares : List BareShare}
    (hpath : ∀ s, keyPath s epoch = .ok (subjectDir s ++ [epoch.text]))
    (hnd : (shares.map (·.subject)).Nodup)
    (h : ∀ s ∈ shares.map (·.subject), K.Mintable d epoch t s) :
    ∃ ws t', sealShares C K d epoch shares t = (.ok ws, t') := by
  induction shares generalizing t with
  | nil => exact ⟨[], t, rfl⟩
  | cons share shares ih =>
    obtain ⟨hnew, hnd⟩ := List.nodup_cons.1 hnd
    obtain ⟨k, t₁, hk, hother⟩ := (h share.subject (by simp)).mint (hpath _)
    have hgrown : Grown t t₁ := by
      have := K.mint_grown (d.fresh share.subject) share.subject epoch t
      rwa [hk] at this
    have hlater : ∀ s ∈ shares.map (·.subject), K.Mintable d epoch t₁ s := by
      intro s hs
      have hs' := h s (List.mem_cons_of_mem _ hs)
      refine ⟨fun hm => hs'.unmarked ((hgrown.2 s).1 hm), hs'.quiet, ?_⟩
      refine hs'.key.imp (fun ⟨k, hk⟩ => ⟨k, hk.grown hgrown⟩) fun ⟨hnone, hb⟩ => ⟨?_, hb⟩
      have hne : s ≠ share.subject := by
        rintro rfl
        exact hnew hs
      rw [hother s hne, hnone]
    have hheld := (FsKeyStore.mint_holds hW hk).length
    obtain ⟨ws, t₂, hws⟩ := ih hnd hlater
    have hone : sealShare C K d epoch share t =
        (.ok ⟨share.subject, C.keyWrap ⟨k, hheld⟩ share.bytes⟩, t₁) := by
      rw [sealShare, bind_of_ok hk, wrapShare, dif_pos hheld]
      rfl
    refine ⟨⟨share.subject, C.keyWrap ⟨k, hheld⟩ share.bytes⟩ :: ws, t₂, ?_⟩
    rw [sealShares, bind_of_ok hone, bind_of_ok hws]
    rfl

/-! ## Opening -/

variable {C : Ciphers} {O : Openers}

theorem length_xor {a b : Bytes} (ha : a.length = 32) (hb : b.length = 32) : (xor a b).length = 32 := by
  simp [xor, ha, hb]

/-- Every share is as long as a key. -/
theorem length_split (pad : SubjectHash → Key) : ∀ {r : Bytes} {ss : List SubjectHash},
    r.length = 32 → ∀ b ∈ split pad r ss, b.bytes.length = 32
  | _, [], _, b, hb => absurd hb List.not_mem_nil
  | _, [_], hr, b, hb => by
    obtain rfl := List.mem_singleton.1 hb
    exact hr
  | _, s :: s' :: ss, hr, b, hb => by
    rcases List.mem_cons.1 hb with rfl | hb
    · exact (pad s).length
    · exact length_split pad (length_xor hr (pad s).length) b hb

theorem KeyWrapper.Holds.destroyed {W : KeyWrapper} {s' : SubjectHash} (h : W.Holds s' e t k)
    (hne : s' ≠ s) : W.Holds s' e (t.removeDirAll (subjectDir s)) k := by
  have hout : ∀ p f, ¬ Tree.Under (subjectDir s) p → t.lookup p = some f →
      (t.removeDirAll (subjectDir s)).lookup p = some f := by
    intro p f hp hf
    rw [Tree.lookup_removeDirAll, if_neg hp, hf]
  obtain ⟨f, hf, hu⟩ := h.file
  refine ⟨fun hm => ?_, h.path, h.length, f, hout _ f (fun hunder => ?_) hf, hu⟩
  · obtain ⟨g, hg⟩ := Tree.mem_iff_lookup.1 hm
    rw [Tree.lookup_removeDirAll] at hg
    split_ifs at hg
    exact h.unmarked (Tree.mem_iff_lookup.2 ⟨g, hg⟩)
  · have hprefix := hunder.1
    simp only [subjectDir, List.cons_append, List.nil_append, List.cons_prefix_cons, true_and] at hprefix
    exact hne (SubjectHash.ext_text hprefix.1.symm)

theorem KeyWrapper.Holds.tombstoned {W : KeyWrapper} {s' : SubjectHash} (h : W.Holds s' e t k)
    (hne : s' ≠ s) : W.Holds s' e (K.tombstone s t).2 k := by
  have htomb : (K.tombstone s t).2 =
      if tombstonePath s ∈ t then t else t.write (tombstonePath s) [] K.now := rfl
  rw [htomb]
  split_ifs with hm
  · exact h
  obtain ⟨f, hf, hu⟩ := h.file
  refine ⟨fun hmem => ?_, h.path, h.length, f, ?_, hu⟩
  · rw [Tree.write, AList.mem_insert] at hmem
    rcases hmem with heq | hmem
    · simp only [tombstonePath, List.cons.injEq, and_true, true_and] at heq
      exact hne (SubjectHash.ext_text heq)
    · exact h.unmarked hmem
  · rw [Tree.write, AList.lookup_insert_ne (tombstonePath_ne s [e.text] s').symm, hf]

/-- A wrapped share, in a store that holds the key it was wrapped under. -/
def Wraps (C : Ciphers) (W : KeyWrapper) (e : Epoch) (u : Tree) (w : WrappedShare) (b : BareShare) :
    Prop :=
  w.subject = b.subject ∧ b.bytes.length = 32 ∧
    ∃ k : Key, W.Holds b.subject e u k.bytes ∧ w.bytes = C.keyWrap k b.bytes

theorem Wraps.unseal (ideal : Ideal C O) {w : WrappedShare} {b : BareShare}
    (h : Wraps C K.wrapper e t w b) (hread : K.fault .readKey b.subject = none) :
    unsealShare O K e w t = (.ok b, t) := by
  obtain ⟨hs, hlen, k, hk, hw⟩ := h
  have hunwrap : unwrapShare O k.bytes w.bytes = .ok b.bytes := by
    rw [unwrapShare, dif_pos k.length, hw, ideal.length_keyWrap, if_neg (by omega),
      ideal.keyUnwrap_wrap _ _ hlen]
  rw [unsealShare, hs, bind_of_ok (hk.get hread)]
  simp only [hunwrap, ofExcept_ok_bind, hlen, ne_eq, not_true_eq_false, if_false]
  rfl

/-- **The shares of a sealing are wrapped under keys the store then holds.** -/
theorem sealShares_wraps (hW : K.wrapper.Lawful) {shares : List BareShare} {ws : List WrappedShare}
    (hlen : ∀ b ∈ shares, b.bytes.length = 32)
    (h : sealShares C K d epoch shares t = (.ok ws, t')) :
    List.Forall₂ (Wraps C K.wrapper epoch t') ws shares := by
  induction shares generalizing t ws with
  | nil =>
    obtain ⟨rfl, -⟩ := pure_eq_ok.1 h
    exact .nil
  | cons share shares ih =>
    obtain ⟨w, t₁, hw, h⟩ := bind_eq_ok.1 h
    obtain ⟨ws', t₂, hws, h⟩ := bind_eq_ok.1 h
    obtain ⟨rfl, rfl⟩ := pure_eq_ok.1 h
    refine .cons ?_ (ih (fun b hb => hlen b (by simp [hb])) hws)
    obtain ⟨kek, t₃, hk, hw⟩ := bind_eq_ok.1 hw
    obtain ⟨bytes, t₄, hbytes, hw⟩ := bind_eq_ok.1 hw
    obtain ⟨hwrap, rfl⟩ := ofExcept_eq_ok.1 hbytes
    obtain ⟨rfl, rfl⟩ := pure_eq_ok.1 hw
    have hheld := FsKeyStore.mint_holds hW hk
    rw [wrapShare, dif_pos hheld.length] at hwrap
    have hgrown : Grown t₃ t₂ := by
      have hg : Grown t₃ (sealShares C K d epoch shares t₃).2 := sealShares_grown shares t₃
      rwa [hws] at hg
    exact ⟨rfl, hlen share (by simp), ⟨kek, hheld.length⟩, hheld.grown hgrown,
      (Except.ok.inj hwrap).symm⟩

/-- Shares whose keys are held all unwrap. -/
theorem unsealShares_ok (ideal : Ideal C O) {ws : List WrappedShare} {shares : List BareShare}
    (h : List.Forall₂ (Wraps C K.wrapper e t) ws shares)
    (hread : ∀ b ∈ shares, K.fault .readKey b.subject = none) :
    unsealShares O K e ws t = (.ok shares, t) := by
  induction h with
  | nil => rfl
  | @cons w b ws shares hw _ ih =>
    rw [unsealShares, bind_of_ok (hw.unseal ideal (hread b (by simp))),
      bind_of_ok (ih fun b hb => hread b (by simp [hb]))]
    rfl

/-- **A subject whose key is gone stops the unsealing.** -/
theorem unsealShares_absent (ideal : Ideal C O) {ws : List WrappedShare} {shares : List BareShare}
    (hmem : s ∈ shares.map (·.subject)) (hgone : K.get s e t = (.ok none, t))
    (h : List.Forall₂ (fun w b => w.subject = b.subject ∧
      (b.subject ≠ s → Wraps C K.wrapper e t w b)) ws shares)
    (hread : ∀ b ∈ shares, K.fault .readKey b.subject = none) :
    unsealShares O K e ws t = (.error (.keyAbsent s.text e.text), t) := by
  induction h with
  | nil => exact absurd hmem List.not_mem_nil
  | @cons w b ws shares hw _ ih =>
    by_cases hb : b.subject = s
    · have hfirst : unsealShare O K e w t = (.error (.keyAbsent s.text e.text), t) := by
        rw [unsealShare, hw.1, hb, bind_of_ok hgone]
        rfl
      exact bind_of_error hfirst _
    · have hrest : s ∈ shares.map (·.subject) :=
        (List.mem_cons.1 hmem).resolve_left fun heq => hb heq.symm
      have hfirst := (hw.2 hb).unseal ideal (hread b (by simp))
      rw [unsealShares, bind_of_ok hfirst]
      exact bind_of_error (ih hrest fun b hb => hread b (by simp [hb])) _

/-! ## Sealing, then unsealing -/

/-- **What a sealed body does.**  It reads back from its block, opens to its plaintext
    while every subject has its key, reports whose key is gone once one has not, and opens
    for no other record and with no other set of shares. -/
structure Opens (C : Ciphers) (O : Openers) (K : FsKeyStore) (record : RecordId)
    (ss : List SubjectHash) (plaintext : Bytes) (b : SealedBody) (t : Tree) : Prop where
  stored : Crypto.parse (render b) = .ok b
  opens : «unseal» C O K record b t = (.ok plaintext, t)
  destroyed : ∀ s ∈ ss, («unseal» C O K record b (destroySubject s t).2).1 =
    .error (.keyAbsent s.text b.epoch.text)
  tombstoned : ∀ s ∈ ss, («unseal» C O K record b (K.tombstone s t).2).1 =
    .error (.keyAbsent s.text b.epoch.text)
  otherRecord : ∀ record', record' ≠ record → ∀ u p, («unseal» C O K record' b u).1 ≠ .ok p
  otherShares : ∀ shares, ¬ (shares.map (·.subject)).Perm ss → ∀ u p,
    («unseal» C O K record { b with shares } u).1 ≠ .ok p

theorem unsealShares_subjects {ws : List WrappedShare} {bs : List BareShare} {t t' : Tree}
    (h : unsealShares O K e ws t = (.ok bs, t')) : bs.map (·.subject) = ws.map (·.subject) := by
  induction ws generalizing t t' bs with
  | nil =>
    obtain ⟨rfl, -⟩ := pure_eq_ok.1 h
    rfl
  | cons w ws ih =>
    obtain ⟨b, t₁, hb, h⟩ := bind_eq_ok.1 h
    obtain ⟨bs', t₂, hbs, h⟩ := bind_eq_ok.1 h
    obtain ⟨rfl, -⟩ := pure_eq_ok.1 h
    have hsubject : b.subject = w.subject := by
      obtain ⟨key, t₃, -, hb⟩ := bind_eq_ok.1 hb
      cases key with
      | none => exact absurd hb fail_ne_ok
      | some kek =>
        obtain ⟨bytes, t₄, -, hb⟩ := bind_eq_ok.1 hb
        by_cases hlen : bytes.length = 32
        · rw [if_neg (not_not.2 hlen)] at hb
          obtain ⟨rfl, -⟩ := pure_eq_ok.1 hb
          rfl
        · rw [if_pos hlen] at hb
          exact absurd hb fail_ne_ok
    have hrest := ih hbs
    rw [List.map_cons, List.map_cons, hsubject, hrest]

/-- What was unsealed was sealed for the same record and the same subjects. -/
theorem unseal_only (ideal : Ideal C O) {record record' : RecordId} {ss : List SubjectHash}
    {b : SealedBody} {dek : Key} {p q : Bytes} {u u' : Tree}
    (hb : b.ciphertext = C.gcm dek b.nonce (associatedData C record ss) p)
    (h : «unseal» C O K record' b u = (.ok q, u')) :
    record' = record ∧ canonicalSubjects (b.shares.map (·.subject)) = .ok ss := by
  obtain ⟨bare, u₁, hbare, h⟩ := bind_eq_ok.1 h
  obtain ⟨ss', u₂, hss, h⟩ := bind_eq_ok.1 h
  obtain ⟨hss', rfl⟩ := ofExcept_eq_ok.1 hss
  obtain ⟨dek', u₃, -, h⟩ := bind_eq_ok.1 h
  obtain ⟨hq, -⟩ := ofExcept_eq_ok.1 h
  rw [unsealShares_subjects hbare] at hss'
  unfold decrypt at hq
  split at hq
  · rename_i hopen
    rw [hb] at hopen
    obtain ⟨-, -, haad⟩ := ideal.gcm_only _ _ _ _ _ _ _ _ hopen
    obtain ⟨rfl, rfl⟩ := associatedData_inj ideal.sha256_injective haad
    exact ⟨rfl, hss'⟩
  · cases hq

/-- **What is unsealed is what was sealed**, for the record it was sealed for. -/
theorem unseal_sealed (ideal : Ideal C O) {K' : FsKeyStore} {record record' : RecordId}
    {ss : List SubjectHash} {plaintext q : Bytes} {b : SealedBody} {u u' : Tree}
    (hb : «seal» C K d record ss epoch plaintext t = (.ok b, t'))
    (h : «unseal» C O K' record' b u = (.ok q, u')) : record' = record ∧ q = plaintext := by
  obtain ⟨sorted, t₁, -, hb⟩ := bind_eq_ok.1 hb
  obtain ⟨dek, t₂, -, hb⟩ := bind_eq_ok.1 hb
  obtain ⟨ws, t₃, -, hb⟩ := bind_eq_ok.1 hb
  obtain ⟨rfl, -⟩ := pure_eq_ok.1 hb
  have hcipher : C.gcm dek d.nonce (associatedData C record sorted) plaintext =
      C.gcm dek d.nonce (associatedData C record sorted) plaintext := rfl
  refine ⟨(unseal_only ideal hcipher h).1, ?_⟩
  obtain ⟨bare, u₁, -, h⟩ := bind_eq_ok.1 h
  obtain ⟨ss', u₂, -, h⟩ := bind_eq_ok.1 h
  obtain ⟨dek', u₃, -, h⟩ := bind_eq_ok.1 h
  obtain ⟨hq, -⟩ := ofExcept_eq_ok.1 h
  unfold decrypt at hq
  split at hq
  · rename_i hopen
    obtain ⟨rfl, -, haad⟩ := ideal.gcm_only _ _ _ _ _ _ _ _ hopen
    rw [haad, ideal.gcm_open] at hopen
    obtain rfl := Option.some.inj hopen
    exact (Except.ok.inj hq).symm
  · cases hq

/-- What a sealing that answers went through. -/
theorem seal_parts (hW : K.wrapper.Lawful) {record : RecordId} {ss : List SubjectHash}
    {plaintext : Bytes} {b : SealedBody}
    (h : «seal» C K d record ss epoch plaintext t = (.ok b, t')) :
    ∃ sorted bare dek, canonicalSubjects ss = .ok sorted ∧ bare.map (·.subject) = sorted ∧
      derive C record bare = .ok dek ∧ b.epoch = epoch ∧
      b.ciphertext = C.gcm dek b.nonce (associatedData C record sorted) plaintext ∧
      List.Forall₂ (Wraps C K.wrapper epoch t') b.shares bare := by
  obtain ⟨sorted, t₁, hs, h⟩ := bind_eq_ok.1 h
  obtain ⟨hsorted, rfl⟩ := ofExcept_eq_ok.1 hs
  obtain ⟨dek, t₂, hd, h⟩ := bind_eq_ok.1 h
  obtain ⟨hdek, rfl⟩ := ofExcept_eq_ok.1 hd
  obtain ⟨ws, t₃, hw, h⟩ := bind_eq_ok.1 h
  obtain ⟨rfl, rfl⟩ := pure_eq_ok.1 h
  exact ⟨sorted, _, dek, hsorted, map_subject_split _ _ _, hdek, rfl, rfl,
    sealShares_wraps hW (length_split _ d.root.length) hw⟩

/-- A sealed body reads back from its block: its shares are in order already. -/
theorem sealed_reads_back {record : RecordId} {ss : List SubjectHash} {ms : ℤ} {plaintext : Bytes}
    {b : SealedBody} (h : «seal» C K d record ss (Epoch.containing ms) plaintext t = (.ok b, t')) :
    Crypto.parse (render b) = .ok b := by
  obtain ⟨hepoch, hsubjects, hne, -⟩ := seal_ok h
  have hsorted : (b.shares.map (·.subject)).Pairwise fun a b => a.text ≤ b.text := by
    rw [hsubjects]
    exact List.pairwise_insertionSort _ _
  have hsort : sortShares b.shares = b.shares :=
    (List.pairwise_map.1 hsorted).insertionSort_eq
  rw [parse_render (by rw [hepoch]; exact Epoch.notWhite_containing ms) hne, hsort]

/-- **What sealing answers opens as sealed bodies do.** -/
theorem opens_sealed (ideal : Ideal C O) (hW : K.wrapper.Lawful) {record : RecordId} {ms : ℤ}
    {plaintext : Bytes} {ss : List SubjectHash} {b : SealedBody}
    (h : «seal» C K d record ss (Epoch.containing ms) plaintext t = (.ok b, t')) {K' : FsKeyStore}
    (hwrapper : K'.wrapper = K.wrapper) (hread : ∀ s ∈ ss, K'.fault .readKey s = none) :
    Opens C O K' record ss plaintext b t' := by
  obtain ⟨sorted, bare, dek, hsorted, hsubjects, hdek, hepoch, hcipher, hwraps⟩ := seal_parts hW h
  obtain ⟨rfl, -, hnd⟩ := canonicalSubjects_ok hsorted
  rw [← hwrapper, ← hepoch] at hwraps
  have hmem : ∀ s, s ∈ bare.map (·.subject) ↔ s ∈ ss := fun s => by
    rw [hsubjects, List.mem_insertionSort]
  have hreads : ∀ b ∈ bare, K'.fault .readKey b.subject = none := fun b hb =>
    hread _ ((hmem _).1 (List.mem_map_of_mem hb))
  have hsort : canonicalSubjects (bare.map (·.subject)) =
      .ok (ss.insertionSort fun a b => a.text ≤ b.text) := by
    rw [hsubjects, canonicalSubjects_perm (List.perm_insertionSort _ _), hsorted]
  -- a subject whose key is gone, while the others' are held
  have hgone : ∀ s ∈ ss, ∀ u, K'.get s b.epoch u = (.ok none, u) →
      (∀ s' k, s' ≠ s → K'.wrapper.Holds s' b.epoch t' k → K'.wrapper.Holds s' b.epoch u k) →
      («unseal» C O K' record b u).1 = .error (.keyAbsent s.text b.epoch.text) := by
    intro s hs u hget hother
    have hkept : List.Forall₂ (fun w b' => w.subject = b'.subject ∧
        (b'.subject ≠ s → Wraps C K'.wrapper b.epoch u w b')) b.shares bare := by
      refine hwraps.imp fun w b' hw => ⟨hw.1, fun hne => ?_⟩
      obtain ⟨hsubject, hlen, k, hk, hbytes⟩ := hw
      exact ⟨hsubject, hlen, k, hother _ _ hne hk, hbytes⟩
    have hshares := unsealShares_absent ideal ((hmem s).2 hs) hget hkept hreads
    rw [«unseal», bind_of_error hshares]
  have hpath : ∀ s, keyPath s b.epoch = .ok (subjectDir s ++ [b.epoch.text]) := by
    rw [hepoch]
    exact fun s => keyPath_containing s ms
  refine ⟨sealed_reads_back h, ?_, fun s hs => ?_, fun s hs => ?_, fun record' hne u p hp => ?_,
    fun shares hperm u p hp => ?_⟩
  · rw [«unseal», bind_of_ok (unsealShares_ok ideal hwraps hreads), hsort, ofExcept_ok_bind, hdek,
      ofExcept_ok_bind, decrypt, hcipher, ideal.gcm_open]
    rfl
  · refine hgone s hs _ (FsKeyStore.get_of_absent (hpath s) (hread s hs) ?_) fun s' k hne hk =>
      hk.destroyed hne
    show (t'.removeDirAll (subjectDir s)).lookup _ = none
    rw [Tree.lookup_removeDirAll, if_pos (Tree.under_concat _ _)]
  · refine hgone s hs _ (FsKeyStore.get_of_marked ?_) fun s' k hne hk => hk.tombstoned hne
    show tombstonePath s ∈ if tombstonePath s ∈ t' then t' else t'.write (tombstonePath s) [] K'.now
    split_ifs with hm
    · exact hm
    · rw [Tree.write, AList.mem_insert]
      exact .inl rfl
  · have hrun : «unseal» C O K' record' b u = (.ok p, («unseal» C O K' record' b u).2) := Prod.ext hp rfl
    exact hne (unseal_only ideal hcipher hrun).1
  · have hrun : «unseal» C O K' record { b with shares } u =
        (.ok p, («unseal» C O K' record { b with shares } u).2) := Prod.ext hp rfl
    have hset := (unseal_only ideal (b := { b with shares }) hcipher hrun).2
    obtain ⟨heq, -⟩ := canonicalSubjects_ok hset
    have hsorting := List.perm_insertionSort fun a b : SubjectHash => a.text ≤ b.text
    refine hperm ((hsorting _).symm.trans ?_)
    rw [← heq]
    exact hsorting ss

/-- **Sealing and unsealing.**  An empty or repeating set of subjects is refused.  Where
    every subject's key can be fetched or made, sealing answers; the order the subjects
    come in does not matter; and what it answers opens as sealed bodies do, at any key
    store with the same wrapper that reads its files. -/
theorem seal_unseal (ideal : Ideal C O) (hW : K.wrapper.Lawful) (d : Draws) (record : RecordId)
    (ms : ℤ) (plaintext : Bytes) (t : Tree) (ss : List SubjectHash) :
    (ss = [] ∨ ¬ ss.Nodup →
      ∃ err, «seal» C K d record ss (Epoch.containing ms) plaintext t = (.error err, t)) ∧
    (ss ≠ [] → ss.Nodup → (∀ s ∈ ss, K.Mintable d (Epoch.containing ms) t s) →
      ∃ b t', «seal» C K d record ss (Epoch.containing ms) plaintext t = (.ok b, t')) ∧
    (∀ ss', ss'.Perm ss → «seal» C K d record ss' (Epoch.containing ms) plaintext t =
      «seal» C K d record ss (Epoch.containing ms) plaintext t) ∧
    ∀ b t', «seal» C K d record ss (Epoch.containing ms) plaintext t = (.ok b, t') →
      ∀ K' : FsKeyStore, K'.wrapper = K.wrapper → (∀ s ∈ ss, K'.fault .readKey s = none) →
        Opens C O K' record ss plaintext b t' := by
  refine ⟨fun hbad => ?_, fun hne hnd hmint => ?_, fun ss' hperm => ?_, fun b t' h K' hwrapper hread => ?_⟩
  · obtain ⟨err, herr⟩ := canonicalSubjects_error hbad
    exact ⟨err, by rw [«seal», herr]; rfl⟩
  · have hsorted := canonicalSubjects_eq_ok hne hnd
    have hsubjects := map_subject_split d.pad d.root.bytes
      (ss.insertionSort fun a b => a.text ≤ b.text)
    have hperm := List.perm_insertionSort (fun a b : SubjectHash => a.text ≤ b.text) ss
    obtain ⟨dek, hdek⟩ : ∃ dek, derive C record
        (split d.pad d.root.bytes (ss.insertionSort fun a b => a.text ≤ b.text)) = .ok dek := by
      rw [derive, hsubjects, canonicalSubjects_perm hperm, hsorted]
      exact ⟨_, rfl⟩
    obtain ⟨ws, t', hws⟩ := sealShares_complete (C := C) (d := d) (t := t) hW
      (fun s => keyPath_containing s ms) (by rw [hsubjects]; exact hperm.nodup_iff.2 hnd)
      fun s hs => hmint s (by rwa [hsubjects, List.mem_insertionSort] at hs)
    refine ⟨⟨d.nonce, Epoch.containing ms, ws, C.gcm dek d.nonce (associatedData C record
      (ss.insertionSort fun a b => a.text ≤ b.text)) plaintext⟩, t', ?_⟩
    rw [«seal», hsorted, ofExcept_ok_bind, hdek, ofExcept_ok_bind, bind_of_ok hws]
    rfl
  · rw [«seal», canonicalSubjects_perm hperm]
    rfl
  · exact opens_sealed ideal hW h hwrapper hread

/-! ## An ideal instance -/

/-- Primitives that keep all they are given in the clear, and check it. -/
def clearCiphers : Ciphers where
  sha256 b := b
  hkdf _ ikm _ := ⟨(ikm ++ List.replicate 32 0).take 32, by simp⟩
  gcm k n a p := k.bytes ++ (n.bytes ++ (List.replicate a.length 1 ++ 0 :: (a ++ p)))
  keyWrap _ b := List.replicate 8 0xA6 ++ b

def clearOpeners : Openers where
  gcmOpen k n a c :=
    let label := k.bytes ++ (n.bytes ++ (List.replicate a.length 1 ++ 0 :: a))
    if label <+: c then some (c.drop label.length) else none
  keyUnwrap _ b := if b.take 8 = List.replicate 8 0xA6 then some (b.drop 8) else none

/-- A length in unary is read back. -/
theorem unary_inj {m m' : ℕ} {x x' : Bytes}
    (h : List.replicate m 1 ++ 0 :: x = List.replicate m' 1 ++ 0 :: x') : m = m' ∧ x = x' := by
  induction m generalizing m' with
  | zero =>
    cases m' with
    | zero => exact ⟨rfl, (List.cons.inj h).2⟩
    | succ m' => simp [List.replicate_succ] at h
  | succ m ih =>
    cases m' with
    | zero => simp [List.replicate_succ] at h
    | succ m' =>
      simp only [List.replicate_succ, List.cons_append, List.cons.injEq, true_and] at h
      obtain ⟨rfl, rfl⟩ := ih h
      exact ⟨rfl, rfl⟩

theorem clear_ideal : Ideal clearCiphers clearOpeners where
  gcm_open k n a p := by
    have hlabel : clearCiphers.gcm k n a p =
        (k.bytes ++ (n.bytes ++ (List.replicate a.length 1 ++ 0 :: a))) ++ p := by
      simp [clearCiphers]
    rw [hlabel]
    simp only [clearOpeners, List.prefix_append, if_true, List.drop_left]
  gcm_only k n a p k' n' a' q h := by
    simp only [clearOpeners, clearCiphers] at h
    split_ifs at h with hprefix
    obtain ⟨x, hx⟩ := hprefix
    simp only [List.append_assoc, List.cons_append] at hx
    obtain ⟨hk, hx⟩ := List.append_inj hx (by rw [k'.length, k.length])
    obtain ⟨hn, hx⟩ := List.append_inj hx (by rw [n'.length, n.length])
    obtain ⟨hlen, hx⟩ := unary_inj hx
    obtain ⟨ha, -⟩ := List.append_inj hx hlen
    refine ⟨?_, ?_, ha⟩
    · cases k'
      cases k
      simpa using hk
    · cases n'
      cases n
      simpa using hn
  keyUnwrap_wrap k s hs := by simp [clearOpeners, clearCiphers]
  length_keyWrap k s := by
    simp only [clearCiphers, List.length_append, List.length_replicate]
    omega
  sha256_injective := fun _ _ h => h

section
set_option maxRecDepth 1000

/-- Two subjects, in descending order. -/
def pair : List SubjectHash :=
  [⟨"s_".toList ++ List.replicate 64 'b', by decide⟩, ⟨"s_".toList ++ List.replicate 64 'a', isSubjectHash_as⟩]

def quietStore : FsKeyStore := ⟨⟨.ok, .ok⟩, 0, fun _ _ => none⟩

def zeroKey : Key := ⟨List.replicate 32 0, length_zeroKey⟩

def zeroDraws : Draws := ⟨zeroKey, fun _ => zeroKey, ⟨List.replicate 12 0, length_zeroNonce⟩, fun _ => zeroKey⟩

theorem seal_unseal_pair :
    ∃ b t', «seal» clearCiphers quietStore zeroDraws ⟨List.replicate 26 '0', by decide⟩ pair
        (Epoch.containing 0) [1, 2, 3] ∅ = (.ok b, t') ∧
      Opens clearCiphers clearOpeners quietStore ⟨List.replicate 26 '0', by decide⟩ pair [1, 2, 3]
        b t' := by
  obtain ⟨-, hanswers, -, hopens⟩ := seal_unseal clear_ideal
    (show quietStore.wrapper.Lawful by
      intro k b h
      obtain rfl := Except.ok.inj h
      rfl) zeroDraws ⟨List.replicate 26 '0', by decide⟩ 0 [1, 2, 3] ∅ pair
  have hmint : ∀ s ∈ pair, quietStore.Mintable zeroDraws (Epoch.containing 0) ∅ s := fun s _ =>
    ⟨AList.notMem_empty _, fun _ => rfl, .inr ⟨rfl, zeroKey.bytes, rfl⟩⟩
  obtain ⟨b, t', h⟩ := hanswers (by decide) (by decide) hmint
  exact ⟨b, t', h, hopens b t' h quietStore rfl fun _ _ => rfl⟩

end

end Yaam.Crypto
