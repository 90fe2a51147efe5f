/-
  Sealing a record to the service's public key (`yaam-crypto`, `envelope.rs`).

  * `seal` writes one envelope, `open` reads one; `Exchange` is what of X25519 they rest
    on;
  * `open_eq_ok`: what an envelope that opens is made of;
  * `envelope_opens`: a sealed entry opens with the service's secret, and under its
    ciphertext no other header, and no other service's secret, opens anything, unless two
    key derivations collide.
-/
import Yaam.Crypto.Shares
import Yaam.Crypto.Unseal

namespace Yaam.Crypto

open Text Contract

/-- X25519: the public half of a secret, and the secret two sides share. -/
structure Exchange where
  publicOf : Key → Key
  diffieHellman : Key → Key → Key
  shared : ∀ a b, diffieHellman a (publicOf b) = diffieHellman b (publicOf a)

namespace Envelope

def KEY_LEN : ℕ := 32
def FORMAT_VERSION : UInt8 := 1
def NONCE_LEN : ℕ := 12
def NONCE_AT : ℕ := 1 + KEY_LEN
def CIPHERTEXT_AT : ℕ := NONCE_AT + NONCE_LEN

def HKDF_SALT : Bytes := ascii "yaam/spool/v1/salt"
def AAD : Bytes := ascii "yaam/spool/v1"

/-- The media type of a sealed body. -/
def CONTENT_TYPE : Text := "application/vnd.yaam.envelope".toList

/-- Checks that a configured key is one X25519 key long. -/
def keyBytes (bytes : Bytes) (what : String) : Except Error Key :=
  if h : bytes.length = 32 then .ok ⟨bytes, h⟩
  else .error (.malformedBlock s!"{what} is {bytes.length} bytes, expected {KEY_LEN}")

theorem length_ephemeral {bs : Bytes} (h : ¬ bs.length < CIPHERTEXT_AT) :
    ((bs.drop 1).take KEY_LEN).length = 32 := by
  simp only [CIPHERTEXT_AT, NONCE_AT, KEY_LEN, NONCE_LEN] at h
  simp only [List.length_take, List.length_drop, KEY_LEN]
  omega

theorem length_nonce {bs : Bytes} (h : ¬ bs.length < CIPHERTEXT_AT) :
    ((bs.drop NONCE_AT).take NONCE_LEN).length = 12 := by
  simp only [CIPHERTEXT_AT, NONCE_AT, KEY_LEN, NONCE_LEN] at h
  simp only [List.length_take, List.length_drop, NONCE_AT, NONCE_LEN, KEY_LEN]
  omega

section
variable (X : Exchange) (C : Ciphers) (O : Openers)

/-- `public_key`. -/
def publicKey (secretKey : Bytes) : Except Error Key := do
  let secret ← keyBytes secretKey "service secret key"
  return X.publicOf secret

/-- The content key, bound to both public keys. -/
def derive (shared ephemeralPublic recipientPublic : Key) : Key :=
  C.hkdf HKDF_SALT shared.bytes (ephemeralPublic.bytes ++ recipientPublic.bytes)

/-- One envelope. -/
def layout (ephemeralPublic : Key) (nonce : Nonce) (ciphertext : Bytes) : Bytes :=
  FORMAT_VERSION :: (ephemeralPublic.bytes ++ (nonce.bytes ++ ciphertext))

/-- Seals to the service's public key, with an ephemeral secret and a nonce drawn for it. -/
def «seal» (ephemeral : Key) (nonce : Nonce) (servicePublicKey plaintext : Bytes) :
    Except Error Bytes := do
  let recipient ← keyBytes servicePublicKey "service public key"
  let ephemeralPublic := X.publicOf ephemeral
  let key := derive C (X.diffieHellman ephemeral recipient) ephemeralPublic recipient
  return layout ephemeralPublic nonce (C.gcm key nonce AAD plaintext)

/-- Opens an envelope with the service's secret key. -/
def «open» (secretKey envelope : Bytes) : Except Error Bytes := do
  let secret ← keyBytes secretKey "service secret key"
  if h : envelope.length < CIPHERTEXT_AT then
    .error (.malformedBlock s!"envelope is {envelope.length} bytes, shorter than its header")
  else if envelope.headD 0 ≠ FORMAT_VERSION then
    .error (.malformedBlock s!"unsupported envelope version `{envelope.headD 0}`")
  else
    let ephemeralPublic : Key := ⟨(envelope.drop 1).take KEY_LEN, length_ephemeral h⟩
    let nonce : Nonce := ⟨(envelope.drop NONCE_AT).take NONCE_LEN, length_nonce h⟩
    let key := derive C (X.diffieHellman secret ephemeralPublic) ephemeralPublic (X.publicOf secret)
    decrypt O key nonce AAD (envelope.drop CIPHERTEXT_AT)

end

/-! ## The layout -/

section
variable {X : Exchange} {C : Ciphers} {O : Openers} {eph eph' secret secret' : Key} {nonce nonce' : Nonce}
  {ct ct' p q envelope : Bytes}

@[simp] theorem keyBytes_bytes (k : Key) (what : String) : keyBytes k.bytes what = .ok k :=
  dif_pos k.length

theorem length_layout : (layout eph nonce ct).length = CIPHERTEXT_AT + ct.length := by
  simp only [layout, List.length_cons, List.length_append, eph.length, nonce.length, CIPHERTEXT_AT,
    NONCE_AT, KEY_LEN, NONCE_LEN]
  omega

theorem drop_layout : (layout eph nonce ct).drop CIPHERTEXT_AT = ct := by
  have hlen : (FORMAT_VERSION :: (eph.bytes ++ nonce.bytes)).length = CIPHERTEXT_AT := by
    simp [eph.length, nonce.length, CIPHERTEXT_AT, NONCE_AT, KEY_LEN, NONCE_LEN]
  have hsplit : layout eph nonce ct = (FORMAT_VERSION :: (eph.bytes ++ nonce.bytes)) ++ ct := by
    simp [layout]
  rw [hsplit, ← hlen, List.drop_left]

/-- **A layout determines its parts.** -/
theorem layout_inj (h : layout eph nonce ct = layout eph' nonce' ct') :
    eph = eph' ∧ nonce = nonce' ∧ ct = ct' := by
  obtain ⟨-, h⟩ := List.cons.inj h
  obtain ⟨he, h⟩ := List.append_inj h (by rw [eph.length, eph'.length])
  obtain ⟨hn, hc⟩ := List.append_inj h (by rw [nonce.length, nonce'.length])
  refine ⟨Key.ext_iff_bytes.1 he, ?_, hc⟩
  cases nonce
  cases nonce'
  simpa using hn

/-- Bytes as long as a header, under the current version, are a layout. -/
theorem exists_layout (hlen : ¬ envelope.length < CIPHERTEXT_AT)
    (hver : envelope.headD 0 = FORMAT_VERSION) :
    envelope = layout ⟨(envelope.drop 1).take KEY_LEN, length_ephemeral hlen⟩
      ⟨(envelope.drop NONCE_AT).take NONCE_LEN, length_nonce hlen⟩ (envelope.drop CIPHERTEXT_AT) := by
  cases envelope with
  | nil => exact absurd (Nat.zero_lt_succ _) hlen
  | cons v rest =>
    obtain rfl : v = FORMAT_VERSION := hver
    have hdrop : rest.drop 44 = (rest.drop 32).drop 12 := by rw [List.drop_drop]
    have hlay : rest = rest.take 32 ++ ((rest.drop 32).take 12 ++ rest.drop 44) := by
      rw [hdrop, List.take_append_drop, List.take_append_drop]
    exact congrArg (List.cons FORMAT_VERSION) hlay

/-- **What an envelope that opens is made of.** -/
theorem open_eq_ok : «open» X C O secret.bytes envelope = .ok p ↔
    ∃ eph nonce ct, envelope = layout eph nonce ct ∧
      O.gcmOpen (derive C (X.diffieHellman secret eph) eph (X.publicOf secret)) nonce AAD ct = some p := by
  have hdecrypt : ∀ k n a c, decrypt O k n a c = .ok p ↔ O.gcmOpen k n a c = some p := by
    intro k n a c
    unfold decrypt
    cases O.gcmOpen k n a c <;> simp
  constructor
  · intro h
    obtain ⟨k, hk, h⟩ := bind_ok.1 h
    obtain rfl := Except.ok.inj ((keyBytes_bytes secret _).symm.trans hk)
    split_ifs at h with hlen hver
    exact ⟨_, _, _, exists_layout hlen (not_not.1 hver), (hdecrypt _ _ _ _).1 h⟩
  · rintro ⟨eph, nonce, ct, rfl, hopen⟩
    have hlen : ¬ (layout eph nonce ct).length < CIPHERTEXT_AT := by
      rw [length_layout]
      omega
    obtain ⟨heph, hnonce, hct⟩ := layout_inj (exists_layout hlen rfl)
    refine bind_ok.2 ⟨secret, keyBytes_bytes _ _, ?_⟩
    have hver : (layout eph nonce ct).headD 0 = FORMAT_VERSION := rfl
    rw [dif_neg hlen, if_neg (not_not.2 hver)]
    dsimp only
    rw [← heph, ← hnonce, ← hct]
    exact (hdecrypt _ _ _ _).2 hopen

theorem seal_eq_ok {recipient : Key} : «seal» X C eph nonce recipient.bytes p = .ok envelope ↔
    envelope = layout (X.publicOf eph) nonce
      (C.gcm (derive C (X.diffieHellman eph recipient) (X.publicOf eph) recipient) nonce AAD p) := by
  rw [«seal», keyBytes_bytes]
  exact ⟨fun h => (Except.ok.inj h).symm, fun h => congrArg Except.ok h.symm⟩

end

/-! ## Opening what was sealed -/

/-- A sealed entry opens with the secret it was sealed for. -/
theorem open_of_seal {X : Exchange} {C : Ciphers} {O : Openers} (ideal : Ideal C O)
    {secret eph : Key} {nonce : Nonce} {p entry : Bytes}
    (h : «seal» X C eph nonce (X.publicOf secret).bytes p = .ok entry) :
    «open» X C O secret.bytes entry = .ok p := by
  obtain rfl := seal_eq_ok.1 h
  refine open_eq_ok.2 ⟨_, _, _, rfl, ?_⟩
  rw [X.shared secret eph]
  exact ideal.gcm_open _ _ _ _

/-- What a content key is derived from. -/
structure Inputs where
  shared : Key
  ephemeralPublic : Key
  recipientPublic : Key

/-- The inputs of the key that a secret opens an entry with. -/
def opening (X : Exchange) (secret ephemeralPublic : Key) : Inputs :=
  ⟨X.diffieHellman secret ephemeralPublic, ephemeralPublic, X.publicOf secret⟩

/-- Two different inputs give one content key. -/
def Collide (C : Ciphers) (i j : Inputs) : Prop :=
  i ≠ j ∧ derive C i.shared i.ephemeralPublic i.recipientPublic =
    derive C j.shared j.ephemeralPublic j.recipientPublic

/-- **Sealing and opening.**  A sealed entry opens with the secret it was sealed for, to
    what was sealed.  Whatever else opens under its ciphertext, with any secret, is the
    entry itself, opened for the same service, unless the inputs of the two keys collide;
    and a key of another length seals and opens nothing. -/
theorem envelope_opens (X : Exchange) {C : Ciphers} {O : Openers} (ideal : Ideal C O)
    (secret eph : Key) (nonce : Nonce) (p : Bytes) :
    ∃ entry, «seal» X C eph nonce (X.publicOf secret).bytes p = .ok entry ∧
      «open» X C O secret.bytes entry = .ok p ∧
      (∀ (secret' : Key) (entry' q : Bytes), entry'.drop CIPHERTEXT_AT = entry.drop CIPHERTEXT_AT →
        «open» X C O secret'.bytes entry' = .ok q →
        (entry' = entry ∧ q = p ∧ X.publicOf secret' = X.publicOf secret) ∨
          ∃ eph', entry' = layout eph' nonce (entry.drop CIPHERTEXT_AT) ∧
            Collide C (opening X secret' eph') (opening X secret (X.publicOf eph))) ∧
      ∀ key : Bytes, key.length ≠ 32 →
        (∀ plaintext, ¬ («seal» X C eph nonce key plaintext).isOk) ∧
          ∀ envelope, ¬ («open» X C O key envelope).isOk := by
  refine ⟨_, seal_eq_ok.2 rfl, open_of_seal ideal (seal_eq_ok.2 rfl), ?_, ?_⟩
  · intro secret' entry' q hct hopen
    obtain ⟨eph', nonce', ct', rfl, hgcm⟩ := open_eq_ok.1 hopen
    rw [drop_layout, drop_layout] at hct
    subst hct
    obtain ⟨hkey, rfl, -⟩ := ideal.gcm_only _ _ _ _ _ _ _ _ hgcm
    rw [X.shared eph secret] at hkey hgcm ⊢
    by_cases hsame : opening X secret' eph' = opening X secret (X.publicOf eph)
    · obtain ⟨-, rfl, hpublic⟩ := Inputs.mk.inj hsame
      rw [hkey, ideal.gcm_open] at hgcm
      exact .inl ⟨rfl, (Option.some.inj hgcm).symm, hpublic⟩
    · exact .inr ⟨eph', by rw [drop_layout], hsame, hkey⟩
  · intro key hlen
    have hkey : ∀ what, ∃ e, keyBytes key what = .error e := fun what => ⟨_, dif_neg hlen⟩
    constructor
    · intro plaintext
      obtain ⟨e, he⟩ := hkey "service public key"
      simp [«seal», he, bind, Except.bind, Except.isOk, Except.toBool]
    · intro envelope
      obtain ⟨e, he⟩ := hkey "service secret key"
      simp [«open», he, bind, Except.bind, Except.isOk, Except.toBool]

/-- An exchange in the clear: the secret two sides share is what their keys differ in. -/
def clearExchange : Exchange where
  publicOf k := k
  diffieHellman := Key.xor
  shared a b := Key.ext_iff_bytes.1 (xor_comm a.bytes b.bytes)

theorem envelope_opens_note : ∃ entry,
    «seal» clearExchange clearCiphers zeroKey ⟨List.replicate 12 0, length_zeroNonce⟩ zeroKey.bytes
      [1, 2, 3] = .ok entry ∧
    «open» clearExchange clearCiphers clearOpeners zeroKey.bytes entry = .ok [1, 2, 3] := by
  obtain ⟨entry, hseal, hopen, -⟩ := envelope_opens clearExchange clear_ideal zeroKey zeroKey
    ⟨List.replicate 12 0, length_zeroNonce⟩ [1, 2, 3]
  exact ⟨entry, hseal, hopen⟩

end Envelope

end Yaam.Crypto
