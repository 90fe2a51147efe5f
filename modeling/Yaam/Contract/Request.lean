/-
  The signed request surface: what a write carries, and what a signature covers
  (`yaam-contract`, `request.rs`).

  * `message` is what is signed: method, request target, agent and body;
  * `message_inj`: no field can be stuffed to look like the next;
  * `SigningKeys.matches_iff`: a tag is accepted under the current key or the one it was
    rolled from, and under no other.
-/
import Yaam.Lib.Framed
import Yaam.Crypto.Block

namespace Yaam.Contract.Request

open Text Utf8

def AGENT_HEADER : Text := "x-yaam-agent".toList
def SIGNATURE_HEADER : Text := "x-yaam-signature".toList

/-- A record and the prose stored as its body. -/
structure WriteRequest where
  record : ActionRecord
  body : Option Text

/-- One caller's signing material. -/
structure SigningKeys where
  current : Bytes
  /-- The key retired by the most recent roll. -/
  previous : Option Bytes
deriving DecidableEq

def SigningKeys.new (current : Bytes) : SigningKeys := ⟨current, none⟩

def SigningKeys.rolledFrom (k : SigningKeys) (previous : Bytes) : SigningKeys :=
  { k with previous := some previous }

/-- The canonical message. -/
def message (method path agent : Text) (body : Bytes) : Bytes :=
  Framed.join 10 [encode method, encode path, encode agent] body

section
variable (hmac : Bytes → Bytes → Bytes)

def tag (key : Bytes) (method path agent : Text) (body : Bytes) : Bytes :=
  hmac key (message method path agent body)

/-- Signs the canonical message, as the signature header carries it. -/
def sign (key : Bytes) (method path agent : Text) (body : Bytes) : Text :=
  Crypto.hexEncode (tag hmac key method path agent body)

def matchesKey (key : Bytes) (method path agent : Text) (body offered : Bytes) : Bool :=
  tag hmac key method path agent body = offered

def SigningKeys.sign (k : SigningKeys) (method path agent : Text) (body : Bytes) : Text :=
  Request.sign hmac k.current method path agent body

/-- Whether a tag is valid under either key. -/
def SigningKeys.matches_ (k : SigningKeys) (method path agent : Text) (body offered : Bytes) : Bool :=
  let current := matchesKey hmac k.current method path agent body offered
  let previous := k.previous.any fun key => matchesKey hmac key method path agent body offered
  current || previous

end

/-! ## What a signature covers -/

/-- The four fields of one message. -/
structure Covered where
  method : Text
  path : Text
  agent : Text
  body : Bytes

/-- The first three cannot hold what closes them. -/
structure Covered.OneLine (c : Covered) : Prop where
  method : '\n' ∉ c.method
  path : '\n' ∉ c.path
  agent : '\n' ∉ c.agent

def Covered.message (c : Covered) : Bytes := Request.message c.method c.path c.agent c.body

/-- **A message determines what it covers.** -/
theorem Covered.message_inj {c c' : Covered} (h : c.OneLine) (h' : c'.OneLine)
    (heq : c.message = c'.message) : c = c' := by
  have hfields : ∀ {d : Covered}, d.OneLine → ∀ f ∈ [encode d.method, encode d.path, encode d.agent],
      (10 : UInt8) ∉ f := by
    intro d hd f hf
    simp only [List.mem_cons, List.not_mem_nil, or_false] at hf
    rcases hf with rfl | rfl | rfl
    · exact newline_notMem_encode hd.method
    · exact newline_notMem_encode hd.path
    · exact newline_notMem_encode hd.agent
  obtain ⟨hf, hbody⟩ := Framed.join_inj (by rfl) (hfields h) (hfields h') heq
  simp only [List.cons.injEq, and_true] at hf
  obtain ⟨hmethod, hpath, hagent⟩ := hf
  cases c
  cases c'
  simp only [Covered.mk.injEq]
  exact ⟨encode_inj hmethod, encode_inj hpath, encode_inj hagent, hbody⟩

/-- The keys a tag is accepted under. -/
def SigningKeys.accepted (k : SigningKeys) : List Bytes := k.current :: k.previous.toList

theorem SigningKeys.matches_iff {hmac : Bytes → Bytes → Bytes} {k : SigningKeys}
    {method path agent : Text} {body offered : Bytes} :
    k.matches_ hmac method path agent body offered = true ↔
      ∃ key ∈ k.accepted, tag hmac key method path agent body = offered := by
  simp only [matches_, matchesKey, accepted, Bool.or_eq_true, decide_eq_true_eq, Option.any_eq_true,
    List.mem_cons, Option.mem_toList, exists_eq_or_imp]

end Yaam.Contract.Request
