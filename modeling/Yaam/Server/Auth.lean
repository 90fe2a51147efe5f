/-
  Request authentication and write attribution (`yaam-server`, `auth.rs` and `error.rs`).

  * `verify` resolves the caller a request's signature proves; `Caller.scope` is what it
    may read, `authoriseWrite`, `authoriseClass` and `requireRole` what it may do;
  * `verify_eq_ok`: a caller is verified exactly under a key of its own credential;
  * `signature_covers_request`: a signature made for one request verifies no other.
-/
import Yaam.Contract.Request
import Yaam.Core.Store
import Yaam.Index.Query

namespace Yaam.Server

open Text Contract Contract.Request Crypto Index

/-! ## Failures -/

/-- The statuses the service answers with. -/
inductive Status where
  | ok
  | created
  | accepted
  | badRequest
  | unauthorized
  | forbidden
  | notFound
  | methodNotAllowed
  | conflict
  | unprocessableEntity
  | internalServerError
  | serviceUnavailable
deriving DecidableEq

def Status.code : Status → ℕ
  | .ok => 200
  | .created => 201
  | .accepted => 202
  | .badRequest => 400
  | .unauthorized => 401
  | .forbidden => 403
  | .notFound => 404
  | .methodNotAllowed => 405
  | .conflict => 409
  | .unprocessableEntity => 422
  | .internalServerError => 500
  | .serviceUnavailable => 503

/-- What a request can fail with. -/
inductive Error where
  | unauthenticated
  | forbidden (detail : String)
  | unprocessable (detail : String)
  | unavailable (detail : String)
  | core (e : Core.Error)
  /-- A core failure too: of the index, under a read. -/
  | index (e : QueryError)

def coreStatus : Core.Error → Status
  | .invalid _ => .unprocessableEntity
  | .subjectUnresolved => .serviceUnavailable
  | .held _ _ => .conflict
  | _ => .internalServerError

def Error.status : Error → Status
  | .unauthenticated => .unauthorized
  | .forbidden _ => .forbidden
  | .unprocessable _ => .unprocessableEntity
  | .unavailable _ => .serviceUnavailable
  | .core e => coreStatus e
  | .index _ => .internalServerError

/-! ## Callers -/

/-- Capability level. -/
inductive Role where
  | reader
  | writer
  | operator
deriving DecidableEq

/-- Position in the ladder. -/
def Role.rank : Role → ℕ
  | .reader => 0
  | .writer => 1
  | .operator => 2

/-- Whether this role covers everything `needed` allows. -/
def Role.covers (r needed : Role) : Bool := needed.rank ≤ r.rank

/-- A verified caller. -/
structure Caller where
  agent : Text
  role : Role
  teams : List Text
  filesSubjectDerived : Bool
deriving DecidableEq

/-- What this caller may read. -/
def Caller.scope (c : Caller) : Scope :=
  let visibility := [Visibility.org, .team, .owner] ++
    if c.role.covers .operator then [.operator] else []
  .caller visibility c.agent c.teams

/-- One caller's signing material, capability and read scope. -/
structure Credential where
  agent : Text
  role : Role
  keys : SigningKeys
  teams : List Text
  filesSubjectDerived : Bool

def Credential.new (agent : Text) (role : Role) (currentKey : Bytes) : Credential :=
  ⟨agent, role, .new currentKey, [], false⟩

/-- The caller a credential authenticates. -/
def Credential.caller (c : Credential) : Caller := ⟨c.agent, c.role, c.teams, c.filesSubjectDerived⟩

/-- The callers a service will authenticate: one credential for an agent. -/
structure Keyring where
  credentials : List Credential
  byAgent : (credentials.map (·.agent)).Nodup

def Keyring.new : Keyring := ⟨[], List.nodup_nil⟩

/-- The credential for an agent. -/
def Keyring.credential (K : Keyring) (agent : Text) : Option Credential :=
  K.credentials.find? (·.agent = agent)

/-- Adds a credential, replacing any credential for the same agent. -/
def Keyring.with_ (K : Keyring) (c : Credential) : Keyring where
  credentials := c :: K.credentials.filter (·.agent ≠ c.agent)
  byAgent := by
    rw [List.map_cons, List.nodup_cons]
    refine ⟨fun h => ?_, K.byAgent.sublist (List.filter_sublist.map _)⟩
    obtain ⟨d, hd, heq⟩ := List.mem_map.1 h
    exact of_decide_eq_true (List.mem_filter.1 hd).2 heq

theorem Keyring.credential_eq_some {K : Keyring} {agent : Text} {c : Credential} :
    K.credential agent = some c ↔ c ∈ K.credentials ∧ c.agent = agent := by
  constructor
  · intro h
    exact ⟨List.mem_of_find?_eq_some h, by simpa using List.find?_some h⟩
  · rintro ⟨hc, rfl⟩
    cases hfind : K.credential c.agent with
    | none => exact absurd (List.find?_eq_none.1 hfind c hc) (by simp)
    | some d =>
      have hd : d.agent = c.agent := by simpa using List.find?_some hfind
      rw [List.inj_on_of_nodup_map K.byAgent (List.mem_of_find?_eq_some hfind) hc hd]

/-! ## Verifying -/

/-- The request's headers, each name in lower case, in the order they came. -/
abbrev HeaderMap := List (Text × Bytes)

/-- `HeaderValue::to_str` accepts visible ASCII, blanks and tabs. -/
def isVisibleAscii (b : UInt8) : Bool := (32 ≤ b && b < 127) || b = 9

/-- A header as text. -/
def headerText (headers : HeaderMap) (name : Text) : Option Text :=
  ((headers.lookup name).filter (·.all isVisibleAscii)).map (·.map fun b => Char.ofNat b.toNat)

/-- Reads a header, treating anything missing or not ASCII as unauthenticated. -/
def header (headers : HeaderMap) (name : Text) : Except Error Text :=
  match headerText headers name with
  | some value => .ok value
  | none => .error .unauthenticated

/-- A request as it arrived; its first line is one line. -/
structure HttpRequest where
  method : Text
  /-- The request target, query string and all. -/
  target : Text
  headers : HeaderMap
  body : Bytes
  method_line : '\n' ∉ method
  target_line : '\n' ∉ target

section
variable (hmac : Bytes → Bytes → Bytes)

/-- Verifies a signature over the request and resolves the caller. -/
def verify (K : Keyring) (method path : Text) (headers : HeaderMap) (body : Bytes) :
    Except Error Caller := do
  let agent ← header headers AGENT_HEADER
  match hexDecode (← header headers SIGNATURE_HEADER) with
  | none => .error .unauthenticated
  | some offered => match K.credential agent with
    | none => .error .unauthenticated
    | some credential =>
      if credential.keys.matches_ hmac method path agent body offered then .ok credential.caller
      else .error .unauthenticated

end

/-- Rejects a write that attributes a record to an agent other than the caller. -/
def authoriseWrite (caller : Caller) (recordAgent : Text) : Except Error Unit := do
  refuseIf (caller.role.covers .writer = false)
    (.forbidden s!"`{String.ofList caller.agent}` may read but not write")
  refuseIf (caller.agent ≠ recordAgent)
    (.forbidden (s!"`{String.ofList caller.agent}` may not attribute a record to " ++
      s!"`{String.ofList recordAgent}`"))

/-- Rejects a write whose class this caller was not granted. -/
def authoriseClass (caller : Caller) (cls : DataClass) : Except Error Unit :=
  refuseIf (¬ (cls = .internal ∨ caller.filesSubjectDerived))
    (.forbidden (s!"`{String.ofList caller.agent}` may not file " ++
      s!"`{String.ofList (Md.dataClassName cls)}` records: its keyring entry carries no such grant. " ++
      "That class seals the body under a key that can be destroyed and files a subject linkage " ++
      "this store has no way to correct -- there is no re-key and no delete -- so which callers " ++
      "may claim it is the deployment's decision and not a field of the record"))

/-- Rejects a caller whose role does not cover `needed`. -/
def requireRole (caller : Caller) (needed : Role) : Except Error Unit :=
  refuseIf (caller.role.covers needed = false)
    (.forbidden s!"`{String.ofList caller.agent}` is not permitted this operation")

theorem authoriseWrite_ok {caller : Caller} {agent : Text} {u : Unit}
    (h : authoriseWrite caller agent = .ok u) :
    caller.role.covers .writer = true ∧ caller.agent = agent := by
  obtain ⟨_, hrole, hagent⟩ := bind_ok.1 h
  exact ⟨by simpa using refuseIf_ok.1 hrole, not_not.1 (refuseIf_ok.1 hagent)⟩

theorem authoriseClass_ok {caller : Caller} {cls : DataClass} {u : Unit}
    (h : authoriseClass caller cls = .ok u) : cls = .internal ∨ caller.filesSubjectDerived = true :=
  not_not.1 (refuseIf_ok.1 h)

theorem requireRole_ok {caller : Caller} {needed : Role} {u : Unit}
    (h : requireRole caller needed = .ok u) : caller.role.covers needed = true := by
  simpa using refuseIf_ok.1 h

/-! ## What a signature proves -/

section
variable {hmac : Bytes → Bytes → Bytes} {K : Keyring} {r : HttpRequest} {caller : Caller}

theorem header_eq_ok {headers : HeaderMap} {name value : Text} :
    header headers name = .ok value ↔ headerText headers name = some value := by
  unfold header
  cases headerText headers name <;> simp

theorem visible_ne_newline : ∀ n < 127, 32 ≤ n → Char.ofNat n ≠ '\n' := by decide

/-- A header's text is one line. -/
theorem newline_notMem_headerText {headers : HeaderMap} {name value : Text}
    (h : headerText headers name = some value) : '\n' ∉ value := by
  obtain ⟨bytes, hbytes, rfl⟩ := Option.map_eq_some_iff.1 h
  obtain ⟨-, hvisible⟩ := Option.filter_eq_some_iff.1 hbytes
  intro hmem
  obtain ⟨b, hb, hnl⟩ := List.mem_map.1 hmem
  have hvis : isVisibleAscii b = true := List.all_eq_true.1 hvisible b hb
  simp only [isVisibleAscii, Bool.or_eq_true, Bool.and_eq_true, decide_eq_true_eq] at hvis
  rcases hvis with ⟨h32, h127⟩ | rfl
  · have h1 : 32 ≤ b.toNat := h32
    have h2 : b.toNat < 127 := h127
    exact visible_ne_newline b.toNat h2 h1 hnl
  · exact absurd hnl (by decide)

theorem toNat_ofNat_visible {c : Char} (h : c.toNat < 127) : (UInt8.ofNat c.toNat).toNat = c.toNat :=
  Nat.mod_eq_of_lt (lt_trans h (by decide))

theorem encode_visible {value : Text} (h : ∀ c ∈ value, 32 ≤ c.toNat ∧ c.toNat < 127) :
    Utf8.encode value = value.map fun c => UInt8.ofNat c.toNat :=
  Utf8.encode_ascii fun c hc => lt_trans (h c hc).2 (by decide)

theorem all_isVisibleAscii {value : Text} (h : ∀ c ∈ value, 32 ≤ c.toNat ∧ c.toNat < 127) :
    (Utf8.encode value).all isVisibleAscii = true := by
  rw [encode_visible h, List.all_map, List.all_eq_true]
  intro c hc
  obtain ⟨h32, h127⟩ := h c hc
  have hle : (32 : UInt8) ≤ UInt8.ofNat c.toNat := by
    rw [UInt8.le_iff_toNat_le, toNat_ofNat_visible h127]
    exact h32
  have hlt : UInt8.ofNat c.toNat < 127 := by
    rw [UInt8.lt_iff_toNat_lt, toNat_ofNat_visible h127]
    exact h127
  simp [isVisibleAscii, hle, hlt]

/-- A header of visible characters reads as the text that was sent. -/
theorem headerText_encode {headers : HeaderMap} {name value : Text}
    (h : headers.lookup name = some (Utf8.encode value))
    (hvisible : ∀ c ∈ value, 32 ≤ c.toNat ∧ c.toNat < 127) : headerText headers name = some value := by
  have hback : ((Utf8.encode value).map fun b => Char.ofNat b.toNat) = value := by
    rw [encode_visible hvisible, List.map_map]
    refine (List.map_congr_left fun c hc => ?_).trans (List.map_id value)
    simp only [Function.comp_apply, toNat_ofNat_visible (hvisible c hc).2, Char.ofNat_toNat, id_eq]
  simp only [headerText, h, Option.filter_some, all_isVisibleAscii hvisible, if_true, Option.map_some, hback]

/-- What a request's signature has to cover, for a caller that names itself so. -/
def HttpRequest.covered (r : HttpRequest) (agent : Text) : Covered := ⟨r.method, r.target, agent, r.body⟩

/-- The request carries a tag over itself, under a key of this credential. -/
def HttpRequest.SignedUnder (hmac : Bytes → Bytes → Bytes) (r : HttpRequest) (c : Credential) (key : Bytes) :
    Prop :=
  key ∈ c.keys.accepted ∧ headerText r.headers AGENT_HEADER = some c.agent ∧
    ∃ signature, headerText r.headers SIGNATURE_HEADER = some signature ∧
      hexDecode signature = some (hmac key (r.covered c.agent).message)

/-- **A caller is verified exactly under a key of its own credential.** -/
theorem verify_eq_ok : verify hmac K r.method r.target r.headers r.body = .ok caller ↔
    ∃ c ∈ K.credentials, caller = c.caller ∧ ∃ key, r.SignedUnder hmac c key := by
  constructor
  · intro h
    obtain ⟨agent, hagent, h₁⟩ := bind_ok.1 h
    obtain ⟨signature, hsignature, h₂⟩ := bind_ok.1 h₁
    rw [header_eq_ok] at hagent hsignature
    cases hoffered : hexDecode signature with
    | none => simp [hoffered] at h₂
    | some offered =>
      cases hcred : K.credential agent with
      | none => simp [hoffered, hcred] at h₂
      | some c =>
        simp only [hoffered, hcred] at h₂
        split_ifs at h₂ with hmatch
        obtain ⟨hc, rfl⟩ := Keyring.credential_eq_some.1 hcred
        obtain ⟨key, hkey, rfl⟩ := SigningKeys.matches_iff.1 hmatch
        exact ⟨c, hc, (Except.ok.inj h₂).symm, key, hkey, hagent, signature, hsignature, hoffered⟩
  · rintro ⟨c, hc, rfl, key, hkey, hagent, signature, hsignature, hoffered⟩
    refine bind_ok.2 ⟨_, header_eq_ok.2 hagent, bind_ok.2 ⟨_, header_eq_ok.2 hsignature, ?_⟩⟩
    have hmatch : c.keys.matches_ hmac r.method r.target c.agent r.body
        (hmac key (r.covered c.agent).message) = true := SigningKeys.matches_iff.2 ⟨key, hkey, rfl⟩
    simp only [hoffered, Keyring.credential_eq_some.2 ⟨hc, rfl⟩]
    exact if_pos hmatch

theorem covered_oneLine {agent : Text} (h : headerText r.headers AGENT_HEADER = some agent) :
    (r.covered agent).OneLine :=
  ⟨r.method_line, r.target_line, newline_notMem_headerText h⟩

/-- **A signature covers the whole request.**  A request is answered as a caller exactly
    when it carries a tag over its own method, target, agent and body, under the current
    or the previous key of that agent's credential.  A signature that was made for another
    request, under any key, does not verify this one, unless the two messages' tags
    collide. -/
theorem signature_covers_request (hmac : Bytes → Bytes → Bytes) (K : Keyring) (r : HttpRequest)
    (caller : Caller) :
    (verify hmac K r.method r.target r.headers r.body = .ok caller ↔
      ∃ c ∈ K.credentials, caller = c.caller ∧ ∃ key, r.SignedUnder hmac c key) ∧
    ∀ (key : Bytes) (signed : Covered), signed.OneLine →
      headerText r.headers SIGNATURE_HEADER =
        some (sign hmac key signed.method signed.path signed.agent signed.body) →
      verify hmac K r.method r.target r.headers r.body = .ok caller →
      signed = r.covered caller.agent ∨ ∃ c ∈ K.credentials, ∃ key' ∈ c.keys.accepted,
        signed.message ≠ (r.covered c.agent).message ∧
          hmac key signed.message = hmac key' (r.covered c.agent).message := by
  refine ⟨verify_eq_ok, fun key signed hline hsigned hok => ?_⟩
  obtain ⟨c, hc, rfl, key', hkey, hagent, signature, hsignature, hoffered⟩ := verify_eq_ok.1 hok
  obtain rfl := Option.some.inj (hsigned.symm.trans hsignature)
  rw [sign, hexDecode_hexEncode] at hoffered
  by_cases hmessage : signed.message = (r.covered c.agent).message
  · exact .inl (Covered.message_inj hline (covered_oneLine hagent) hmessage)
  · exact .inr ⟨c, hc, key', hkey, hmessage, Option.some.inj hoffered⟩

end

end Yaam.Server
