/-
  Talking to the service (`yaam-agent`, `upstream.rs`), and the service that answers.

  * `classify` tells a refusal from a failure that may pass;
  * `Upstream.attempt` signs one write, sends it and reads its verdict; `deliver` is an
    attempt at a service, over a line that may break;
  * `verdicts_are_true`: what each verdict says of the store, and of sending again;
  * `delivered_is_filed`: what a sidecar vetted, masked, sealed, signed and sent is what
    the pipeline is given.
-/
import Yaam.Agent.Spool
import Yaam.Contract.Extract
import Yaam.Server.Writes

namespace Yaam.Agent

open Text Utf8 Contract Crypto Eff
open Contract.Request (WriteRequest SigningKeys AGENT_HEADER SIGNATURE_HEADER)
open Server (AppState HttpRequest Surroundings Response Status serve answerOf headerText contentType)
open Core (Store OnlyKeys Remains destination)

/-- Path a record is posted to. -/
def RECORDS_PATH : Text := "/records".toList

/-- Method a record is posted with. -/
def WRITE_METHOD : Text := "POST".toList

/-- Bytes of an error response quoted back to the caller. -/
def REASON_LIMIT : ℕ := 200

/-! ## Verdicts -/

/-- A short, single-line quote of an error response. -/
def snippet (bytes : Bytes) : Text :=
  joinWith ' ' (splitWhitespace (decodeLossy (bytes.take REASON_LIMIT)))

section
variable (canonicalReason : ℕ → Option Text)

/-- How a status reads. -/
def statusText (status : ℕ) : Text :=
  padNat 0 status ++ ' ' :: (canonicalReason status).getD "<unknown status code>".toList

/-- Maps a status to an outcome. -/
def classify (status : ℕ) (reason : Bytes) : Except AgentError Unit :=
  if 200 ≤ status ∧ status < 300 then .ok ()
  else if status = 429 ∨ (500 ≤ status ∧ status < 600) then .error .spooled
  else .error (.rejected (statusText canonicalReason status ++ ": ".toList ++ snippet reason))

end

/-! ## One write request -/

/-- Where one request goes, and the target it names once it gets there. -/
structure Endpoint where
  authority : Text
  target : Text
  line : '\n' ∉ target

/-- Where and how to reach the service. -/
structure Upstream where
  servicePublicKey : Bytes
  /-- Signing material, one entry for each caller identity. -/
  credentials : AList fun _ : Text => SigningKeys
  /-- A path against the base URL, or why there is none. -/
  endpoint : Text → Except Text Endpoint

/-- Whether a header value may hold this byte. -/
def isHeaderByte (b : UInt8) : Bool := (32 ≤ b && b ≠ 127) || b = 9

/-- The request of one write, signed. -/
def Endpoint.post (endpoint : Endpoint) (hmac : Bytes → Bytes → Bytes) (keys : SigningKeys)
    (agent : Text)
    (body : Bytes) : Except AgentError HttpRequest :=
  if (encode agent).all isHeaderByte then .ok {
    method := WRITE_METHOD
    target := endpoint.target
    headers := [("host".toList, encode endpoint.authority), (contentType, encode Envelope.CONTENT_TYPE),
      (AGENT_HEADER, encode agent),
      (SIGNATURE_HEADER, encode (keys.sign hmac WRITE_METHOD endpoint.target agent body))]
    body
    method_line := by decide
    target_line := endpoint.line }
  else .error (.rejected "unbuildable request: failed to parse header value".toList)

namespace Upstream

variable (U : Upstream) (hmac : Bytes → Bytes → Bytes)

def keys (agent : Text) : Except AgentError SigningKeys :=
  match U.credentials.lookup agent with
  | some keys => .ok keys
  | none => .error (.rejected ("no signing credential configured for `".toList ++ agent ++ "`".toList))

/-- One write request, from connect to classified outcome. What sends it reports a
    failure on the way as `spooled`. -/
def attempt {σ : Type} (canonicalReason : ℕ → Option Text)
    (connect : Eff σ AgentError (HttpRequest → Eff σ AgentError (ℕ × Bytes))) (agent : Text)
    (body : Bytes) : Eff σ AgentError Unit := do
  let keys ← ofExcept (U.keys agent)
  let endpoint ← ofExcept ((U.endpoint RECORDS_PATH).mapError .rejected)
  let send ← connect
  let request ← ofExcept (endpoint.post hmac keys agent body)
  let response ← send request
  ofExcept (classify canonicalReason response.1 response.2)

/-- What one write comes to on the wire. -/
def request (agent : Text) (body : Bytes) : Except AgentError HttpRequest := do
  let keys ← U.keys agent
  let endpoint ← (U.endpoint RECORDS_PATH).mapError .rejected
  endpoint.post hmac keys agent body

end Upstream

/-- How far the line carries one attempt. -/
inductive Line where
  | down
  /-- The request arrives, and its answer does not, or not in time. -/
  | lost
  | up

section
variable (A : AppState) (canonicalReason : ℕ → Option Text) (reasonOf : Response → Bytes)

/-- A line to the service. -/
def Line.connect (at_ : Surroundings) : Line →
    Eff Store AgentError (HttpRequest → Eff Store AgentError (ℕ × Bytes))
  | .down => fail .spooled
  | .lost => pure fun r σ => (.error .spooled, (serve A at_ r σ).2)
  | .up => pure fun r σ =>
    (.ok ((serve A at_ r σ).1.status.code, reasonOf (serve A at_ r σ).1), (serve A at_ r σ).2)

/-- One attempt at a service. -/
def deliver (U : Upstream) (at_ : Surroundings) (line : Line) (agent : Text) (body : Bytes) :
    Eff Store AgentError Unit :=
  U.attempt A.hmac canonicalReason (line.connect A reasonOf at_) agent body

end

/-! ## What an attempt can do -/

section
variable {A : AppState} {U : Upstream} {canonicalReason : ℕ → Option Text}
    {reasonOf : Response → Bytes}
  {at_ : Surroundings} {line : Line} {agent : Text} {body : Bytes} {σ σ' : Store}
  {v : Except AgentError Unit}

theorem classify_cases (f : ℕ → Option Text) (status : ℕ) (reason : Bytes) :
    classify f status reason = .ok () ∨ classify f status reason = .error .spooled ∨
      ∃ why, classify f status reason = .error (.rejected why) := by
  unfold classify
  split_ifs
  · exact .inl rfl
  · exact .inr (.inl rfl)
  · exact .inr (.inr ⟨_, rfl⟩)

theorem isSuccess_of_classify {s : Status} {reason : Bytes}
    (h : classify canonicalReason s.code reason = .ok ()) : s.isSuccess = true := by
  cases s <;> simp_all [classify, Status.code, Status.isSuccess]

theorem isClientError_of_classify {s : Status} {reason : Bytes} {why : Text}
    (h : classify canonicalReason s.code reason = .error (.rejected why)) :
    s.isClientError = true := by
  cases s <;> simp_all [classify, Status.code, Status.isClientError]

theorem keys_error {e : AgentError} (h : U.keys agent = .error e) : ∃ why, e = .rejected why := by
  unfold Upstream.keys at h
  cases hk : U.credentials.lookup agent with
  | some keys => simp [hk] at h
  | none =>
    simp only [hk, Except.error.injEq] at h
    exact ⟨_, h.symm⟩

theorem post_error {endpoint : Endpoint} {hmac : Bytes → Bytes → Bytes} {keys : SigningKeys}
    {e : AgentError} (h : endpoint.post hmac keys agent body = .error e) :
    ∃ why, e = .rejected why := by
  unfold Endpoint.post at h
  split_ifs at h
  exact ⟨_, (Except.error.inj h).symm⟩

/-- **What an attempt can do**: end before anything is sent, or send the one request there
    is and be told what became of it, or not. -/
theorem deliver_cases (h : deliver A canonicalReason reasonOf U at_ line agent body σ = (v, σ')) :
    (σ' = σ ∧ (v = .error .spooled ∨
      (∃ why, v = .error (.rejected why)) ∧ ∃ e, U.request A.hmac agent body = .error e)) ∨
    ∃ r, U.request A.hmac agent body = .ok r ∧ σ' = (serve A at_ r σ).2 ∧
      (v = .error .spooled ∨ v = classify canonicalReason (serve A at_ r σ).1.status.code
        (reasonOf (serve A at_ r σ).1)) := by
  unfold deliver Upstream.attempt at h
  unfold Upstream.request
  cases hkeys : U.keys agent with
  | error e =>
    obtain ⟨why, rfl⟩ := keys_error hkeys
    rw [hkeys, ofExcept_error_bind] at h
    obtain ⟨rfl, rfl⟩ := Prod.mk.inj h
    exact .inl ⟨rfl, .inr ⟨⟨why, rfl⟩, _, rfl⟩⟩
  | ok keys =>
  rw [hkeys, ofExcept_ok_bind] at h
  cases hendpoint : U.endpoint RECORDS_PATH with
  | error why =>
    rw [hendpoint] at h
    obtain ⟨rfl, rfl⟩ := Prod.mk.inj h
    exact .inl ⟨rfl, .inr ⟨⟨why, rfl⟩, _, rfl⟩⟩
  | ok endpoint =>
  rw [hendpoint, show Except.mapError AgentError.rejected (.ok endpoint) = .ok endpoint from rfl,
    ofExcept_ok_bind] at h
  cases hpost : endpoint.post A.hmac keys agent body with
  | error e =>
    obtain ⟨why, rfl⟩ := post_error hpost
    rw [hpost] at h
    refine .inl ?_
    cases line with
    | down =>
      obtain ⟨rfl, rfl⟩ := Prod.mk.inj h
      exact ⟨rfl, .inl rfl⟩
    | _ =>
      obtain ⟨rfl, rfl⟩ := Prod.mk.inj h
      exact ⟨rfl, .inr ⟨⟨why, rfl⟩, _, hpost⟩⟩
  | ok r =>
    rw [hpost] at h
    cases line with
    | down =>
      obtain ⟨rfl, rfl⟩ := Prod.mk.inj h
      exact .inl ⟨rfl, .inl rfl⟩
    | lost =>
      obtain ⟨rfl, rfl⟩ := Prod.mk.inj h
      exact .inr ⟨r, hpost, rfl, .inl rfl⟩
    | up =>
      obtain ⟨rfl, rfl⟩ := Prod.mk.inj h
      exact .inr ⟨r, hpost, rfl, .inr rfl⟩

/-! ## What a verdict says -/

/-- The record that this body carries, when its agent posts it. -/
def Carried (A : AppState) (U : Upstream) (agent : Text) (body : Bytes) (request : WriteRequest) : Prop :=
  ∃ r caller, U.request A.hmac agent body = .ok r ∧ A.authenticate r = .ok caller ∧
    A.admitted caller r = .ok request

/-- The service has the record: in the tree at its place, or held back on the way. -/
def Taken (A : AppState) (U : Upstream) (agent : Text) (body : Bytes) (σ : Store) : Prop :=
  ∃ request dest, Carried A U agent body request ∧ destination request.record = .ok dest ∧
    Remains A.service.pipeline request.record.recordId dest σ

/-- A record stands in the tree where this one is filed. -/
def Occupied (A : AppState) (U : Upstream) (agent : Text) (body : Bytes) (σ : Store) : Prop :=
  ∃ request dest, Carried A U agent body request ∧ destination request.record = .ok dest ∧ dest ∈ σ.records

/-- No attempt, at any store, does anything, nor is it accepted but as the duplicate of a
    record that stands in its place. -/
def Refused (A : AppState) (canonicalReason : ℕ → Option Text) (reasonOf : Response → Bytes)
    (U : Upstream) (agent : Text) (body : Bytes) : Prop :=
  ∀ at_ line σ, (deliver A canonicalReason reasonOf U at_ line agent body σ).2 = σ ∧
    ((deliver A canonicalReason reasonOf U at_ line agent body σ).1 = .ok () →
      Occupied A U agent body σ)

/-- What the service acknowledges, it has. -/
theorem taken_of_success (hY : A.service.pipeline.yaml.Inverts) {r : HttpRequest}
    (hroute : A.route r.method r.target = .ok .writeRecord)
    (hr : U.request A.hmac agent body = .ok r)
    (h : (serve A at_ r σ).1.status.isSuccess = true) :
    Taken A U agent body (serve A at_ r σ).2 := by
  obtain ⟨caller, request, dest, hauth, hadmitted, hdest, hremains⟩ := Server.serve_remains hY hroute h
  exact ⟨request, dest, ⟨r, caller, hr, hauth, hadmitted⟩, hdest, hremains⟩

/-- What is sent is sent to the endpoint. -/
theorem request_target {r : HttpRequest} (hr : U.request A.hmac agent body = .ok r) :
    ∃ endpoint, U.endpoint RECORDS_PATH = .ok endpoint ∧ r.method = WRITE_METHOD ∧
      r.target = endpoint.target := by
  obtain ⟨keys, -, hr⟩ := bind_ok.1 hr
  obtain ⟨endpoint, hendpoint, hr⟩ := bind_ok.1 hr
  unfold Endpoint.post at hr
  split_ifs at hr
  obtain rfl := Except.ok.inj hr
  exact ⟨endpoint, Core.mapError_ok.1 hendpoint, rfl, rfl⟩

/-- The records of a pipeline are read as they were rendered, and the endpoint that records
    are posted to is the one that files them. -/
structure Routed (A : AppState) (U : Upstream) : Prop where
  inverts : A.service.pipeline.yaml.Inverts
  route : ∀ endpoint, U.endpoint RECORDS_PATH = .ok endpoint →
    A.route WRITE_METHOD endpoint.target = .ok .writeRecord

theorem Routed.write (h : Routed A U) {r : HttpRequest} (hr : U.request A.hmac agent body = .ok r) :
    A.route r.method r.target = .ok .writeRecord := by
  obtain ⟨endpoint, hendpoint, hmethod, htarget⟩ := request_target hr
  rw [hmethod, htarget]
  exact h.route endpoint hendpoint

theorem Routed.taken_of_ok (h : Routed A U)
    (hok : deliver A canonicalReason reasonOf U at_ line agent body σ = (.ok (), σ')) :
    Taken A U agent body σ' := by
  rcases deliver_cases hok with ⟨-, hv | ⟨⟨why, hv⟩, -⟩⟩ | ⟨r, hr, rfl, hv | hv⟩
  · cases hv
  · cases hv
  · cases hv
  · exact taken_of_success h.inverts (h.write hr) hr (isSuccess_of_classify hv.symm)

theorem Routed.refused_of_rejected (h : Routed A U) {why : Text}
    (hrejected : deliver A canonicalReason reasonOf U at_ line agent body σ =
      (.error (.rejected why), σ')) :
    σ' = σ ∧ Refused A canonicalReason reasonOf U agent body := by
  rcases deliver_cases hrejected with ⟨rfl, hv | ⟨-, e, he⟩⟩ | ⟨r, hr, rfl, hv | hv⟩
  · cases hv
  · -- nothing is ever sent
    refine ⟨rfl, fun at' line' τ => ?_⟩
    rcases hagain : deliver A canonicalReason reasonOf U at' line' agent body τ with ⟨w, τ'⟩
    rcases deliver_cases hagain with ⟨rfl, rfl | ⟨⟨why, rfl⟩, -⟩⟩ | ⟨r, hr, -⟩
    · exact ⟨rfl, fun h => by cases h⟩
    · exact ⟨rfl, fun h => by cases h⟩
    · rw [he] at hr
      cases hr
  · cases hv
  · obtain ⟨hσ, hrefused⟩ :=
      Server.refused_write_is_refused (h.write hr) (isClientError_of_classify hv.symm)
    refine ⟨hσ, fun at' line' τ => ?_⟩
    rcases hagain : deliver A canonicalReason reasonOf U at' line' agent body τ with ⟨w, τ'⟩
    rcases deliver_cases hagain with ⟨rfl, rfl | ⟨⟨why, rfl⟩, -⟩⟩ | ⟨r', hr', rfl, hw⟩
    · exact ⟨rfl, fun h => by cases h⟩
    · exact ⟨rfl, fun h => by cases h⟩
    obtain rfl := Except.ok.inj (hr.symm.trans hr')
    rcases hrefused at' τ with hsame | ⟨caller, request, dest, hauth, hadmitted, hdest, hmem, hdup⟩
    · refine ⟨by rw [hsame], fun (hok : w = .ok ()) => ?_⟩
      subst hok
      rw [hsame, ← hv] at hw
      rcases hw with hw | hw <;> cases hw
    · exact ⟨by rw [hdup], fun _ => ⟨request, dest, ⟨r, caller, hr, hauth, hadmitted⟩, hdest, hmem⟩⟩

theorem deliver_verdict
    (hdeliver : deliver A canonicalReason reasonOf U at_ line agent body σ = (v, σ')) :
    v = .ok () ∨ v = .error .spooled ∨ ∃ why, v = .error (.rejected why) := by
  rcases deliver_cases hdeliver with ⟨-, hv | ⟨hv, -⟩⟩ | ⟨r, -, -, hv | rfl⟩
  · exact .inr (.inl hv)
  · exact .inr (.inr hv)
  · exact .inr (.inl hv)
  · exact classify_cases _ _ _

end

/-- Seals one record's request, as the JSON of it, to the service's public key. -/
def Upstream.sealing (U : Upstream) (X : Exchange) (C : Ciphers) (draws : ℕ → Key × Nonce)
    (toVec : WriteRequest → Except Text Bytes) (record : ActionRecord) (nonce : ℕ) :
    Except AgentError Bytes := do
  let body ← (toVec ⟨record, none⟩).mapError fun e => .rejected ("unserialisable record: ".toList ++ e)
  (Envelope.«seal» X C (draws nonce).1 (draws nonce).2 U.servicePublicKey body).mapError
    fun e => .crypto e.display.toList

/-- A sidecar and a service that were given each other's keys, and what they rest on: the
    primitives, the router, and the JSON of what is sent. -/
structure Paired (A : AppState) (U : Upstream) (S : Setup) (draws : ℕ → Key × Nonce)
    (toVec : WriteRequest → Except Text Bytes) : Prop where
  sealing : S.sealing = U.sealing A.exchange A.ciphers draws toVec
  ideal : Ideal A.ciphers A.openers
  secret : ∃ secret : Key, A.unsealKey = some secret.bytes ∧
    U.servicePublicKey = (A.exchange.publicOf secret).bytes
  endpoint : ∃ endpoint, U.endpoint RECORDS_PATH = .ok endpoint ∧
    A.route WRITE_METHOD endpoint.target = .ok .writeRecord

/-- A caller that both know, as a writer with a name that a header can carry. -/
structure Enrolled (A : AppState) (U : Upstream) (c : Server.Credential) : Prop where
  known : c ∈ A.keyring.credentials
  keys : ∃ keys, U.credentials.lookup c.agent = some keys ∧ keys.current ∈ c.keys.accepted
  writer : c.role.covers .writer = true
  visible : ∀ x ∈ c.agent, 32 ≤ x.toNat ∧ x.toNat < 127

section
variable {A : AppState} {U : Upstream} {S : Setup} {draws : ℕ → Key × Nonce}
  {toVec : WriteRequest → Except Text Bytes} {c : Server.Credential}

/-- The check of a record does not look at what masking writes. -/
theorem redact_validate (isAlphabetic : Char → Bool) (redaction : Option Mask.Policy)
    (r : ActionRecord) :
    (redact isAlphabetic redaction r).validate = r.validate := by
  unfold redact
  cases redaction with
  | none => rfl
  | some policy =>
    dsimp only
    split_ifs <;> rfl

theorem redact_dataClass (isAlphabetic : Char → Bool) (redaction : Option Mask.Policy)
    (r : ActionRecord) :
    (redact isAlphabetic redaction r).dataClass = r.dataClass := by
  unfold redact
  cases redaction with
  | none => rfl
  | some policy =>
    dsimp only
    split_ifs <;> rfl

/-- What the sidecar passes is well formed, and of a class that its socket may file. -/
theorem parse_filed {fromSlice : Bytes → Except Text ActionRecord} {socket : CallerSocket}
    {line : Bytes}
    {r : ActionRecord} (h : parse fromSlice socket line = .ok r) :
    r.validate = .ok () ∧ (r.dataClass = .internal ∨ socket.filesSubjectDerived = true) := by
  unfold parse at h
  obtain ⟨record, -, h⟩ := bind_ok.1 h
  obtain ⟨_, hvalid, h⟩ := bind_ok.1 h
  obtain ⟨_, -, h⟩ := bind_ok.1 h
  obtain ⟨_, hclass, h⟩ := bind_ok.1 h
  obtain ⟨_, -, h⟩ := bind_ok.1 h
  obtain rfl : record = r := Except.ok.inj h
  refine ⟨Core.mapError_ok.1 hvalid, ?_⟩
  have hnot := refuseIf_ok.1 hclass
  by_cases hinternal : record.dataClass = .internal
  · exact .inl hinternal
  · exact .inr (by simpa [hinternal] using hnot)

/-- What a sidecar sends is the sealed JSON of what it parsed and masked. -/
theorem Paired.request_sealed (h : Paired A U S draws toVec) {socket : CallerSocket} {line : Bytes}
    {nonce : ℕ} {q : Request} (hq : S.request socket line nonce = .ok q) :
    ∃ record bytes, parse S.fromSlice socket line = .ok record ∧ q.agent = socket.agent ∧
      toVec ⟨redact S.isAlphabetic S.redaction record, none⟩ = .ok bytes ∧
      ∃ secret : Key, A.unsealKey = some secret.bytes ∧
        Envelope.«open» A.exchange A.ciphers A.openers secret.bytes q.body = .ok bytes := by
  obtain ⟨secret, hsecret, hpublic⟩ := h.secret
  obtain ⟨record, hparse, hq'⟩ := bind_ok.1 hq
  obtain ⟨body, hsealing, hq'⟩ := bind_ok.1 hq'
  obtain rfl := Except.ok.inj hq'
  rw [h.sealing, Upstream.sealing] at hsealing
  obtain ⟨bytes, hbytes, hseal⟩ := bind_ok.1 hsealing
  rw [hpublic] at hseal
  exact ⟨record, bytes, hparse, (request_ok hq).1, Core.mapError_ok.1 hbytes, secret, hsecret,
    Envelope.open_of_seal h.ideal (Core.mapError_ok.1 hseal)⟩

theorem isHeaderByte_of_visible {b : UInt8} (h : Server.isVisibleAscii b = true) :
    isHeaderByte b = true := by
  simp only [Server.isVisibleAscii, isHeaderByte, Bool.or_eq_true, Bool.and_eq_true, decide_eq_true_eq] at h ⊢
  rcases h with ⟨h32, h127⟩ | rfl
  · refine .inl ⟨h32, ?_⟩
    rintro rfl
    exact absurd h127 (by decide)
  · exact .inr rfl

theorem visible_of_hex {x : Char} (h : isLowerHex x = true) : 32 ≤ x.toNat ∧ x.toNat < 127 := by
  simp only [isLowerHex, isDigit, Bool.or_eq_true, Bool.and_eq_true, decide_eq_true_eq] at h
  have hle : ∀ a b : Char, a ≤ b → a.toNat ≤ b.toNat := fun a b hab => hab
  rcases h with ⟨hlo, hhi⟩ | ⟨hlo, hhi⟩ <;> have h1 := hle _ _ hlo <;> have h2 := hle _ _ hhi <;>
    simp only [Char.reduceToNat] at h1 h2 <;> omega

/-- **The post of an enrolled caller verifies.** -/
theorem Enrolled.posted (hc : Enrolled A U c) (h : Paired A U S draws toVec) (body : Bytes) :
    ∃ r, U.request A.hmac c.agent body = .ok r ∧ r.body = body ∧
      A.route r.method r.target = .ok .writeRecord ∧
      headerText r.headers contentType = some Envelope.CONTENT_TYPE ∧
      ∃ key, r.SignedUnder A.hmac c key := by
  obtain ⟨keys, hlookup, hkey⟩ := hc.keys
  obtain ⟨endpoint, hendpoint, hroute⟩ := h.endpoint
  have hall : (encode c.agent).all isHeaderByte = true :=
    List.all_eq_true.2 fun b hb =>
      isHeaderByte_of_visible (List.all_eq_true.1 (Server.all_isVisibleAscii hc.visible) b hb)
  have hpost : endpoint.post A.hmac keys c.agent body = .ok _ := if_pos hall
  have hkeys : U.keys c.agent = .ok keys := by rw [Upstream.keys, hlookup]
  refine ⟨_, bind_ok.2 ⟨keys, hkeys, bind_ok.2 ⟨endpoint, Core.mapError_ok.2 hendpoint, hpost⟩⟩, rfl,
    hroute, ?_, keys.current, hkey, ?_, _, ?_, hexDecode_hexEncode _⟩
  · exact Server.headerText_encode rfl (by decide)
  · exact Server.headerText_encode rfl hc.visible
  · exact Server.headerText_encode rfl fun x hx => visible_of_hex (mem_hexEncode hx)

/-- What the sidecar passes, the service admits of a caller it grants as much. -/
theorem Enrolled.admitted (hc : Enrolled A U c) {socket : CallerSocket}
    (hsocket : socket.agent = c.agent)
    (hgrant : socket.filesSubjectDerived = true → c.filesSubjectDerived = true) {line : Bytes}
    {record : ActionRecord} (hparse : parse S.fromSlice socket line = .ok record) {r : HttpRequest}
    {bytes : Bytes} (hopened : A.opened r.headers r.body = .ok bytes)
    (hjson : A.writeRequest bytes = .ok ⟨redact S.isAlphabetic S.redaction record, none⟩) :
    A.admitted c.caller r = .ok ⟨redact S.isAlphabetic S.redaction record, none⟩ := by
  obtain ⟨hvalid, hclass⟩ := parse_filed hparse
  refine bind_ok.2 ⟨bytes, hopened, bind_ok.2 ⟨_, Core.mapError_ok.2 hjson, bind_ok.2 ⟨(), ?_,
    bind_ok.2 ⟨(), ?_, bind_ok.2 ⟨(), Core.mapError_ok.2 ?_, rfl⟩⟩⟩⟩⟩
  · refine bind_ok.2 ⟨(), refuseIf_ok.2 ?_, refuseIf_ok.2 ?_⟩
    · rw [Server.Credential.caller, hc.writer]
      simp
    · rw [redact_agent, (parse_ok hparse).1, hsocket]
      exact not_not.2 rfl
  · refine refuseIf_ok.2 (not_not.2 ?_)
    rw [redact_dataClass]
    exact hclass.imp_right hgrant
  · rw [redact_validate]
    exact hvalid

end

/-- **What a sidecar sends is what the pipeline is given.**  A caller's line that was vetted,
    masked, sealed and posted, for a caller both sides know and within the service's bound,
    is verified as that caller's, opened, read and admitted; whatever the store, the answer
    is what the pipeline makes of the very record, masked, with its own summary as the body. -/
theorem delivered_is_filed (A : AppState) (U : Upstream) (S : Setup) (draws : ℕ → Key × Nonce)
    (toVec : WriteRequest → Except Text Bytes) (h : Paired A U S draws toVec)
    (c : Server.Credential)
    (hc : Enrolled A U c) (socket : CallerSocket) (hsocket : socket.agent = c.agent)
    (hgrant : socket.filesSubjectDerived = true → c.filesSubjectDerived = true) (line : Bytes)
    (nonce : ℕ) (q : Request) (hq : S.request socket line nonce = .ok q)
    (hbound : q.body.length ≤ Server.MAX_BODY_BYTES)
    (hjson : ∀ record bytes, parse S.fromSlice socket line = .ok record →
      toVec ⟨redact S.isAlphabetic S.redaction record, none⟩ = .ok bytes →
        A.writeRequest bytes = .ok ⟨redact S.isAlphabetic S.redaction record, none⟩) :
    ∃ record r, parse S.fromSlice socket line = .ok record ∧ U.request A.hmac q.agent q.body = .ok r ∧
      ∀ at_ σ, serve A at_ r σ =
        answerOf (A.filing at_.env ⟨redact S.isAlphabetic S.redaction record, none⟩ σ) := by
  obtain ⟨record, bytes, hparse, hagent, hbytes, secret, hsecret, hopen⟩ := h.request_sealed hq
  obtain ⟨r, hr, hbody, hroute, htype, key, hsigned⟩ := hc.posted h q.body
  have hauth : A.authenticate r = .ok c.caller := by
    refine bind_ok.2 ⟨(), refuseIf_ok.2 ?_, Server.verify_eq_ok.2 ⟨c, hc.known, rfl, key, hsigned⟩⟩
    rw [hbody]
    exact not_lt.2 hbound
  have hopened : A.opened r.headers r.body = .ok bytes := by
    rw [AppState.opened, htype, hsecret, hbody]
    exact (if_pos rfl).trans (Core.mapError_ok.2 hopen)
  exact ⟨record, r, hparse, by rw [hagent, hsocket, hr], Server.serve_admitted hroute hauth
    (hc.admitted hsocket hgrant hparse hopened (hjson _ _ hparse hbytes))⟩

/-! ## A pair -/

/-- The service of one writer, with a key to open what is sealed to it. -/
def pairedState : AppState := { Server.noteState with unsealKey := some zeroKey.bytes }

/-- What its writer's sidecar is given. -/
def noteUpstream : Upstream where
  servicePublicKey := zeroKey.bytes
  credentials := AList.singleton "agent".toList (.new [1, 2, 3])
  endpoint _ := .ok ⟨"localhost".toList, RECORDS_PATH, by decide⟩

def noteDraws (_ : ℕ) : Key × Nonce := (zeroKey, ⟨List.replicate 12 0, length_zeroNonce⟩)

/-- The JSON of the note's request. -/
def noteToVec (_ : WriteRequest) : Except Text Bytes := .ok Server.noteBody

/-- The sidecar, whose callers send the note. -/
def noteSetup : Setup where
  capacity := 1
  fromSlice _ := .ok Server.note
  isAlphabetic _ := false
  redaction := none
  sealing := noteUpstream.sealing Envelope.clearExchange clearCiphers noteDraws noteToVec

theorem paired_note : Paired pairedState noteUpstream noteSetup noteDraws noteToVec where
  sealing := rfl
  ideal := clear_ideal
  secret := ⟨zeroKey, rfl, rfl⟩
  endpoint := ⟨_, rfl, rfl⟩

theorem enrolled_note :
    Enrolled pairedState noteUpstream (Server.Credential.new "agent".toList .writer [1, 2, 3]) where
  known := List.mem_cons_self
  keys := ⟨_, rfl, List.mem_cons_self⟩
  writer := rfl
  visible := by decide

theorem parse_note :
    parse noteSetup.fromSlice ⟨"agent".toList, false⟩ [] = .ok Server.note := by
  refine bind_ok.2 ⟨Server.note, rfl, bind_ok.2 ⟨(), ?_, bind_ok.2 ⟨(), refuseIf_ok.2 (not_not.2 rfl),
    bind_ok.2 ⟨(), refuseIf_ok.2 ?_, bind_ok.2 ⟨(), refuseIf_ok.2 (by decide), rfl⟩⟩⟩⟩⟩
  · exact Core.mapError_ok.2 (Core.ok_of_toOption (by decide +kernel))
  · exact fun h => h.1 rfl

/-- What the sidecar makes of the note. -/
def sentNote : Request :=
  ⟨"agent".toList, Envelope.layout zeroKey (noteDraws 0).2 (clearCiphers.gcm
    (Envelope.derive clearCiphers (Envelope.clearExchange.diffieHellman zeroKey zeroKey) zeroKey zeroKey)
    (noteDraws 0).2 Envelope.AAD Server.noteBody)⟩

theorem request_note : noteSetup.request ⟨"agent".toList, false⟩ [] 0 = .ok sentNote :=
  bind_ok.2 ⟨Server.note, parse_note, bind_ok.2 ⟨_, bind_ok.2 ⟨Server.noteBody, rfl,
    Core.mapError_ok.2 (Envelope.seal_eq_ok.2 rfl)⟩, rfl⟩⟩

theorem writeRequest_pairedState (body : Bytes) : pairedState.writeRequest body =
    if body = Server.noteBody then .ok ⟨Server.note, none⟩
    else .error "expected value at line 1 column 1" := rfl

theorem writeRequest_note : pairedState.writeRequest Server.noteBody = .ok ⟨Server.note, none⟩ := by
  rw [writeRequest_pairedState, if_pos rfl]

theorem delivered_is_filed_note : ∃ r,
    noteUpstream.request pairedState.hmac sentNote.agent sentNote.body = .ok r ∧
    ∀ at_ σ, serve pairedState at_ r σ =
      answerOf (pairedState.filing at_.env ⟨Server.note, none⟩ σ) := by
  obtain ⟨record, r, hparse, hr, hserve⟩ := delivered_is_filed pairedState noteUpstream noteSetup
    noteDraws noteToVec paired_note _ enrolled_note ⟨"agent".toList, false⟩ rfl (fun h => h) [] 0 _
    request_note (by decide +kernel) fun record bytes hparse hbytes => by
      obtain rfl := Except.ok.inj (parse_note.symm.trans hparse)
      obtain rfl := Except.ok.inj hbytes
      exact writeRequest_note
  obtain rfl := Except.ok.inj (parse_note.symm.trans hparse)
  exact ⟨r, hr, hserve⟩

end Yaam.Agent
