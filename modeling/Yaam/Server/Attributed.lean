/-
  Who filed what a served store holds.

  * `AppState.Filed` says that a request asks, over its caller's own signature, to file a
    record under the caller's own name;
  * `serve_vouched`: one request puts in nothing that it did not file so, and a read puts
    in nothing at all;
  * `records_were_filed`: the records that a service holds after any run are those it
    held before, and those that requests of the run filed.
-/
import Yaam.Core.Vouched
import Yaam.Server.Routes

namespace Yaam.Server

open Text Contract Contract.Request Crypto Md Eff
open Core (Store Env Vouched asSent)

/-- The request asks to file a record that says `v`: signed by an agent the keyring knows,
    in that agent's own name, of a class it was granted. -/
structure AppState.Filed (A : AppState) (r : HttpRequest) (v : ActionRecord) : Prop where
  bounded : r.body.length ≤ MAX_BODY_BYTES
  write : A.route r.method r.target = .ok .writeRecord
  signed : ∃ c ∈ A.keyring.credentials, (∃ key, r.SignedUnder A.hmac c key) ∧
    c.role.covers .writer = true ∧ v.agent = c.agent ∧
    (v.dataClass = .internal ∨ c.filesSubjectDerived = true)
  carried : ∃ body request, A.opened r.headers r.body = .ok body ∧
    A.writeRequest body = .ok request ∧ request.record.validate = .ok () ∧ asSent request.record = v

section
variable {A : AppState} {at_ : Surroundings} {r : HttpRequest} {caller : Caller}
  {V : ActionRecord → Prop}

theorem AppState.authenticate_ok (h : A.authenticate r = .ok caller) :
    r.body.length ≤ MAX_BODY_BYTES ∧
      ∃ c ∈ A.keyring.credentials, caller = c.caller ∧ ∃ key, r.SignedUnder A.hmac c key := by
  obtain ⟨_, hbound, hverify⟩ := bind_ok.1 h
  exact ⟨not_lt.1 (refuseIf_ok.1 hbound), verify_eq_ok.1 hverify⟩

/-- What a request has passed before the pipeline sees its record. -/
theorem AppState.admitted_ok {request : WriteRequest} (h : A.admitted caller r = .ok request) :
    (∃ body, A.opened r.headers r.body = .ok body ∧ A.writeRequest body = .ok request) ∧
      (caller.role.covers .writer = true ∧ caller.agent = request.record.agent) ∧
      (request.record.dataClass = .internal ∨ caller.filesSubjectDerived = true) ∧
      request.record.validate = .ok () := by
  obtain ⟨body, hbody, h⟩ := bind_ok.1 h
  obtain ⟨request', hrequest, h⟩ := bind_ok.1 h
  obtain ⟨_, hwrite, h⟩ := bind_ok.1 h
  obtain ⟨_, hclass, h⟩ := bind_ok.1 h
  obtain ⟨_, hvalid, h⟩ := bind_ok.1 h
  obtain rfl := Except.ok.inj h
  exact ⟨⟨body, hbody, Core.mapError_ok.1 hrequest⟩, authoriseWrite_ok hwrite, authoriseClass_ok hclass,
    Core.mapError_ok.1 hvalid⟩

/-- What the write handler takes on, its caller's request filed. -/
theorem AppState.admitted_filed {request : WriteRequest} (hauth : A.authenticate r = .ok caller)
    (hroute : A.route r.method r.target = .ok .writeRecord) (h : A.admitted caller r = .ok request) :
    A.Filed r (asSent request.record) := by
  obtain ⟨hbound, c, hc, rfl, hsigned⟩ := AppState.authenticate_ok hauth
  obtain ⟨⟨body, hbody, hrequest⟩, ⟨hrole, hagent⟩, hclass, hvalid⟩ := AppState.admitted_ok h
  exact ⟨hbound, hroute, ⟨c, hc, hsigned, hrole, hagent.symm, hclass⟩,
    ⟨body, request, hbody, hrequest, hvalid, rfl⟩⟩

/-! ## One handler -/

theorem writeRecord_vouched (hY : A.service.pipeline.yaml.Inverts) (env : Env)
    (hV : ∀ request, A.admitted caller r = .ok request → V (asSent request.record)) :
    Keeps (Vouched A.service.pipeline V) (A.writeRecord env caller r) := by
  unfold AppState.writeRecord
  cases hadmitted : A.admitted caller r with
  | error e => exact Keeps.fail e
  | ok request =>
    rw [ofExcept_ok_bind]
    refine Keeps.bind (Core.accept_vouched hY (hV _ hadmitted) _).mapError fun outcome => ?_
    cases outcome <;> exact Keeps.pure _

theorem eraseSubject_served_vouched (hY : A.service.pipeline.yaml.Inverts) (env : Env) :
    Keeps (Vouched A.service.pipeline V) (A.eraseSubject env caller r) :=
  (Keeps.ofExcept _).bind fun _ => (Keeps.ofExcept _).bind fun _ =>
    (Core.eraseSubject_vouched hY _).mapError.bind fun _ => Keeps.pure _

/-- A read leaves the store as it is. -/
theorem handle_read (A : AppState) (at_ : Surroundings) (caller : Caller) (r : HttpRequest)
    (asked : Read) (σ : Store) :
    A.handle at_ caller r (.read asked) σ =
      ((A.read at_.clock σ.index caller asked).map fun answer => (.ok, answer), σ) := by
  change (ofExcept (A.read at_.clock σ.index caller asked) >>= fun answer => pure (Status.ok, answer)) σ = _
  cases A.read at_.clock σ.index caller asked <;> rfl

/-! ## One event -/

/-- **One request puts in nothing but what it filed.** -/
theorem serve_vouched (hY : A.service.pipeline.yaml.Inverts) (at_ : Surroundings) (r : HttpRequest)
    (hV : ∀ v, A.Filed r v → V v) {σ : Store} (hσ : Vouched A.service.pipeline V σ) :
    Vouched A.service.pipeline V (serve A at_ r σ).2 := by
  unfold serve
  cases hauth : A.authenticate r with
  | error e => exact hσ
  | ok caller =>
    cases hroute : A.route r.method r.target with
    | error status => exact hσ
    | ok endpoint =>
      have hhandle : Vouched A.service.pipeline V (A.handle at_ caller r endpoint σ).2 := by
        cases endpoint with
        | writeRecord =>
          exact writeRecord_vouched hY at_.env
            (fun _ h => hV _ (AppState.admitted_filed hauth hroute h)) σ hσ
        | eraseSubject => exact eraseSubject_served_vouched hY at_.env σ hσ
        | read asked =>
          rw [handle_read]
          exact hσ
      dsimp only
      rcases hres : A.handle at_ caller r endpoint σ with ⟨res, σ'⟩
      rw [hres] at hhandle
      cases res <;> exact hhandle

theorem maintain_vouched (S : CoreService) (env : Env) (maxJobs : ℕ) :
    Keeps (Vouched S.pipeline V) (S.maintain env maxJobs) :=
  ((Core.drainFanout_vouched env maxJobs).bind fun _ =>
    (Core.sweep_vouched env).bind fun _ => Keeps.pure _).mapError

/-- **A run puts in nothing but what its requests filed.** -/
theorem runAll_vouched (hY : A.service.pipeline.yaml.Inverts) (events : List Event)
    (hV : ∀ at_ r, Event.request at_ r ∈ events → ∀ v, A.Filed r v → V v) {σ : Store}
    (hσ : Vouched A.service.pipeline V σ) : Vouched A.service.pipeline V (Event.runAll A σ events) := by
  induction events generalizing σ with
  | nil => exact hσ
  | cons event events ih =>
    refine ih (fun at_ r h => hV at_ r (List.mem_cons_of_mem _ h)) ?_
    cases event with
    | request at_ r => exact serve_vouched hY at_ r (hV at_ r List.mem_cons_self) hσ
    | maintain env maxJobs => exact maintain_vouched A.service env maxJobs σ hσ

end

/-- **Every record was filed by an agent, under its own name.**  After any run of requests
    and maintenance rounds, each record in the tree, staged, held back, archived or indexed
    says what one did before the run, or what a request of the run filed: one whose
    signature verified under a key of the record's own agent, a writer, and one granted
    the record's class. -/
theorem records_were_filed (A : AppState) (hY : A.service.pipeline.yaml.Inverts)
    (before : ActionRecord → Prop) (σ : Store) (hσ : Vouched A.service.pipeline before σ)
    (events : List Event) :
    Vouched A.service.pipeline
      (fun v => before v ∨ ∃ at_ r, .request at_ r ∈ events ∧ A.Filed r v)
      (Event.runAll A σ events) :=
  runAll_vouched hY events (fun at_ r h _ hv => .inr ⟨at_, r, h, hv⟩) (hσ.imp fun _ => .inl)

/-! ## A service of one writer -/

def note : ActionRecord :=
  Core.plainRecord (Core.ulid 'A' (by decide)) "2026-01-02T00:00:00Z".toList

/-- What a writer sends to file the note. -/
def noteBody : Bytes :=
  ("\x7b\"record\":\x7b\"record_id\":\"0000000000000000000000000A\",\"schema_ver\":1," ++
    "\"at\":\"2026-01-02T00:00:00Z\",\"received_at\":\"2026-01-02T00:00:00Z\"," ++
    "\"backfilled\":false,\"agent\":\"agent\",\"agent_ver\":null,\"correlation_id\":null," ++
    "\"action\":\"note\",\"outcome\":\"success\",\"attrs\":\x7b\x7d,\"entities\":[],\"subjects\":[]," ++
    "\"visibility\":\"org\",\"team\":null,\"data_class\":\"internal\",\"redaction_policy\":\"none\"," ++
    "\"fields_masked\":[],\"tags\":[],\"summary\":\"\"\x7d\x7d").toUTF8.data.toList

/-- A service with one writer, and what its libraries make of the one request it gets. -/
def noteState : AppState where
  keyring := Keyring.new.with_ (.new "agent".toList .writer [1, 2, 3])
  service := ⟨Core.deployment Core.declaredSubjects, fun _ _ => .ok [], fun _ => 0⟩
  unsealKey := none
  hmac key message := key ++ message.take 16
  exchange := Envelope.clearExchange
  ciphers := clearCiphers
  openers := clearOpeners
  route method target :=
    if target ≠ "/records".toList then .error .notFound
    else if method = "POST".toList then .ok .writeRecord
    else if method = "GET".toList then
      .ok (.read (.queryRecords ⟨none, none, none, none, none, none, none⟩))
    else .error .methodNotAllowed
  writeRequest body :=
    if body = noteBody then .ok ⟨note, none⟩ else .error "expected value at line 1 column 1"
  eraseRequest _ := .error "expected value at line 1 column 1"

def noteRequest : HttpRequest where
  method := "POST".toList
  target := "/records".toList
  headers := [(AGENT_HEADER, Utf8.encode "agent".toList),
    (SIGNATURE_HEADER, Utf8.encode (sign noteState.hmac [1, 2, 3] "POST".toList "/records".toList
      "agent".toList noteBody))]
  body := noteBody
  method_line := by decide
  target_line := by decide

theorem writeRequest_noteState (body : Bytes) : noteState.writeRequest body =
    if body = noteBody then .ok ⟨note, none⟩ else .error "expected value at line 1 column 1" := rfl

theorem filed_note {r : HttpRequest} {v : ActionRecord} (h : noteState.Filed r v) : v = asSent note := by
  obtain ⟨body, request, -, hrequest, -, rfl⟩ := h.carried
  rw [writeRequest_noteState] at hrequest
  split_ifs at hrequest
  rw [← Except.ok.inj hrequest]

theorem records_were_filed_note :
    Vouched (Core.deployment Core.declaredSubjects) (fun v => v = asSent note)
      (Event.runAll noteState Core.emptyStore
        [.request ⟨Core.quietEnv 0, fun _ => 0⟩ noteRequest, .maintain (Core.quietEnv 1) 8]) := by
  refine (records_were_filed noteState Md.reader_inverts (fun _ => False) Core.emptyStore
    (Vouched.empty _ _) _).imp ?_
  rintro v (h | ⟨at_, r, -, hfiled⟩)
  · exact h.elim
  · exact filed_note hfiled

end Yaam.Server
