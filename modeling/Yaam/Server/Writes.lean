/-
  What a write is answered, and what the answer is worth.

  * `serve_write`: a write is refused before the pipeline, whatever the store holds, or
    answered with what the pipeline did;
  * `refused_write_is_refused`: a refusal of the 400s leaves the store alone, and stays;
  * `acknowledged_remains`: a record whose write was answered with success stays through
    every later run.
-/
import Yaam.Core.Lasting
import Yaam.Server.Attributed

namespace Yaam.Server

open Text Contract Contract.Request Crypto Eff
open Core (Accepted Store Env OnlyKeys Remains destination)

/-- The answer to what the pipeline did. -/
def answerOf : Except Core.Error Accepted × Store → Response × Store
  | (.ok (.stored id), σ) => (.answered .created (.written id .stored), σ)
  | (.ok (.duplicate id), σ) => (.answered .ok (.written id .duplicate), σ)
  | (.ok (.quarantined id), σ) => (.answered .accepted (.written id .quarantined), σ)
  | (.error e, σ) => (.failed (.core e), σ)

/-- What a write request has the pipeline do. -/
def AppState.filing (A : AppState) (env : Env) (request : WriteRequest) (σ : Store) :
    Except Core.Error Accepted × Store :=
  Core.accept A.service.pipeline env request.record (request.body.getD request.record.summary) σ

/-- The class of a status. -/
def Status.isSuccess (s : Status) : Bool := 200 ≤ s.code ∧ s.code < 300

def Status.isClientError (s : Status) : Bool := 400 ≤ s.code ∧ s.code < 500

section
variable {A : AppState} {r : HttpRequest} {σ : Store}

@[simp] theorem answerOf_snd (x : Except Core.Error Accepted × Store) : (answerOf x).2 = x.2 := by
  rcases x with ⟨_ | outcome, σ⟩
  · rfl
  · cases outcome <;> rfl

theorem Error.not_success (e : Error) : e.status.isSuccess = false := by
  cases e with
  | core e => cases e <;> rfl
  | _ => rfl

theorem answerOf_success (outcome : Accepted) (σ : Store) :
    (answerOf (.ok outcome, σ)).1.status.isSuccess = true := by
  cases outcome <;> rfl

theorem Status.not_clientError {s : Status} (h : s.isSuccess = true) : s.isClientError = false := by
  cases s <;> first | rfl | exact absurd h (by decide)

theorem serve_write_eq (hroute : A.route r.method r.target = .ok .writeRecord) {caller : Caller}
    (hauth : A.authenticate r = .ok caller) (at_ : Surroundings) (σ : Store) :
    serve A at_ r σ = match A.writeRecord at_.env caller r σ with
      | (.ok answer, σ') => (.answered answer.1 answer.2, σ')
      | (.error e, σ') => (.failed e, σ') := by
  rw [serve, hauth]
  simp only [hroute, AppState.handle]
  rcases A.writeRecord at_.env caller r σ with ⟨_ | answer, σ'⟩ <;> rfl

/-- An admitted write is answered with what the pipeline did. -/
theorem serve_admitted (hroute : A.route r.method r.target = .ok .writeRecord) {caller : Caller}
    {request : WriteRequest} (hauth : A.authenticate r = .ok caller)
    (hadmitted : A.admitted caller r = .ok request) (at_ : Surroundings) (σ : Store) :
    serve A at_ r σ = answerOf (A.filing at_.env request σ) := by
  rw [serve_write_eq hroute hauth, AppState.writeRecord, hadmitted, ofExcept_ok_bind]
  rcases hfiling : A.filing at_.env request σ with ⟨e | outcome, σ'⟩
  · have hwrite : A.service.write at_.env request.record (request.body.getD request.record.summary) σ =
        (.error (.core e), σ') := mapError_eq_error.2 ⟨e, hfiling, rfl⟩
    rw [bind_of_error hwrite]
    rfl
  · have hwrite : A.service.write at_.env request.record (request.body.getD request.record.summary) σ =
        (.ok outcome, σ') := mapError_eq_ok.2 hfiling
    rw [bind_of_ok hwrite]
    cases outcome <;> rfl

/-- **What a write is answered.** -/
theorem serve_write (hroute : A.route r.method r.target = .ok .writeRecord) :
    (∃ e, ∀ at_ σ, serve A at_ r σ = (.failed e, σ)) ∨
    ∃ caller request, A.authenticate r = .ok caller ∧ A.admitted caller r = .ok request ∧
      ∀ at_ σ, serve A at_ r σ = answerOf (A.filing at_.env request σ) := by
  cases hauth : A.authenticate r with
  | error e => exact .inl ⟨e, fun at_ σ => by rw [serve, hauth]⟩
  | ok caller =>
    cases hadmitted : A.admitted caller r with
    | error e =>
      refine .inl ⟨e, fun at_ σ => ?_⟩
      rw [serve_write_eq hroute hauth, AppState.writeRecord, hadmitted, ofExcept_error_bind]
      rfl
    | ok request => exact .inr ⟨caller, request, rfl, hadmitted, serve_admitted hroute hauth hadmitted⟩

/-- A failure of the pipeline that is the caller's is of its record: a check it does not
    pass. -/
theorem precheck_of_clientError {env : Env} {request : WriteRequest} {e : Core.Error} {σ' : Store}
    (h : A.filing env request σ = (.error e, σ')) (he : (coreStatus e).isClientError = true) :
    Core.precheck A.service.pipeline request.record (request.body.getD request.record.summary) ≠ .ok () ∧
      ∀ dest, destination request.record = .ok dest → dest ∉ σ.records := by
  have hstep := Core.accept_step A.service.pipeline env request.record
    (request.body.getD request.record.summary) σ
  rw [show Core.accept _ _ _ _ σ = (.error e, σ') from h] at hstep
  cases hstep with
  | refused _ _ _ hfresh hwhy =>
    rcases hwhy with (rfl | ⟨c, rfl⟩) | hwhy
    · cases he
    · cases he
    · exact ⟨hwhy, hfresh⟩
  | unindexed => cases he

/-- **A refused write changes nothing and stays refused**: in every store, at every time, it
    is answered alike, unless a record stands at its place by then, whose duplicate it is. -/
theorem refused_write_is_refused (hroute : A.route r.method r.target = .ok .writeRecord)
    {at_ : Surroundings} (h : (serve A at_ r σ).1.status.isClientError = true) :
    (serve A at_ r σ).2 = σ ∧ ∀ at' σ', serve A at' r σ' = ((serve A at_ r σ).1, σ') ∨
      ∃ caller request dest, A.authenticate r = .ok caller ∧ A.admitted caller r = .ok request ∧
        destination request.record = .ok dest ∧ dest ∈ σ'.records ∧
        serve A at' r σ' = (.answered .ok (.written request.record.recordId .duplicate), σ') := by
  rcases serve_write hroute with ⟨e, hserve⟩ | ⟨caller, request, hauth, hadmitted, hserve⟩
  · exact ⟨by rw [hserve], fun at' σ' => .inl (by rw [hserve, hserve])⟩
  rw [hserve] at h ⊢
  rcases hfiling : A.filing at_.env request σ with ⟨e | outcome, σ₁⟩
  · rw [hfiling] at h
    obtain ⟨hcheck, hfresh⟩ := precheck_of_clientError hfiling h
    obtain ⟨e', hcheck⟩ : ∃ e', Core.precheck A.service.pipeline request.record
        (request.body.getD request.record.summary) = .error e' := by
      cases hres : Core.precheck A.service.pipeline request.record
          (request.body.getD request.record.summary) with
      | error e' => exact ⟨e', rfl⟩
      | ok u => exact absurd hres hcheck
    obtain ⟨he, hσ⟩ := Prod.mk.inj (hfiling.symm.trans (Core.accept_of_precheck hcheck hfresh))
    obtain rfl := Except.error.inj he
    refine ⟨hσ, fun at' σ' => ?_⟩
    rw [hserve]
    by_cases htaken : ∃ dest, destination request.record = .ok dest ∧ dest ∈ σ'.records
    · obtain ⟨dest, hdest, hmem⟩ := htaken
      refine .inr ⟨caller, request, dest, hauth, hadmitted, hdest, hmem, ?_⟩
      rw [AppState.filing, Core.accept_filed hdest hmem]
      rfl
    · left
      rw [AppState.filing, Core.accept_of_precheck hcheck fun dest hdest hmem => htaken ⟨dest, hdest, hmem⟩]
      rfl
  · rw [hfiling, Status.not_clientError (answerOf_success _ _)] at h
    cases h

/-! ## What is answered with success -/

/-- A write that is answered with success leaves its record in the store. -/
theorem serve_remains (hY : A.service.pipeline.yaml.Inverts)
    (hroute : A.route r.method r.target = .ok .writeRecord) {at_ : Surroundings}
    (h : (serve A at_ r σ).1.status.isSuccess = true) :
    ∃ caller request dest, A.authenticate r = .ok caller ∧ A.admitted caller r = .ok request ∧
      destination request.record = .ok dest ∧
      Remains A.service.pipeline request.record.recordId dest (serve A at_ r σ).2 := by
  rcases serve_write hroute with ⟨e, hserve⟩ | ⟨caller, request, hauth, hadmitted, hserve⟩
  · rw [hserve, Response.status, Error.not_success] at h
    cases h
  rw [hserve] at h ⊢
  rcases hfiling : A.filing at_.env request σ with ⟨e | outcome, σ₁⟩
  · rw [hfiling, answerOf, Response.status, Error.not_success] at h
    cases h
  · obtain ⟨dest, hdest, hstands⟩ := Core.accept_remains hY hfiling
    refine ⟨caller, request, dest, hauth, hadmitted, hdest, ?_⟩
    rwa [answerOf_snd]

/-- Every write that a request asks of a record with this identifier is filed at this
    place. -/
def AppState.FiledAt (A : AppState) (r : HttpRequest) (id : RecordId) (dest : Path) : Prop :=
  ∀ caller request, A.admitted caller r = .ok request →
    request.record.recordId = id → destination request.record = .ok dest

/-- **One request takes no record away.** -/
theorem serve_keeps_remains (hY : A.service.pipeline.yaml.Inverts) {id : RecordId} {dest : Path}
    (hext : extension dest = some Core.recordExt) (at_ : Surroundings) (hsame : A.FiledAt r id dest)
    (hσ : Remains A.service.pipeline id dest σ) :
    Remains A.service.pipeline id dest (serve A at_ r σ).2 := by
  unfold serve
  cases hauth : A.authenticate r with
  | error e => exact hσ
  | ok caller =>
    cases hroute : A.route r.method r.target with
    | error status => exact hσ
    | ok endpoint =>
      have hhandle : Remains A.service.pipeline id dest (A.handle at_ caller r endpoint σ).2 := by
        cases endpoint with
        | writeRecord =>
          have hwrite : Keeps (Remains A.service.pipeline id dest) (A.writeRecord at_.env caller r) := by
            unfold AppState.writeRecord
            cases hadmitted : A.admitted caller r with
            | error e => exact Keeps.fail e
            | ok request =>
              rw [ofExcept_ok_bind]
              refine Keeps.bind (Core.accept_keeps_remains hY _ (hsame _ _ hadmitted)).mapError
                fun outcome => ?_
              cases outcome <;> exact Keeps.pure _
          exact hwrite σ hσ
        | eraseSubject =>
          have herase : Keeps (Remains A.service.pipeline id dest) (A.eraseSubject at_.env caller r) :=
            (Keeps.ofExcept _).bind fun _ => (Keeps.ofExcept _).bind fun _ =>
              (Core.eraseSubject_remains hext _).mapError.bind fun _ => Keeps.pure _
          exact herase σ hσ
        | read asked =>
          rw [handle_read]
          exact hσ
      dsimp only
      rcases hres : A.handle at_ caller r endpoint σ with ⟨res, σ'⟩
      rw [hres] at hhandle
      cases res <;> exact hhandle

/-- **A run takes no record away.** -/
theorem runAll_keeps_remains (hY : A.service.pipeline.yaml.Inverts) {id : RecordId} {dest : Path}
    (hext : extension dest = some Core.recordExt) (events : List Event)
    (hsame : ∀ at_ r, .request at_ r ∈ events → A.FiledAt r id dest)
    (hσ : Remains A.service.pipeline id dest σ) :
    Remains A.service.pipeline id dest (Event.runAll A σ events) := by
  induction events generalizing σ with
  | nil => exact hσ
  | cons event events ih =>
    refine ih (fun at_ r h => hsame at_ r (List.mem_cons_of_mem _ h)) ?_
    cases event with
    | request at_ r => exact serve_keeps_remains hY hext at_ (hsame at_ r List.mem_cons_self) hσ
    | maintain env maxJobs =>
      have hmaintain : Keeps (Remains A.service.pipeline id dest) (A.service.maintain env maxJobs) :=
        ((Core.drainFanout_remains env maxJobs).bind fun _ =>
          (Core.sweep_remains env).bind fun _ => Keeps.pure _).mapError
      exact hmaintain σ hσ

end

section
set_option maxRecDepth 4000

end

end Yaam.Server
