/-
  The engine behind the caller sockets (`yaam-agent`, `sidecar.rs` over `spool.rs`): any
  number of submits and flushes side by side, restarts, and crashes at any step.

  * `Stage` is where a call stands outside the spool lock, `Held` where it stands under it;
  * `Sidecar.enter`, `Sidecar.work`, `Sidecar.posts`: a step that takes the lock, a file
    operation or a post under it, and a post of what never was on disk;
  * `Sidecar.step` is one step of one call, `Sidecar.run` any number of them.
-/
import Yaam.Agent.Spool
import Yaam.Lib.Past

namespace Yaam.Agent

open Text Utf8 Contract Past

/-! ## The machine -/

/-- What happened, as far as the sidecar's promises go. Posts are told by the submit whose
    record was posted. -/
inductive Event where
  | began (i : ℕ) (r : Request)
  | answered (i : ℕ) (answer : Except AgentError Unit)
  | pushed (i : ℕ)
  | posted (i : ℕ) (r : Request) (verdict : Except AgentError Unit)
  /-- The removal of an entry was due, and did not come about. -/
  | interrupted (i : ℕ)
deriving DecidableEq

def Event.call : Event → ℕ
  | .began i _ | .answered i _ | .pushed i | .posted i _ _ | .interrupted i => i

/-- Where a call stands: the next thing it needs the spool, or the service, for. -/
inductive Stage where
  | checking (r : Request)
  | flushing (r : Request)
  | rechecking (r : Request)
  | pushing (r : Request)
  | posting (r : Request)
  /-- A flush of its own: the retry loop's, or the one at shutdown. -/
  | draining
deriving DecidableEq

/-- Where the call that holds the spool lock stands. -/
inductive Held where
  /-- Draining, with this much of the listing left. -/
  | reading (pending : List ℕ)
  | posting (entry : Entry) (pending : List ℕ)
  | removing (entry : Entry) (pending : List ℕ)
  /-- Pushing, with this much of the entry still to be written. -/
  | writing (seq : ℕ) (left : Bytes)
deriving DecidableEq

/-- The spool directory, the process over it, and what happened so far. -/
structure Sidecar where
  dir : List Entry
  running : Bool
  /-- Sequence number the next push will use. -/
  next : ℕ
  lock : Option (ℕ × Held)
  calls : ℕ → Option Stage
  /-- How many calls there were. -/
  begun : ℕ
  past : List Event

/-- Before the first start. -/
def Sidecar.fresh : Sidecar := ⟨[], false, 0, none, fun _ => none, 0, []⟩

/-- How the world answers a step. -/
inductive Outcome where
  | done
  /-- A write takes this many bytes. -/
  | part (n : ℕ)
  | fault (detail : Text)
  /-- The entry is removed, and syncing its directory fails. -/
  | unsynced (detail : Text)
  /-- What `post_record` answers. -/
  | verdict (v : Except AgentError Unit)

inductive Act where
  | opens
  | crash
  | submit (socket : CallerSocket) (line : Bytes) (nonce : ℕ)
  | flush
  | move (i : ℕ) (o : Outcome)
  /-- The retry loop is aborted; a verdict on its way to the drain arrives or not. -/
  | abort (i : ℕ) (told : Bool)

namespace Sidecar

def note (σ : Sidecar) (e : Event) : Sidecar := { σ with past := e :: σ.past }

/-- A call goes on, or is over. -/
def go (σ : Sidecar) (i : ℕ) (p : Option Stage) : Sidecar :=
  { σ with calls := Function.update σ.calls i p }

def answer (σ : Sidecar) (i : ℕ) (a : Except AgentError Unit) : Sidecar :=
  (σ.go i none).note (.answered i a)

/-- What a call does with what its work on the spool came to. -/
def resume (σ : Sidecar) (i : ℕ) (result : Except AgentError Unit) : Sidecar :=
  match σ.calls i, result with
  | some (.flushing r), .ok () => σ.go i (some (.rechecking r))
  | some (.pushing _), .ok () => σ.answer i (.error .spooled)
  | some (.flushing _), .error e | some (.pushing _), .error e => σ.answer i (.error e)
  | _, _ => σ.go i none

/-- The call that held the spool lock is done with the spool. -/
def leave (σ : Sidecar) (i : ℕ) (result : Except AgentError Unit) : Sidecar :=
  { σ with lock := none }.resume i result

/-- A drain goes by the verdict on an entry. -/
def judged (σ : Sidecar) (i : ℕ) (e : Entry) (pending : List ℕ) : Except AgentError Unit → Sidecar
  | .ok () | .error (.rejected _) => { σ with lock := some (i, .removing e pending) }
  | .error .spooled => σ.leave i (.ok ())
  | .error other => σ.leave i (.error other)

def erase (σ : Sidecar) (e : Entry) : Sidecar :=
  { σ with dir := σ.dir.filter fun x => x.seq ≠ e.seq }

def writeTo (σ : Sidecar) (seq : ℕ) (bytes : Bytes) : Sidecar :=
  { σ with dir := σ.dir.map (Entry.write seq bytes) }

def notFound : Text := "No such file or directory (os error 2)".toList

/-- The next step of the call that holds the spool lock. -/
def work (σ : Sidecar) (i : ℕ) : Held → Outcome → Sidecar
  | .reading [], .done => σ.leave i (.ok ())
  | .reading (seq :: pending), .done =>
    match σ.dir.find? fun x => x.seq = seq with
    | some e => { σ with lock := some (i, .posting e pending) }
    | none => σ.leave i (.error (.io notFound))
  | .posting e pending, .verdict v =>
    match unframe e.bytes with
    | .ok r => (σ.note (.posted e.owner r v)).judged i e pending v
    | .error corrupt => σ.judged i e pending (.error corrupt)
  | .removing e pending, .done => { σ.erase e with lock := some (i, .reading pending) }
  | .removing e _, .unsynced detail => (σ.erase e).leave i (.error (.io detail))
  | .removing e _, .fault detail => (σ.note (.interrupted e.owner)).leave i (.error (.io detail))
  | .writing seq left, .part n => { σ.writeTo seq (left.take n) with lock := some (i, .writing seq (left.drop n)) }
  | .writing _ [], .done => { σ with next := σ.next + 1 }.leave i (.ok ())
  | .reading _, .fault detail | .writing _ _, .fault detail => σ.leave i (.error (.io detail))
  | _, _ => σ

def fileExists : Text := "File exists (os error 17)".toList

/-- What a call does once the spool lock is its own. -/
def enter (S : Setup) (σ : Sidecar) (i : ℕ) : Stage → Outcome → Sidecar
  | .checking r, .done => σ.go i (some (if 0 < depth σ.dir then .flushing r else .rechecking r))
  | .rechecking r, .done => σ.go i (some (if 0 < depth σ.dir then .pushing r else .posting r))
  | .flushing _, .done | .draining, .done => { σ with lock := some (i, .reading (entries σ.dir)) }
  | .pushing r, .done =>
    if S.capacity ≤ depth σ.dir then σ.resume i (.error .spoolFull)
    else if ∃ x ∈ σ.dir, x.seq = σ.next then σ.resume i (.error (.io fileExists))
    else { σ with dir := σ.dir ++ [⟨σ.next, [], i⟩]
                  lock := some (i, .writing σ.next r.frame)
                  past := .pushed i :: σ.past }
  | .checking _, .fault detail | .rechecking _, .fault detail => σ.answer i (.error (.io detail))
  | .flushing _, .fault detail | .draining, .fault detail | .pushing _, .fault detail =>
    σ.resume i (.error (.io detail))
  | _, _ => σ

/-- A record that never was on disk is posted. -/
def posts (σ : Sidecar) (i : ℕ) (r : Request) (v : Except AgentError Unit) : Sidecar :=
  let σ := σ.note (.posted i r v)
  if v = .error .spooled then σ.go i (some (.pushing r)) else σ.answer i v

/-- The next step of a call. -/
def move (S : Setup) (σ : Sidecar) (i : ℕ) (o : Outcome) : Sidecar :=
  match σ.calls i, σ.lock with
  | none, _ => σ
  | some (.posting r), _ =>
    match o with
    | .verdict v => σ.posts i r v
    | _ => σ
  | some p, none => σ.enter S i p o
  | some _, some (j, h) => if j = i then σ.work i h o else σ

/-- The flush of an aborted retry loop: nobody posts for it, or sends it a verdict. -/
def abort (σ : Sidecar) (i : ℕ) (told : Bool) : Sidecar :=
  match σ.calls i, σ.lock with
  | some .draining, some (j, h) =>
    if j = i then
      match h with
      | .removing e _ =>
        if told then { σ with lock := some (i, .removing e []) }
        else (σ.note (.interrupted e.owner)).leave i (.ok ())
      | _ => σ.leave i (.ok ())
    else σ.go i none
  | some .draining, none => σ.go i none
  | _, _ => σ

/-- The removal a crash cuts off. -/
def cut (σ : Sidecar) : List Event :=
  match σ.lock with
  | some (_, .removing e _) => [.interrupted e.owner]
  | _ => []

/-- One step; a step that is not there to take changes nothing. -/
def step (S : Setup) (σ : Sidecar) : Act → Sidecar
  | .opens => if σ.running then σ else { σ with running := true, next := Agent.resume σ.dir }
  | .crash =>
    { σ with running := false, lock := none, calls := fun _ => none, past := σ.cut ++ σ.past }
  | .submit socket line nonce =>
    if σ.running then
      let σ' := { σ with begun := σ.begun + 1 }
      match S.request socket line nonce with
      | .ok r => (σ'.go σ.begun (some (.checking r))).note (.began σ.begun r)
      | .error e => σ'.note (.answered σ.begun (.error e))
    else σ
  | .flush =>
    if σ.running then { σ with begun := σ.begun + 1 }.go σ.begun (some .draining) else σ
  | .move i o => σ.move S i o
  | .abort i told => σ.abort i told

def run (S : Setup) (σ : Sidecar) (acts : List Act) : Sidecar := acts.foldl (step S) σ

end Sidecar

end Yaam.Agent
