/-
  The sidecar's outbound queue on disk (`yaam-agent`, `spool.rs`), and what its entries
  hold (`sidecar.rs`).

  * `parse` vets one caller line, `Setup.request` masks and seals what it holds;
  * `frame` and `unframe`: an entry names the agent it belongs to;
  * `unframe_frame`: an agent with a name, and no newline in it, reads back.
-/
import Yaam.Agent.Redact
import Yaam.Lib.Framed

namespace Yaam.Agent

open Text Utf8 Contract Contract.Mask

/-- What can go wrong locally. -/
inductive AgentError where
  /-- The record is malformed. Permanent; tell the caller. -/
  | rejected (why : Text)
  /-- Upstream is unreachable; the record was spooled. -/
  | spooled
  /-- The spool is full and upstream is still down. -/
  | spoolFull
  /-- Sealing failed. -/
  | crypto (detail : Text)
  | io (detail : Text)
deriving DecidableEq

/-- A configured caller, as its record socket knows it. -/
structure CallerSocket where
  agent : Text
  filesSubjectDerived : Bool
deriving DecidableEq

/-- Parses and vets one caller line, given the reading of its JSON. -/
def parse (fromSlice : Bytes → Except Text ActionRecord) (socket : CallerSocket) (line : Bytes) :
    Except AgentError ActionRecord := do
  let record ← (fromSlice line).mapError fun e => .rejected ("malformed record: ".toList ++ e)
  record.validate.mapError fun e => .rejected e.display.toList
  refuseIf (record.agent ≠ socket.agent)
    (.rejected ("socket belongs to `".toList ++ socket.agent ++ "`, record claims `".toList ++
      record.agent ++ "`".toList))
  refuseIf (record.dataClass ≠ .internal ∧ socket.filesSubjectDerived = false)
    (.rejected ("`".toList ++ socket.agent ++ "` may not file `".toList ++
      Md.dataClassName record.dataClass ++ ("` records: this sidecar's configuration does not list " ++
      "it under `files_subject_derived`. That class seals the body under a key that can be " ++
      "destroyed and files a subject linkage no later write can correct, so which callers may " ++
      "claim it is a deployment's decision rather than a record's").toList))
  refuseIf (record.agent.any Md.isControl)
    (.rejected "agent name contains a control character".toList)
  pure record

/-! ## Entries -/

/-- Wraps a sealed body with the agent it belongs to. -/
def frame (agent : Text) (body : Bytes) : Bytes := encode agent ++ 10 :: body

/-- What a post carries: the agent it is signed as, and the sealed request. -/
structure Request where
  agent : Text
  body : Bytes
deriving DecidableEq

def Request.frame (r : Request) : Bytes := Agent.frame r.agent r.body

/-- Splits a spool entry back into its agent and its sealed body. -/
def unframe (entry : Bytes) : Except AgentError Request :=
  match entry.span (· ≠ 10) with
  | (_, []) => .error (.rejected "spool entry has no agent line".toList)
  | (line, _ :: body) =>
    match decode line with
    | none => .error (.rejected "spool entry agent is not utf-8".toList)
    | some [] => .error (.rejected "spool entry names no agent".toList)
    | some (c :: agent) => .ok ⟨c :: agent, body⟩

/-- A pending entry: its sequence number, what its file holds, and the submit that made
    it, which no step of the sidecar reads. -/
structure Entry where
  seq : ℕ
  bytes : Bytes
  owner : ℕ
deriving DecidableEq

/-- Bytes go to the end of this entry. -/
def Entry.write (seq : ℕ) (bytes : Bytes) (e : Entry) : Entry :=
  if e.seq = seq then { e with bytes := e.bytes ++ bytes } else e

/-- Pending entries, oldest first. -/
def entries (dir : List Entry) : List ℕ := (dir.map Entry.seq).mergeSort

/-- Number of entries waiting. -/
def depth (dir : List Entry) : ℕ := (entries dir).length

/-- The sequence number an opened spool resumes from. -/
def resume (dir : List Entry) : ℕ := (entries dir).getLast?.elim 0 (· + 1)

/-- What a running sidecar was given: the spool's bound, the reading of a record's JSON,
    the policy it masks with, and the sealing of a request, with the randomness of it. -/
structure Setup where
  capacity : ℕ
  fromSlice : Bytes → Except Text ActionRecord
  isAlphabetic : Char → Bool
  redaction : Option Policy
  sealing : ActionRecord → ℕ → Except AgentError Bytes

/-- What becomes of a caller's line before anything is sent. -/
def Setup.request (S : Setup) (socket : CallerSocket) (line : Bytes) (nonce : ℕ) :
    Except AgentError Request := do
  let record ← parse S.fromSlice socket line
  let record := redact S.isAlphabetic S.redaction record
  let body ← S.sealing record nonce
  pure ⟨record.agent, body⟩

@[simp] theorem Entry.write_seq (seq : ℕ) (bytes : Bytes) (e : Entry) : (e.write seq bytes).seq = e.seq := by
  unfold Entry.write
  split_ifs <;> rfl

@[simp] theorem Entry.write_owner (seq : ℕ) (bytes : Bytes) (e : Entry) :
    (e.write seq bytes).owner = e.owner := by
  unfold Entry.write
  split_ifs <;> rfl

theorem Entry.write_of_ne {seq : ℕ} {e : Entry} (h : e.seq ≠ seq) (bytes : Bytes) :
    e.write seq bytes = e := if_neg h

theorem Entry.write_bytes (e : Entry) (bytes : Bytes) :
    (e.write e.seq bytes).bytes = e.bytes ++ bytes := by rw [Entry.write, if_pos rfl]

/-- A directory in order lists as it stands. -/
theorem entries_of_sorted {dir : List Entry} (h : dir.Pairwise fun e e' => e.seq < e'.seq) :
    entries dir = dir.map Entry.seq := by
  refine List.mergeSort_of_pairwise ?_
  exact List.pairwise_map.2 (h.imp fun hlt => decide_eq_true hlt.le)

theorem depth_eq (dir : List Entry) : depth dir = dir.length := by
  rw [depth, entries, List.length_mergeSort, List.length_map]

/-- A spool resumes behind everything that is on disk. -/
theorem lt_resume {dir : List Entry} (h : dir.Pairwise fun e e' => e.seq < e'.seq) {e : Entry}
    (he : e ∈ dir) : e.seq < resume dir := by
  rw [resume, entries_of_sorted h, List.getLast?_map]
  cases hlast : dir.getLast? with
  | none => exact absurd (List.getLast?_eq_none_iff.1 hlast ▸ he) List.not_mem_nil
  | some last =>
    obtain ⟨init, rfl⟩ := List.getLast?_eq_some_iff.1 hlast
    refine Nat.lt_succ_of_le ?_
    rcases List.mem_append.1 he with he | he
    · exact ((List.pairwise_append.1 h).2.2 e he last List.mem_cons_self).le
    · rw [List.mem_singleton.1 he]

/-! ## What a frame keeps -/

/-- **A frame reads back**, when the agent has a name and no newline in it. -/
theorem unframe_frame {r : Request} (hname : r.agent ≠ []) (hline : '\n' ∉ r.agent) :
    unframe r.frame = .ok r := by
  obtain ⟨agent, body⟩ := r
  have hspan : (encode agent ++ 10 :: body).span (· ≠ 10) = (encode agent, 10 :: body) := by
    rw [List.span_eq_takeWhile_dropWhile]
    have hall : ∀ b ∈ encode agent, (decide (b ≠ 10)) = true := fun b hb =>
      decide_eq_true fun h => newline_notMem_encode hline (h ▸ hb)
    rw [List.takeWhile_append_of_pos hall, List.dropWhile_append_of_pos hall]
    simp
  rw [Request.frame, frame, unframe, hspan]
  dsimp only
  rw [decode_encode]
  cases agent with
  | nil => exact absurd rfl hname
  | cons c agent => rfl

/-- An entry that names no agent is not one. -/
theorem unframe_frame_nil (body : Bytes) :
    unframe (frame [] body) = .error (.rejected "spool entry names no agent".toList) := rfl

theorem redact_agent (isAlphabetic : Char → Bool) (redaction : Option Policy) (r : ActionRecord) :
    (redact isAlphabetic redaction r).agent = r.agent := by
  unfold redact
  cases redaction with
  | none => rfl
  | some policy =>
    dsimp only
    split_ifs <;> rfl

theorem parse_ok {fromSlice : Bytes → Except Text ActionRecord} {socket : CallerSocket} {line : Bytes}
    {r : ActionRecord} (h : parse fromSlice socket line = .ok r) :
    r.agent = socket.agent ∧ ∀ c ∈ r.agent, Md.isControl c = false := by
  unfold parse at h
  obtain ⟨record, -, h⟩ := bind_ok.1 h
  obtain ⟨_, -, h⟩ := bind_ok.1 h
  obtain ⟨_, hagent, h⟩ := bind_ok.1 h
  obtain ⟨_, -, h⟩ := bind_ok.1 h
  obtain ⟨_, hcontrol, h⟩ := bind_ok.1 h
  obtain rfl : record = r := Except.ok.inj h
  refine ⟨not_not.1 (refuseIf_ok.1 hagent), fun c hc => ?_⟩
  have hany := refuseIf_ok.1 hcontrol
  by_contra hne
  exact hany (List.any_eq_true.2 ⟨c, hc, by simpa using hne⟩)

/-- What is sent is the socket's own, and its agent's name is one line. -/
theorem request_ok {S : Setup} {socket : CallerSocket} {line : Bytes} {nonce : ℕ} {r : Request}
    (h : S.request socket line nonce = .ok r) : r.agent = socket.agent ∧ '\n' ∉ r.agent := by
  unfold Setup.request at h
  obtain ⟨record, hparse, h⟩ := bind_ok.1 h
  obtain ⟨body, -, h⟩ := bind_ok.1 h
  obtain ⟨hagent, hcontrol⟩ := parse_ok hparse
  obtain rfl := Except.ok.inj h
  rw [redact_agent]
  refine ⟨hagent, fun hmem => ?_⟩
  exact absurd (hcontrol _ hmem) (by decide)

end Yaam.Agent
