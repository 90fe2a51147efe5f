/-
  The audited read of a sealed body (`yaam-core`, `unseal.rs`).

  * `inspect` says what the store holds of a record's body, and fetches no key;
  * `auditRecord` is the record that stands for one reading;
  * `readBody` has that record accepted, and then `reveal` fetches the keys and decrypts.
-/
import Yaam.Core.Frames
import Yaam.Crypto.Unseal

namespace Yaam.Core

open Text Contract Crypto Md Eff

/-- The action every audited read is recorded under. -/
def auditAction : Text := "unseal".toList

/-- Schema version the audit record is written under. -/
def auditSchemaVer : UInt32 := 1

/-- An erasure that accounts for a key being gone; the log need not name it. -/
structure Erasure where
  subject : SubjectHash
  tombstone : Option Text
deriving DecidableEq

/-- What the store holds of one record's body, before any key is touched. -/
inductive Held where
  | sealed (subjects : List SubjectHash) (epoch : Text) (ciphertextBytes : ℕ)
      (erasures : List Erasure)
  | plain
  | shredded (subjects : List SubjectHash) (erasures : List Erasure)
  | absent (archived : Bool)
deriving DecidableEq

/-- What an audited read found. -/
inductive Read where
  | revealed (body : Text) (audit : RecordId)
  | shredded (subjects : List SubjectHash) (erasures : List Erasure) (audit : Option RecordId)
  | plain
  | absent (archived : Bool)
deriving DecidableEq

/-! ## Refusals -/

/-- The operator's name, refused empty. -/
def namedOperator (operator : Text) : Except Error Text :=
  if trim operator = [] then
    .error (invalid ("a read has to name the operator making it: the audit record's whole " ++
      "purpose is to say who read the body"))
  else .ok (trim operator)

/-- The stated reason, refused empty. -/
def statedReason (reason : Text) : Except Error Text :=
  if trim reason = [] then
    .error (invalid ("a read has to state why: an audit trail of decrypts with no reasons in it " ++
      "answers the question nobody asks"))
  else .ok (trim reason)

section
variable (P : Pipeline)

/-! ## Inspection -/

/-- The erasures standing against these subjects, given the log. -/
def erasuresIn (log : List Tombstone) : List SubjectHash → StoreM (List Erasure)
  | [] => return []
  | s :: ss => do
    let marked ← keyed (isTombstoned s)
    let rest ← erasuresIn log ss
    if marked then
      return ⟨s, (log.reverse.find? fun e => e.subject = s.text).map (·.id)⟩ :: rest
    else return rest

/-- The erasures standing against a set of subjects. -/
def erasures (subjects : List SubjectHash) : StoreM (List Erasure) := do
  let log ← readLog P
  erasuresIn log subjects

/-- Whether a cold manifest names this record. -/
def archived (record : RecordId) : StoreM Bool := do
  let found ← coldRecords P [record.text] ((← state).cold.walkFiles manifestExt) []
  return !found.isEmpty

/-- Reports what a read would attempt, without attempting it. -/
def inspect (record : RecordId) : StoreM Held := do
  match (locateRecords (← state).records).lookup record.text with
  | none => return .absent (← archived P record)
  | some path => do
    let text ← readFile Store.records path
    let d ← liftMd (Document.parse P.yaml text)
    let named := d.record.subjects.map (·.hash)
    match d.body with
    | .sealed block => do
      let subjects := block.shares.map (·.subject)
      let found ← erasures P subjects
      return .sealed subjects block.epoch.text block.ciphertext.length found
    | .plain _ =>
      if d.record.dataClass = .subjectDerived then return .shredded named (← erasures P named)
      else return .plain

/-! ## The audit record -/

/-- What an audit record says. -/
def auditSummary (record : RecordId) (keysUsed : ℕ) (epoch operator reason : Text) : Text :=
  "operator `".toList ++ operator ++ "` was granted a decrypt of [[record:".toList ++ record.text ++
    "]].\n\nreason: ".toList ++ reason ++ "\n\nkeys used: ".toList ++ (toString keysUsed).toList ++
    " subject key(s) of epoch ".toList ++ epoch ++ ".\n".toList ++
    ("Which subjects those were is not restated here: that record's own frontmatter names " ++
      "them, and a copy of it in this record would be plaintext no key protects and no erasure " ++
      "can reach.\nThis record is written before the keys are fetched, so it stands whether or " ++
      "not the body decrypted.\n").toList

/-- The record that stands for one reading: it names no subject and no entity. -/
def auditRecord (env : Env) (record : RecordId) (keysUsed : ℕ) (epoch operator reason : Text) :
    ActionRecord where
  recordId := env.ulid
  schemaVer := auditSchemaVer
  at_ := formatMs env.now
  receivedAt := formatMs env.now
  backfilled := false
  agent := operator
  agentVer := none
  correlationId := none
  action := auditAction
  outcome := .success
  attrs := .empty
  entities := []
  subjects := []
  visibility := .operator
  team := none
  dataClass := .internal
  redactionPolicy := P.redaction.name
  fieldsMasked := []
  tags := []
  summary := auditSummary record keysUsed epoch operator reason

/-! ## Reading -/

/-- The text of decrypted bytes. -/
def plaintextOf (record : RecordId) (bytes : Bytes) : Except Error Text :=
  match Utf8.decode bytes with
  | some t => .ok t
  | none =>
    let detail := Utf8.errorText bytes
    .error (invalid s!"record `{String.ofList record.text}` unsealed to bytes that are not text: {detail}")

/-- The document a record's read is about. -/
def locateForRead (record : RecordId) : StoreM Document := do
  match (locateRecords (← state).records).lookup record.text with
  | none => fail (invalid (s!"record `{String.ofList record.text}` left the tree while its read " ++
      "was being recorded"))
  | some path => do
    let text ← readFile Store.records path
    liftMd (Document.parse P.yaml text)

variable (O : Openers) (env : Env)

/-- What is answered once a body was unsealed, or was not. -/
def answerUnsealed (record audit : RecordId) (block : SealedBody) :
    Except Error Bytes → StoreM Read
  | .ok plaintext => do
    let body ← ofExcept (plaintextOf record plaintext)
    return .revealed body audit
  -- a key that is gone is the same permanent answer as an erasure
  | .error (.crypto (.keyAbsent _ _)) => do
    let subjects := block.shares.map (·.subject)
    return .shredded subjects (← erasures P subjects) (some audit)
  | .error e => fail e

/-- Fetches every share and decrypts, now that the reading is on the record. -/
def reveal (record audit : RecordId) : StoreM Read := do
  let d ← locateForRead P record
  match d.body with
  | .plain _ => return .plain
  | .sealed block => do
    let opened ← attempt (keyed («unseal» P.ciphers O (P.keys env) record block))
    answerUnsealed P record audit block opened

/-- The audit record was not published. -/
def auditNotPublished (id record : RecordId) : Error :=
  invalid (s!"the audit record `{String.ofList id.text}` for reading " ++
    s!"`{String.ofList record.text}` was not published, so nothing was read")

/-- Reads one sealed body, having first recorded who read it and why. -/
def readBody (record : RecordId) (operator reason : Text) : StoreM Read := do
  let operator ← ofExcept (namedOperator operator)
  let reason ← ofExcept (statedReason reason)
  match ← inspect P record with
  | .sealed subjects epoch _ [] => do
    let audit := auditRecord P env record subjects.length epoch operator reason
    match ← accept P env audit audit.summary with
    | .stored _ => reveal P O env record audit.recordId
    | .duplicate id => fail (auditNotPublished id record)
    | .quarantined id => fail (auditNotPublished id record)
  | .sealed subjects _ _ found => return .shredded subjects found none
  | .shredded subjects found => return .shredded subjects found none
  | .plain => return .plain
  | .absent a => return .absent a

end

end Yaam.Core
