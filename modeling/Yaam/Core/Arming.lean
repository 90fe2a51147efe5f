/-
  Which subject key a store's pseudonyms were derived from (`yaam-core`, `arming.rs`),
  and the calls that check or record it side by side.

  * `verifyOrArm` is one call that nothing interrupts, `Opens.step` the file operations
    of any number of calls over one root;
  * `Opens.Clean` is the condition on the step that publishes a record: the temporary
    sibling holds this call's own record, and the store records no other key;
  * `one_subject_key`: in a run of clean steps every key accepted is the one recorded,
    and what is recorded stays;
  * `two_keys_adopted`: two first opens side by side may both adopt their key.
-/
import Yaam.Crypto.Subject
import Yaam.Lib.Inode
import Yaam.Lib.Quoted

namespace Yaam.Core

open Text Contract Crypto

/-! ## The record -/

/-- What an open found the store recording about its subject key. -/
inductive Arming where
  | verified
  | adopted
  | unrecorded (why : Text)
deriving DecidableEq

/-- Refusals of an open, with the file each is about. -/
inductive ArmError where
  | subjectKeyMismatch (path : Text) (recorded derived : KeyCheck)
  | subjectKeyCheckUnreadable (path detail : Text)
deriving DecidableEq

def ArmError.display : ArmError → String
  | .subjectKeyMismatch path recorded derived =>
    "the subject key is not the one this store was armed with: " ++ String.ofList path ++
      s!" records check value {String.ofList recorded.display}, and this key derives " ++
      s!"{String.ofList derived.display}. Every pseudonym the store already holds came from the " ++
      "key that recorded value belongs to, so coming up under this one would file a second, " ++
      "unrelatable pseudonym for every subject already on record — and there is no re-key, no " ++
      "re-seal and no delete to take that back. Name the store's own key; or, if this key is " ++
      "that key and the recorded value was adopted from one that was not, remove the file and " ++
      "the next open records this key's"
  | .subjectKeyCheckUnreadable path detail =>
    s!"the subject-key check value at {String.ofList path} {String.ofList detail}. It records " ++
      "which subject key this store's pseudonyms were derived from, and without it this process " ++
      "cannot tell the store's own key from a substitute — which would file a second, " ++
      "unrelatable pseudonym for every subject already on record, with no re-key, no re-seal " ++
      "and no delete to take it back. A backup carries it: restore the file. If it is lost and " ++
      "the key is known to be this store's own, remove the file and the next open records the " ++
      "check value again"

/-- The recorded file. -/
structure Arming.Recorded where
  version : UInt32
  check : Text
  armedMs : ℤ
deriving DecidableEq

def checkVersion : UInt32 := 1

/-- A record's pieces between quotes, as `serde_json` spells it, and a line's end. -/
def Arming.Recorded.pieces (r : Arming.Recorded) : List Text :=
  ["\x7b\n  ".toList, "version".toList, ": ".toList ++ padNat 0 r.version.toNat ++ ",\n  ".toList,
    "check".toList, ": ".toList, r.check, ",\n  ".toList, "armed_ms".toList,
    ": ".toList ++ padInt 0 r.armedMs ++ "\n\x7d\n".toList]

def Arming.Recorded.text (r : Arming.Recorded) : Text := joinWith '"' r.pieces

/-- What a call with this check value records. -/
def recordOf (v : KeyCheck) (now : ℤ) : Arming.Recorded := ⟨checkVersion, v.display, now⟩

/-- What the calls over one root are given: how the file is named in messages, and the
    reading of its JSON. -/
structure ArmingSetup where
  hashing : Hashing
  path : Text
  fromStr : Text → Except Text Arming.Recorded

/-- What `serde_json` writes it reads back. -/
def ArmingSetup.ReadsBack (A : ArmingSetup) : Prop :=
  ∀ v now, A.fromStr (recordOf v now).text = .ok (recordOf v now)

section
variable (A : ArmingSetup)

def ArmingSetup.unreadable {α : Type} (detail : Text) : Except ArmError α :=
  .error (.subjectKeyCheckUnreadable A.path detail)

def ArmingSetup.unrecorded (detail : Text) : Except ArmError Arming :=
  .ok (.unrecorded (A.path ++ " could not be written: ".toList ++ detail))

/-- Compares a recorded value against the one this key derives. -/
def ArmingSetup.verify (text : Text) (derived : KeyCheck) : Except ArmError Arming :=
  match A.fromStr text with
  | .error e => A.unreadable ("does not parse: ".toList ++ e)
  | .ok recorded =>
    if recorded.version ≠ checkVersion then
      A.unreadable ("states format version ".toList ++ padNat 0 recorded.version.toNat ++
        ", and this build reads ".toList ++ padNat 0 checkVersion.toNat)
    else match KeyCheck.parse recorded.check with
      | .error _ =>
        A.unreadable "holds no check value: the `check` field is not 64 hex digits".toList
      | .ok recorded =>
        if recorded = derived then .ok .verified
        else .error (.subjectKeyMismatch A.path recorded derived)

/-- What reading the file's bytes comes to, when it is there. -/
def ArmingSetup.verifyBytes (bytes : Bytes) (derived : KeyCheck) : Except ArmError Arming :=
  match Utf8.decode bytes with
  | none => A.unreadable "cannot be read: stream did not contain valid UTF-8".toList
  | some text => A.verify text derived

/-- A record that says this check value. -/
def ArmingSetup.Says (bytes : Bytes) (v : KeyCheck) : Prop :=
  ∃ text r, Utf8.decode bytes = some text ∧ A.fromStr text = .ok r ∧ r.version = checkVersion ∧
    KeyCheck.parse r.check = .ok v

/-! ## Calls over one root -/

/-- The two names an arming uses: the file, and the temporary sibling it passes
    through. -/
inductive ArmName where
  | check
  | temp
deriving DecidableEq

/-- Where a call stands: the file operation it makes next. -/
inductive CallPc where
  | reading
  | opening (text : Text)
  /-- Writing the temporary sibling: the open file, and how much is written. -/
  | writing (text : Text) (ino off : ℕ)
  | renaming (text : Text)
  | syncing
  | answered (r : Except ArmError Arming)
  /-- The process is gone. -/
  | crashed
deriving DecidableEq

/-- One call, with the key it was given. -/
structure Call where
  key : SubjectKey
  pc : CallPc
deriving DecidableEq

/-- The root, and every call that was made over it. -/
structure Opens where
  disk : Disk ArmName
  calls : ℕ → Option Call

/-- A step: a call begins, makes its next file operation, sees it fail, or dies. -/
inductive OpenStep where
  | start (i : ℕ) (key : SubjectKey)
  | move (i : ℕ) (now : ℤ) (n : ℕ)
  | fault (i : ℕ) (detail : Text)
  | crash (i : ℕ)

def notFound : Text := "No such file or directory (os error 2)".toList

/-- Checks the key against what the root records, recording it if the root records
    nothing: a call that nothing interrupts. -/
def ArmingSetup.verifyOrArm (key : SubjectKey) (now : ℤ) (d : Disk ArmName) :
    Except ArmError Arming × Disk ArmName :=
  let derived := key.checkValue A.hashing
  match d.read .check with
  | some bytes => (A.verifyBytes bytes derived, d)
  | none =>
    let (ino, d) := d.create .temp
    let d := d.writeAt ino 0 (Utf8.encode (recordOf derived now).text)
    match d.rename .temp .check with
    | some d => (.ok .adopted, d)
    | none => (A.unrecorded notFound, d)

/-- The next file operation of a call, when `now` is the clock and `n` is how many bytes
    a write takes at once. -/
def ArmingSetup.next (key : SubjectKey) (now : ℤ) (n : ℕ) (d : Disk ArmName) :
    CallPc → Disk ArmName × CallPc
  | .reading =>
    let derived := key.checkValue A.hashing
    match d.read .check with
    | some bytes => (d, .answered (A.verifyBytes bytes derived))
    | none => (d, .opening (recordOf derived now).text)
  | .opening text =>
    let (ino, d) := d.create .temp
    (d, .writing text ino 0)
  | .writing text ino off =>
    let rest := (Utf8.encode text).drop off
    if rest = [] then (d, .renaming text)
    else (d.writeAt ino off (rest.take n), .writing text ino (off + (rest.take n).length))
  | .renaming _ =>
    match d.rename .temp .check with
    | some d => (d, .syncing)
    | none => (d, .answered (A.unrecorded notFound))
  | .syncing => (d, .answered (.ok .adopted))
  | .answered r => (d, .answered r)
  | .crashed => (d, .crashed)

/-- What comes of a call whose next file operation fails. -/
def ArmingSetup.faulted (detail : Text) : CallPc → CallPc
  | .reading => .answered (A.unreadable ("cannot be read: ".toList ++ detail))
  | .opening _ | .writing _ _ _ | .renaming _ | .syncing => .answered (A.unrecorded detail)
  | .answered r => .answered r
  | .crashed => .crashed

/-- What comes of a call whose process dies. -/
def CallPc.killed : CallPc → CallPc
  | .answered r => .answered r
  | _ => .crashed

/-- A call goes on, and leaves this disk behind. -/
def Opens.put (σ : Opens) (i : ℕ) (c : Call) (d : Disk ArmName) : Opens :=
  ⟨d, Function.update σ.calls i (some c)⟩

/-- One step; a step that is not there to take changes nothing. -/
def Opens.step (σ : Opens) : OpenStep → Opens
  | .start i key => if (σ.calls i).isNone then σ.put i ⟨key, .reading⟩ σ.disk else σ
  | .move i now n => (σ.calls i).elim σ fun c =>
    let (d, pc) := A.next c.key now n σ.disk c.pc
    σ.put i ⟨c.key, pc⟩ d
  | .fault i detail => (σ.calls i).elim σ fun c => σ.put i ⟨c.key, A.faulted detail c.pc⟩ σ.disk
  | .crash i => (σ.calls i).elim σ fun c => σ.put i ⟨c.key, c.pc.killed⟩ σ.disk

def Opens.run (σ : Opens) (steps : List OpenStep) : Opens := steps.foldl (Opens.step A) σ

/-! ## What the store records -/

/-- The store records this check value. -/
def Opens.Records (σ : Opens) (v : KeyCheck) : Prop :=
  ∃ bytes, σ.disk.read .check = some bytes ∧ A.Says bytes v

/-- A call came up under this key. -/
def Opens.Accepted (σ : Opens) (i : ℕ) (key : SubjectKey) : Prop :=
  σ.calls i = some ⟨key, .answered (.ok .verified)⟩ ∨
    σ.calls i = some ⟨key, .answered (.ok .adopted)⟩

/-- No call was made yet, over whatever stands under the root. -/
structure Opens.Start (σ : Opens) : Prop where
  disk : σ.disk.Wf
  calls : ∀ i, σ.calls i = none

/-- **A call publishes its own record**: the temporary sibling that it renames holds
    that record and nothing else, no other call is still writing there, and the store
    records nothing yet, or this call's own check value. -/
def Opens.Clean (σ : Opens) : OpenStep → Prop
  | .move i _ _ => ∀ key text, σ.calls i = some ⟨key, .renaming text⟩ → ∀ ino,
      σ.disk.names .temp = some ino →
        σ.disk.content ino = Utf8.encode text ∧
        (∀ j key' text' off, σ.calls j ≠ some ⟨key', .writing text' ino off⟩) ∧
        ((σ.disk.read .check).isSome → σ.Records A (key.checkValue A.hashing))
  | _ => True

/-- Every step of a run is clean where it is taken. -/
def Opens.CleanRun : Opens → List OpenStep → Prop
  | _, [] => True
  | σ, a :: as => σ.Clean A a ∧ Opens.CleanRun (σ.step A a) as

end

variable {A : ArmingSetup} {σ : Opens} {i : ℕ} {c : Call}

/-! ## A call alone -/

theorem encode_recordOf_ne_nil (v : KeyCheck) (now : ℤ) : Utf8.encode (recordOf v now).text ≠ [] := by
  intro h
  have ht : (recordOf v now).text = [] := Utf8.encode_inj h
  have hbrace : '\x7b' ∈ (recordOf v now).text := by simp [Arming.Recorded.text, Arming.Recorded.pieces, joinWith_cons_cons]
  rw [ht] at hbrace
  exact absurd hbrace List.not_mem_nil

theorem run_cons (a : OpenStep) (as : List OpenStep) :
    σ.run A (a :: as) = (σ.step A a).run A as := rfl

theorem run_append (as bs : List OpenStep) : σ.run A (as ++ bs) = (σ.run A as).run A bs :=
  List.foldl_append

@[simp] theorem Opens.put_disk (d : Disk ArmName) : (σ.put i c d).disk = d := rfl

@[simp] theorem Opens.put_calls_self (d : Disk ArmName) : (σ.put i c d).calls i = some c :=
  Function.update_self ..

theorem Opens.put_calls_of_ne {j : ℕ} (h : j ≠ i) (d : Disk ArmName) :
    (σ.put i c d).calls j = σ.calls j :=
  Function.update_of_ne h ..

theorem step_move (hi : σ.calls i = some c) (now : ℤ) (n : ℕ) :
    σ.step A (.move i now n) =
      σ.put i ⟨c.key, (A.next c.key now n σ.disk c.pc).2⟩ (A.next c.key now n σ.disk c.pc).1 := by
  simp only [Opens.step, hi, Option.elim_some]

theorem step_move_eq (hi : σ.calls i = some c) {now : ℤ} {n : ℕ} {d : Disk ArmName} {pc : CallPc}
    (h : A.next c.key now n σ.disk c.pc = (d, pc)) :
    σ.step A (.move i now n) = σ.put i ⟨c.key, pc⟩ d := by
  rw [step_move hi, h]

theorem put_put (c c' : Call) (d d' : Disk ArmName) : (σ.put i c d).put i c' d' = σ.put i c' d' := by
  simp only [Opens.put, Function.update_idem]

/-- A call goes on from where it stands. -/
theorem put_step {key : SubjectKey} {now : ℤ} {n : ℕ} {d d' : Disk ArmName} {pc pc' : CallPc}
    (h : A.next key now n d pc = (d', pc')) :
    (σ.put i ⟨key, pc⟩ d).step A (.move i now n) = σ.put i ⟨key, pc'⟩ d' := by
  rw [step_move_eq (c := ⟨key, pc⟩) (Opens.put_calls_self d) h, put_put]

theorem clean_put {key : SubjectKey} {now : ℤ} {n : ℕ} {d : Disk ArmName} {pc : CallPc}
    (h : ∀ text, pc ≠ .renaming text) : (σ.put i ⟨key, pc⟩ d).Clean A (.move i now n) := by
  intro key' text hi
  rw [Opens.put_calls_self] at hi
  exact absurd (congrArg Call.pc (Option.some.inj hi)) (h text)

/-- No call is writing the temporary sibling. -/
def Opens.Quiet (σ : Opens) : Prop :=
  ∀ j key text ino off, σ.calls j ≠ some ⟨key, .writing text ino off⟩

/-- **A call that nothing interrupts is clean**, and its steps are the call. -/
theorem run_alone (hi : σ.calls i = none) (hquiet : σ.Quiet) (hwf : σ.disk.Wf) (key : SubjectKey)
    (now : ℤ) : ∃ steps, σ.CleanRun A steps ∧
      σ.run A steps = σ.put i ⟨key, .answered (A.verifyOrArm key now σ.disk).1⟩
        (A.verifyOrArm key now σ.disk).2 := by
  have hstart : σ.step A (.start i key) = σ.put i ⟨key, .reading⟩ σ.disk := by
    simp [Opens.step, hi]
  cases hread : σ.disk.read .check with
  | some bytes =>
    have hnext : A.next key now 0 σ.disk .reading =
        (σ.disk, .answered (A.verifyBytes bytes (key.checkValue A.hashing))) := by
      rw [ArmingSetup.next, hread]
    refine ⟨[.start i key, .move i now 0], ⟨trivial, ?_, trivial⟩, ?_⟩
    · rw [hstart]
      exact clean_put fun _ h => by cases h
    · rw [run_cons, run_cons, hstart, put_step hnext, ArmingSetup.verifyOrArm, hread]
      rfl
  | none =>
    generalize htext : (recordOf (key.checkValue A.hashing) now).text = text
    generalize hbytes : Utf8.encode text = bytes
    have hne : bytes ≠ [] := by
      rw [← hbytes, ← htext]
      exact encode_recordOf_ne_nil _ _
    cases hcreate : σ.disk.create .temp with
    | mk ino d =>
      have hread' : A.next key now 0 σ.disk .reading = (σ.disk, .opening text) := by
        rw [ArmingSetup.next, hread, htext]
      have hopen : A.next key now 0 σ.disk (.opening text) = (d, .writing text ino 0) := by
        rw [ArmingSetup.next, hcreate]
      have hwrite : A.next key now bytes.length d (.writing text ino 0) =
          (d.writeAt ino 0 bytes, .writing text ino bytes.length) := by
        rw [ArmingSetup.next, hbytes, List.drop_zero, if_neg hne, List.take_length, Nat.zero_add]
      have hsync : A.next key now 0 (d.writeAt ino 0 bytes) (.writing text ino bytes.length) =
          (d.writeAt ino 0 bytes, .renaming text) := by
        rw [ArmingSetup.next, hbytes, List.drop_length, if_pos rfl]
      have htemp : d.names .temp = some ino := by
        have := Disk.names_create (d := σ.disk) (n := .temp)
        rwa [hcreate] at this
      have hcontent : (d.writeAt ino 0 bytes).content ino = bytes := by
        have hempty : d.content ino = [] := by
          have := congrFun (Disk.content_create (d := σ.disk) (n := .temp)) ino
          rwa [hcreate, Function.update_self] at this
        simp [Disk.writeAt, hempty, Disk.overwrite]
      have hcheck : (d.writeAt ino 0 bytes).read .check = none := by
        have hnames := Disk.names_create_of_ne (d := σ.disk) (a := .check) (n := .temp) (by decide)
        have hnot := hwf.create_ne (a := .check) (n := .temp) (by decide)
        have hsame := hwf.read_create (a := .check) (n := .temp) (by decide)
        rw [hcreate] at hnames hnot hsame
        rw [Disk.read_writeAt (hnames ▸ hnot) 0 bytes, hsame, hread]
      have htemp' : (d.writeAt ino 0 bytes).names .temp = some ino := htemp
      cases hrename : (d.writeAt ino 0 bytes).rename .temp .check with
      | none => simp [Disk.rename, htemp'] at hrename
      | some d' =>
        have halone : A.verifyOrArm key now σ.disk = (.ok .adopted, d') := by
          rw [ArmingSetup.verifyOrArm, hread]
          dsimp only
          rw [hcreate, htext, hbytes]
          dsimp only
          rw [hrename]
        generalize d.writeAt ino 0 bytes = written at *
        have hpublish : A.next key now 0 written (.renaming text) = (d', .syncing) := by
          rw [ArmingSetup.next, hrename]
        have hdone : A.next key now 0 d' .syncing = (d', .answered (.ok .adopted)) := rfl
        have hclean : (σ.put i ⟨key, .renaming text⟩ written).Clean A (.move i now 0) := by
          intro key' text' hi' ino' hino'
          rw [Opens.put_calls_self] at hi'
          obtain ⟨rfl, hpc⟩ := Call.mk.inj (Option.some.inj hi')
          obtain rfl := CallPc.renaming.inj hpc
          obtain rfl := Option.some.inj (htemp'.symm.trans hino')
          refine ⟨hcontent.trans hbytes.symm, fun j key' text' off hj => ?_, fun h => ?_⟩
          · by_cases hji : j = i
            · subst hji
              rw [Opens.put_calls_self] at hj
              cases hj
            · exact hquiet j _ _ _ _ ((Opens.put_calls_of_ne hji _).symm.trans hj)
          · rw [Opens.put_disk, hcheck] at h
            cases h
        refine ⟨[.start i key, .move i now 0, .move i now 0, .move i now bytes.length, .move i now 0,
          .move i now 0, .move i now 0], ?_, ?_⟩
        · simp only [Opens.CleanRun, hstart, put_step hread', put_step hopen, put_step hwrite,
            put_step hsync, put_step hpublish]
          refine ⟨trivial, clean_put ?_, clean_put ?_, clean_put ?_, clean_put ?_, hclean,
            clean_put ?_, trivial⟩
          all_goals
            intro _ h
            cases h
        · simp only [Opens.run, List.foldl_cons, List.foldl_nil, hstart, put_step hread',
            put_step hopen, put_step hwrite, put_step hsync, put_step hpublish, put_step hdone, halone]

/-! ## The invariant -/

theorem ArmingSetup.Says.unique {bytes : Bytes} {v w : KeyCheck} (h : A.Says bytes v)
    (h' : A.Says bytes w) : v = w := by
  obtain ⟨t, r, ht, hr, -, hv⟩ := h
  obtain ⟨t', r', ht', hr', -, hw⟩ := h'
  obtain rfl := Option.some.inj (ht.symm.trans ht')
  obtain rfl := Except.ok.inj (hr.symm.trans hr')
  exact Except.ok.inj (hv.symm.trans hw)

theorem ArmingSetup.ReadsBack.reads (hA : A.ReadsBack) (v : KeyCheck) (now : ℤ) :
    A.Says (Utf8.encode (recordOf v now).text) v :=
  ⟨_, _, Utf8.decode_encode _, hA v now, rfl, KeyCheck.parse_display v⟩

theorem unreadable_ne_ok (detail : Text) (x : Arming) : A.unreadable detail ≠ .ok x := nofun

/-- A key is verified against the records that say its check value, and a record answers
    nothing else but refusals. -/
theorem verifyBytes_eq_ok {bytes : Bytes} {v : KeyCheck} {x : Arming} :
    A.verifyBytes bytes v = .ok x ↔ x = .verified ∧ A.Says bytes v := by
  unfold ArmingSetup.verifyBytes ArmingSetup.verify
  constructor
  · intro h
    split at h
    · exact absurd h (unreadable_ne_ok _ _)
    · rename_i text htext
      split at h
      · exact absurd h (unreadable_ne_ok _ _)
      · rename_i r hr
        split_ifs at h with hver
        · exact absurd h (unreadable_ne_ok _ _)
        · split at h
          · exact absurd h (unreadable_ne_ok _ _)
          · rename_i w hw
            split_ifs at h with hwv
            exact ⟨(Except.ok.inj h).symm, text, r, htext, hr, not_not.1 hver, hwv ▸ hw⟩
  · rintro ⟨rfl, text, r, htext, hr, hver, hv⟩
    rw [htext]
    dsimp only
    rw [hr]
    dsimp only
    rw [if_neg (not_not.2 hver), hv]
    exact if_pos rfl

/-- The record a call is on its way to write. -/
def CallPc.text : CallPc → Option Text
  | .opening t | .writing t _ _ | .renaming t => some t
  | _ => none

/-- A call that has published its record, or came up. -/
def CallPc.Up (pc : CallPc) : Prop :=
  pc = .syncing ∨ pc = .answered (.ok .verified) ∨ pc = .answered (.ok .adopted)

/-- What stands between clean steps, over a root that read this at the start. -/
structure Opens.Inv (A : ArmingSetup) (first : Option Bytes) (σ : Opens) : Prop where
  wf : σ.disk.Wf
  unwritten : ∀ i key text ino off, σ.calls i = some ⟨key, .writing text ino off⟩ →
    σ.disk.names .check ≠ some ino
  own : ∀ i c text, σ.calls i = some c → c.pc.text = some text →
    ∃ now, text = (recordOf (c.key.checkValue A.hashing) now).text
  up : ∀ i c, σ.calls i = some c → c.pc.Up → σ.Records A (c.key.checkValue A.hashing)
  source : ∀ bytes, σ.disk.read .check = some bytes → first = some bytes ∨
    ∃ i c, σ.calls i = some c ∧ σ.Records A (c.key.checkValue A.hashing)

theorem Opens.Records.congr {τ : Opens} (h : τ.disk.read .check = σ.disk.read .check) {v : KeyCheck}
    (hv : σ.Records A v) : τ.Records A v := by
  obtain ⟨bytes, hb, hs⟩ := hv
  exact ⟨bytes, h.trans hb, hs⟩

variable {first : Option Bytes}

/-- What is recorded stays, and what is recorded now is what was, or this call's. -/
structure Opens.Publishes (A : ArmingSetup) (σ : Opens) (key : SubjectKey) (d : Disk ArmName) :
    Prop where
  kept : ∀ v, σ.Records A v → ∃ bytes, d.read .check = some bytes ∧ A.Says bytes v
  source : d.read .check = σ.disk.read .check ∨
    ∃ bytes, d.read .check = some bytes ∧ A.Says bytes (key.checkValue A.hashing)

theorem Opens.Publishes.of_read {d : Disk ArmName} (key : SubjectKey)
    (h : d.read .check = σ.disk.read .check) : σ.Publishes A key d :=
  ⟨fun _ ⟨bytes, hb, hs⟩ => ⟨bytes, h.trans hb, hs⟩, .inl h⟩

/-- A call that goes on keeps the invariant, when what it leaves behind does. -/
theorem Opens.Inv.put (h : σ.Inv A first) {key : SubjectKey}
    (hkey : ∀ c₀, σ.calls i = some c₀ → c₀.key = key)
    {d : Disk ArmName} {pc : CallPc} (hd : d.Wf) (hpub : σ.Publishes A key d)
    (hothers : ∀ j key text ino off, j ≠ i → σ.calls j = some ⟨key, .writing text ino off⟩ →
      d.names .check ≠ some ino)
    (hwriting : ∀ text ino off, pc = .writing text ino off → d.names .check ≠ some ino)
    (hown : ∀ text, pc.text = some text →
      ∃ now, text = (recordOf (key.checkValue A.hashing) now).text)
    (hup : pc.Up → (σ.put i ⟨key, pc⟩ d).Records A (key.checkValue A.hashing)) :
    (σ.put i ⟨key, pc⟩ d).Inv A first := by
  have hcalls : ∀ j c', (σ.put i ⟨key, pc⟩ d).calls j = some c' →
      j = i ∧ c' = ⟨key, pc⟩ ∨ j ≠ i ∧ σ.calls j = some c' := by
    intro j c' hj
    by_cases hji : j = i
    · subst hji
      rw [Opens.put_calls_self] at hj
      exact .inl ⟨rfl, (Option.some.inj hj).symm⟩
    · exact .inr ⟨hji, (Opens.put_calls_of_ne hji _).symm.trans hj⟩
  refine ⟨hd, ?_, ?_, ?_, ?_⟩
  · intro j key' text ino off hj
    rcases hcalls j _ hj with ⟨rfl, he⟩ | ⟨hji, hj⟩
    · exact hwriting text ino off (congrArg Call.pc he).symm
    · exact hothers j key' text ino off hji hj
  · intro j c' text hj htext
    rcases hcalls j c' hj with ⟨rfl, rfl⟩ | ⟨hji, hj⟩
    · exact hown text htext
    · exact h.own j c' text hj htext
  · intro j c' hj hpc
    rcases hcalls j c' hj with ⟨rfl, rfl⟩ | ⟨hji, hj⟩
    · exact hup hpc
    · exact hpub.kept _ (h.up j c' hj hpc)
  · intro bytes hbytes
    have hcall : ∀ {j c'}, σ.calls j = some c' →
        ∃ c'', (σ.put i ⟨key, pc⟩ d).calls j = some c'' ∧ c''.key = c'.key := by
      intro j c' hj
      by_cases hji : j = i
      · subst hji
        exact ⟨⟨key, pc⟩, Opens.put_calls_self _, (hkey c' hj).symm⟩
      · exact ⟨c', (Opens.put_calls_of_ne hji _).trans hj, rfl⟩
    rcases hpub.source with hread | ⟨bytes', hb', hs⟩
    · rcases h.source bytes (hread.symm.trans hbytes) with h1 | ⟨j, c', hj, hrec⟩
      · exact .inl h1
      · obtain ⟨c'', hj', hk⟩ := hcall hj
        exact .inr ⟨j, c'', hj', hk ▸ hpub.kept _ hrec⟩
    · exact .inr ⟨i, ⟨key, pc⟩, Opens.put_calls_self _, bytes', hb', hs⟩

/-- **What a step keeps.** -/
structure Opens.Kept (A : ArmingSetup) (first : Option Bytes) (σ τ : Opens) : Prop where
  inv : τ.Inv A first
  records : ∀ v, σ.Records A v → τ.Records A v

/-- A step that leaves the file as it reads. -/
theorem Opens.Inv.idle (h : σ.Inv A first) {key : SubjectKey} {pc : CallPc}
    (hkey : ∀ c₀, σ.calls i = some c₀ → c₀.key = key)
    (hquiet : ∀ text ino off, pc ≠ .writing text ino off) (htext : pc.text = none)
    (hup : pc.Up → σ.Records A (key.checkValue A.hashing)) :
    Opens.Kept A first σ (σ.put i ⟨key, pc⟩ σ.disk) :=
  ⟨h.put hkey h.wf (.of_read _ rfl) (fun j key text ino off _ hj => h.unwritten j key text ino off hj)
      (fun text ino off he => absurd he (hquiet text ino off)) (by simp [htext]) hup,
    fun _ hv => hv⟩

theorem keys_agree {key : SubjectKey} {pc : CallPc} (hi : σ.calls i = some ⟨key, pc⟩) :
    ∀ c₀, σ.calls i = some c₀ → c₀.key = key := by
  rintro c₀ h
  rw [Option.some.inj (h.symm.trans hi)]

/-- The next file operation of a call. -/
theorem Opens.Inv.next (hA : A.ReadsBack) (h : σ.Inv A first) (hi : σ.calls i = some c) {now : ℤ}
    {n : ℕ} (hclean : σ.Clean A (.move i now n)) :
    Opens.Kept A first σ (σ.step A (.move i now n)) := by
  obtain ⟨key, pc⟩ := c
  have hothers : ∀ j key text ino off, j ≠ i → σ.calls j = some ⟨key, .writing text ino off⟩ →
      σ.disk.names .check ≠ some ino :=
    fun j key text ino off _ hj => h.unwritten j key text ino off hj
  have hown : ∀ text, pc.text = some text →
      ∃ ms, text = (recordOf (key.checkValue A.hashing) ms).text :=
    fun text => h.own i ⟨key, pc⟩ text hi
  cases pc with
  | reading =>
    cases hread : σ.disk.read .check with
    | none =>
      have hnext : A.next key now n σ.disk .reading =
          (σ.disk, .opening (recordOf (key.checkValue A.hashing) now).text) := by
        rw [ArmingSetup.next, hread]
      rw [step_move_eq hi hnext]
      refine ⟨h.put (keys_agree hi) h.wf (.of_read key rfl) hothers nofun ?_ ?_, fun _ hv => hv⟩
      · rintro text htext
        exact ⟨now, (Option.some.inj htext).symm⟩
      · rintro (h | h | h) <;> cases h
    | some bytes =>
      have hnext : A.next key now n σ.disk .reading =
          (σ.disk, .answered (A.verifyBytes bytes (key.checkValue A.hashing))) := by
        rw [ArmingSetup.next, hread]
      have hsaid : ∀ x, A.verifyBytes bytes (key.checkValue A.hashing) = .ok x →
          σ.Records A (key.checkValue A.hashing) := fun x hx =>
        ⟨bytes, hread, (verifyBytes_eq_ok.1 hx).2⟩
      rw [step_move_eq hi hnext]
      refine h.idle (keys_agree hi) nofun rfl ?_
      rintro (h | h | h)
      · cases h
      · exact hsaid _ (CallPc.answered.inj h)
      · exact hsaid _ (CallPc.answered.inj h)
  | opening text =>
    have hnext : A.next key now n σ.disk (.opening text) =
        ((σ.disk.create .temp).2, .writing text (σ.disk.create .temp).1 0) := rfl
    have hread := h.wf.read_create (a := .check) (n := .temp) (by decide)
    rw [step_move_eq hi hnext]
    refine ⟨h.put (keys_agree hi) (h.wf.create .temp) (.of_read key hread) ?_ ?_ ?_ ?_,
      fun v hv => hv.congr hread⟩
    · intro j key' text' ino off _ hj
      rw [Disk.names_create_of_ne (by decide)]
      exact h.unwritten j key' text' ino off hj
    · rintro text' ino off he
      obtain ⟨-, rfl, -⟩ := CallPc.writing.inj he
      rw [Disk.names_create_of_ne (by decide)]
      exact h.wf.create_ne (by decide)
    · exact hown
    · rintro (h | h | h) <;> cases h
  | writing text ino off =>
    have hnot : σ.disk.names .check ≠ some ino := h.unwritten i key text ino off hi
    by_cases hrest : (Utf8.encode text).drop off = []
    · have hnext : A.next key now n σ.disk (.writing text ino off) = (σ.disk, .renaming text) := by
        rw [ArmingSetup.next, if_pos hrest]
      rw [step_move_eq hi hnext]
      refine ⟨h.put (keys_agree hi) h.wf (.of_read key rfl) hothers nofun ?_ ?_, fun _ hv => hv⟩
      · exact hown
      · rintro (h | h | h) <;> cases h
    · generalize hpart : ((Utf8.encode text).drop off).take n = part
      have hnext : A.next key now n σ.disk (.writing text ino off) =
          (σ.disk.writeAt ino off part, .writing text ino (off + part.length)) := by
        rw [ArmingSetup.next, if_neg hrest, hpart]
      have hread := Disk.read_writeAt hnot off part
      rw [step_move_eq hi hnext]
      refine ⟨h.put (keys_agree hi) (h.wf.writeAt _ _ _) (.of_read key hread) hothers ?_ ?_ ?_,
        fun v hv => hv.congr hread⟩
      · rintro text' ino' off' he
        obtain ⟨-, rfl, -⟩ := CallPc.writing.inj he
        exact hnot
      · exact hown
      · rintro (h | h | h) <;> cases h
  | «renaming» text =>
    cases hrename : σ.disk.rename .temp .check with
    | none =>
      have hnext : A.next key now n σ.disk (.renaming text) =
          (σ.disk, .answered (A.unrecorded notFound)) := by
        rw [ArmingSetup.next, hrename]
      rw [step_move_eq hi hnext]
      refine h.idle (keys_agree hi) nofun rfl ?_
      rintro (h | h | h) <;> cases h
    | some d =>
      obtain ⟨ino, htemp, hcheck, -, hread⟩ := Disk.rename_eq_some hrename
      obtain ⟨hcontent, hnobody, hsame⟩ := hclean key text hi ino htemp
      obtain ⟨ms, rfl⟩ := hown text rfl
      have hsaid : A.Says (σ.disk.content ino) (key.checkValue A.hashing) :=
        hcontent ▸ hA.reads _ ms
      -- what stood there before said this call's check value as well
      have hkept : ∀ v, σ.Records A v → v = key.checkValue A.hashing := by
        rintro v ⟨bytes, hb, hv⟩
        obtain ⟨bytes', hb', hw⟩ := hsame (by rw [hb]; rfl)
        obtain rfl := Option.some.inj (hb.symm.trans hb')
        exact hv.unique hw
      have hpub : σ.Publishes A key d :=
        ⟨fun v hv => ⟨_, hread, (hkept v hv) ▸ hsaid⟩, .inr ⟨_, hread, hsaid⟩⟩
      have hnext : A.next key now n σ.disk (.renaming (recordOf (key.checkValue A.hashing) ms).text) =
          (d, .syncing) := by
        rw [ArmingSetup.next, hrename]
      rw [step_move_eq hi hnext]
      refine ⟨h.put (keys_agree hi) (h.wf.rename hrename (by decide)) hpub ?_ nofun nofun ?_,
        hpub.kept⟩
      · intro j key' text' ino' off _ hj he
        obtain rfl := Option.some.inj (hcheck.symm.trans he)
        exact hnobody j key' text' off hj
      · exact fun _ => ⟨_, hread, hsaid⟩
  | syncing =>
    have hnext : A.next key now n σ.disk .syncing = (σ.disk, .answered (.ok .adopted)) := rfl
    rw [step_move_eq hi hnext]
    exact h.idle (keys_agree hi) nofun rfl fun _ => h.up i _ hi (.inl rfl)
  | answered r =>
    have hnext : A.next key now n σ.disk (.answered r) = (σ.disk, .answered r) := rfl
    rw [step_move_eq hi hnext]
    exact h.idle (keys_agree hi) nofun rfl fun hpc => h.up i _ hi hpc
  | crashed =>
    have hnext : A.next key now n σ.disk .crashed = (σ.disk, .crashed) := rfl
    rw [step_move_eq hi hnext]
    exact h.idle (keys_agree hi) nofun rfl fun hpc => h.up i _ hi hpc

/-- **A clean step keeps the invariant, and what is recorded.** -/
theorem Opens.Inv.step (hA : A.ReadsBack) (h : σ.Inv A first) {a : OpenStep} (hclean : σ.Clean A a) :
    Opens.Kept A first σ (σ.step A a) := by
  have hsame : Opens.Kept A first σ σ := ⟨h, fun _ hv => hv⟩
  cases a with
  | start i key =>
    simp only [Opens.step]
    split_ifs with hnone
    · refine h.idle ?_ nofun rfl ?_
      · intro c₀ hc
        rw [hc] at hnone
        cases hnone
      · rintro (h | h | h) <;> cases h
    · exact hsame
  | move i now n =>
    cases hi : σ.calls i with
    | none =>
      simp only [Opens.step, hi, Option.elim_none]
      exact hsame
    | some c => exact h.next hA hi hclean
  | fault i detail =>
    simp only [Opens.step]
    cases hi : σ.calls i with
    | none => exact hsame
    | some c =>
      obtain ⟨key, pc⟩ := c
      refine h.idle (keys_agree hi) ?_ ?_ ?_
      · cases pc <;> nofun
      · cases pc <;> rfl
      · intro hup
        have hsame : A.faulted detail pc = pc := by
          cases pc <;> first | rfl | rcases hup with h | h | h <;> cases h
        exact h.up i _ hi (hsame ▸ hup)
  | crash i =>
    simp only [Opens.step]
    cases hi : σ.calls i with
    | none => exact hsame
    | some c =>
      obtain ⟨key, pc⟩ := c
      refine h.idle (keys_agree hi) ?_ ?_ ?_
      · cases pc <;> nofun
      · cases pc <;> rfl
      · intro hup
        have hsame : pc.killed = pc := by
          cases pc <;> first | rfl | rcases hup with h | h | h <;> cases h
        exact h.up i _ hi (hsame ▸ hup)

theorem Opens.Inv.run (hA : A.ReadsBack) {as : List OpenStep} (h : σ.Inv A first)
    (hclean : σ.CleanRun A as) : Opens.Kept A first σ (σ.run A as) := by
  induction as generalizing σ with
  | nil => exact ⟨h, fun _ hv => hv⟩
  | cons a as ih =>
    have hstep := h.step hA hclean.1
    have hrest := ih hstep.inv hclean.2
    exact ⟨hrest.inv, fun v hv => hrest.records v (hstep.records v hv)⟩

theorem cleanRun_append {as bs : List OpenStep} :
    σ.CleanRun A (as ++ bs) ↔ σ.CleanRun A as ∧ (σ.run A as).CleanRun A bs := by
  induction as generalizing σ with
  | nil => exact (and_iff_right trivial).symm
  | cons a as ih =>
    rw [List.cons_append, Opens.CleanRun, ih, Opens.CleanRun, and_assoc]
    rfl

theorem Opens.Start.inv (h : σ.Start) : σ.Inv A (σ.disk.read .check) where
  wf := h.disk
  unwritten i key text ino off hi := by simp [h.calls i] at hi
  own i c text hi := by simp [h.calls i] at hi
  up i c hi := by simp [h.calls i] at hi
  source bytes hb := .inl hb

/-! ## One key -/

/-- A key whose check value is recorded is not refused. -/
theorem Opens.Records.verified {key : SubjectKey} (h : σ.Records A (key.checkValue A.hashing))
    (now : ℤ) : (A.verifyOrArm key now σ.disk).1 = .ok .verified := by
  obtain ⟨bytes, hb, hs⟩ := h
  rw [ArmingSetup.verifyOrArm, hb]
  exact verifyBytes_eq_ok.2 ⟨rfl, hs⟩

/-- **A store armed with one subject key**, over a run that starts in one state, passes
    through a second and ends in a third: the calls that came up have one check value;
    what was recorded on the way still is; no key that came up is refused afterwards;
    and what is recorded was there from the start, or is a call's own and refuses that
    call's key never. -/
structure ArmedOnce (A : ArmingSetup) (σ τ υ : Opens) : Prop where
  agree : ∀ i j key key', υ.Accepted i key → υ.Accepted j key' →
    key.checkValue A.hashing = key'.checkValue A.hashing
  kept : ∀ v, τ.Records A v → υ.Records A v
  opens : ∀ i key, υ.Accepted i key → ∀ now, (A.verifyOrArm key now υ.disk).1 = .ok .verified
  recorded : ∀ bytes, υ.disk.read .check = some bytes → σ.disk.read .check = some bytes ∨
    ∃ i c, υ.calls i = some c ∧ ∀ now, (A.verifyOrArm c.key now υ.disk).1 = .ok .verified

/-- **A run in which every call publishes its own record arms the store with one key**,
    however its calls interleave, fail and die. -/
theorem one_subject_key (hA : A.ReadsBack) (hstart : σ.Start) {as bs : List OpenStep}
    (hclean : σ.CleanRun A (as ++ bs)) : ArmedOnce A σ (σ.run A as) (σ.run A (as ++ bs)) := by
  obtain ⟨has, hbs⟩ := cleanRun_append.1 hclean
  have hmid := hstart.inv.run hA has
  have hend := hmid.inv.run hA hbs
  rw [run_append]
  have hup : ∀ i key, ((σ.run A as).run A bs).Accepted i key →
      ((σ.run A as).run A bs).Records A (key.checkValue A.hashing) := by
    rintro i key (h | h)
    · exact hend.inv.up i _ h (.inr (.inl rfl))
    · exact hend.inv.up i _ h (.inr (.inr rfl))
  refine ⟨?_, hend.records, ?_, ?_⟩
  · intro i j key key' hi hj
    obtain ⟨bytes, hb, hs⟩ := hup i key hi
    obtain ⟨bytes', hb', hs'⟩ := hup j key' hj
    obtain rfl := Option.some.inj (hb.symm.trans hb')
    exact hs.unique hs'
  · exact fun i key hi now => (hup i key hi).verified now
  · intro bytes hb
    rcases hend.inv.source bytes hb with h | ⟨i, c, hi, hrec⟩
    · exact .inl h
    · exact .inr ⟨i, c, hi, fun now => hrec.verified now⟩

/-! ## A deployment -/

/-- A stand-in for the HMAC that tells keys apart. -/
def keyedHashing : Hashing where
  casing := ⟨id, id⟩
  nfc := id
  hmac k _ := (k ++ List.replicate 32 0).take 32
  length_hmac _ _ := by simp

/-- A record from its text between quotes. -/
def recordedOfText (t : Text) : Except Text Arming.Recorded :=
  match splitOn '"' t with
  | [_, _, version, _, _, check, _, _, armedMs] => .ok
      ⟨UInt32.ofNat (number (version.filter isDigit)), check,
        readInt (armedMs.filter fun c => c.isDigit || c == '-')⟩
  | _ => .error "expected value at line 1 column 1".toList

def armingSetup : ArmingSetup := ⟨keyedHashing, "memory/subject-key-check.json".toList, recordedOfText⟩

theorem filter_padInt (w : ℕ) (n : ℤ) :
    (padInt w n).filter (fun c => c.isDigit || c == '-') = padInt w n := by
  refine List.filter_eq_self.2 fun c hc => ?_
  rcases mem_padInt hc with rfl | hd
  · decide
  · simp [hd]

theorem notMem_pieces (v : KeyCheck) (now : ℤ) : ∀ p ∈ (recordOf v now).pieces, '"' ∉ p := by
  have hms : '"' ∉ padInt 0 now := by
    intro h
    rcases mem_padInt h with h | h
    · exact absurd h (by decide)
    · exact absurd h (by decide)
  have hcheck : '"' ∉ v.display := fun h => absurd (mem_hexEncode h) (by decide)
  intro p hp
  simp only [Arming.Recorded.pieces, recordOf, List.mem_cons, List.not_mem_nil, or_false] at hp
  rcases hp with rfl | rfl | rfl | rfl | rfl | rfl | rfl | rfl | rfl
  all_goals try decide
  · exact hcheck
  · simp [hms]

theorem armingSetup_readsBack : armingSetup.ReadsBack := by
  intro v now
  have hsplit : splitOn '"' (recordOf v now).text = (recordOf v now).pieces :=
    splitOn_joinWith (by simp [Arming.Recorded.pieces]) (notMem_pieces v now)
  have hversion : number ((": ".toList ++ padNat 0 checkVersion.toNat ++ ",\n  ".toList).filter isDigit) =
      1 := by decide
  have hms : readInt ((": ".toList ++ padInt 0 now ++ "\n\x7d\n".toList).filter
      fun c => c.isDigit || c == '-') = now := by
    have h1 : (": ".toList).filter (fun c => c.isDigit || c == '-') = [] := by decide
    have h2 : ("\n\x7d\n".toList).filter (fun c => c.isDigit || c == '-') = [] := by decide
    rw [List.filter_append, List.filter_append, h1, h2, filter_padInt, List.append_nil,
      List.nil_append, readInt_padInt]
  show recordedOfText _ = _
  rw [recordedOfText, hsplit]
  simp only [Arming.Recorded.pieces, recordOf, hversion, hms]
  rfl

def keyA : SubjectKey := ⟨List.replicate 32 1, by simp⟩
def keyB : SubjectKey := ⟨List.replicate 32 2, by simp⟩

/-- A root that holds neither file, and no calls yet. -/
def emptyRoot : Opens := ⟨⟨fun _ => none, fun _ => [], 0⟩, fun _ => none⟩

theorem emptyRoot_start : emptyRoot.Start := ⟨⟨nofun, nofun⟩, fun _ => rfl⟩

/-- The file operations of a call that finds no record, from the second on. -/
def recording (i : ℕ) : List OpenStep := [0, 1000, 0, 0, 0].map (.move i 0)

/-- **Two first opens side by side adopt two keys**: both find nothing, and each records
    its own. -/
theorem two_keys_adopted :
    ∃ steps, (emptyRoot.run armingSetup steps).Accepted 0 keyA ∧
      (emptyRoot.run armingSetup steps).Accepted 1 keyB ∧
      keyA.checkValue armingSetup.hashing ≠ keyB.checkValue armingSetup.hashing := by
  refine ⟨[.start 0 keyA, .start 1 keyB, .move 0 0 0, .move 1 0 0] ++ recording 0 ++ recording 1,
    .inr ?_, .inr ?_, by decide⟩
  · decide +kernel
  · decide +kernel

/-- Two opens under one key, one after the other: the first adopts it, the second finds
    it on record. -/
theorem one_subject_key_twice :
    ∃ as bs, (emptyRoot.run armingSetup (as ++ bs)).calls 0 = some ⟨keyA, .answered (.ok .adopted)⟩ ∧
      (emptyRoot.run armingSetup (as ++ bs)).calls 1 = some ⟨keyA, .answered (.ok .verified)⟩ ∧
      ArmedOnce armingSetup emptyRoot (emptyRoot.run armingSetup as)
        (emptyRoot.run armingSetup (as ++ bs)) := by
  obtain ⟨as, has, hrun⟩ := run_alone (A := armingSetup) (σ := emptyRoot) (i := 0) rfl
    (fun _ _ _ _ _ => nofun) emptyRoot_start.disk keyA 0
  have hfirst : (armingSetup.verifyOrArm keyA 0 emptyRoot.disk).1 = .ok .adopted := by decide +kernel
  rw [hfirst] at hrun
  have hinv := emptyRoot_start.inv.run armingSetup_readsBack has
  have hquiet : (emptyRoot.run armingSetup as).Quiet := by
    intro j key text ino off hj
    rw [hrun] at hj
    by_cases hj0 : j = 0
    · subst hj0
      rw [Opens.put_calls_self] at hj
      cases hj
    · exact absurd ((Opens.put_calls_of_ne hj0 _).symm.trans hj) nofun
  have hcalls : (emptyRoot.run armingSetup as).calls 0 = some ⟨keyA, .answered (.ok .adopted)⟩ := by
    rw [hrun, Opens.put_calls_self]
  have hsecond := (hinv.inv.up 0 _ hcalls (.inr (.inr rfl))).verified 0
  obtain ⟨bs, hbs, hrun'⟩ := run_alone (A := armingSetup) (σ := emptyRoot.run armingSetup as) (i := 1)
    (by rw [hrun]; rfl) hquiet hinv.inv.wf keyA 0
  rw [hsecond] at hrun'
  refine ⟨as, bs, ?_, ?_, one_subject_key armingSetup_readsBack emptyRoot_start
    (cleanRun_append.2 ⟨has, hbs⟩)⟩
  · rw [run_append, hrun']
    exact (Opens.put_calls_of_ne Nat.zero_ne_one _).trans hcalls
  · rw [run_append, hrun', Opens.put_calls_self]

end Yaam.Core
