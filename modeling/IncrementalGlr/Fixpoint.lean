/-!
# Iteration to a fixed point
-/

namespace IncrementalGlr

def stabilize {α : Type} [BEq α] (f : α → α) : Nat → α → α
  | 0, x => x
  | fuel + 1, x =>
    let next := f x
    if next == x then x else stabilize f fuel next

end IncrementalGlr
