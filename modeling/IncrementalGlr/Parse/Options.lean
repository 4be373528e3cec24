/-!
# Limits of a parse
-/

namespace IncrementalGlr

structure ParserOptions where
  maxVersions : Nat
  maxPopDepth : Nat
  maxMissing : Nat
  maxReduceSteps : Nat
  deriving DecidableEq, Repr

namespace ParserOptions

def standard : ParserOptions := ⟨6, 16, 3, 10000⟩

instance : Inhabited ParserOptions := ⟨standard⟩

end ParserOptions

end IncrementalGlr
