import IncrementalGlr.Proofs.Parse.Derivation
import IncrementalGlr.Proofs.Parse.Steadiness

/-!
# Condensing

Versions are merged if they are at the same place of the text and in the same states. The test for
it looks at less than the place and at more than the states, but for the versions of a parse it
comes to the same.
-/

namespace IncrementalGlr

variable {version other : Version} {table : Table} {text : List Char}

theorem Version.Fits.position_eq (fits : version.Fits table text) (fits' : other.Fits table text)
    (bytes : version.stack.position.bytes = other.stack.position.bytes) :
    version.stack.position = other.stack.position := by
  obtain ⟨pre, post, whole, spells⟩ := fits
  obtain ⟨pre', post', whole', spells'⟩ := fits'
  rw [spells.stack.position, spells'.stack.position] at bytes ⊢
  rw [(cut_unique (whole.symm.trans whole') bytes).1]

namespace Engine

variable {engine : Engine} {input : ParseInput}

variable {language : Language} {options : ParserOptions} {source : String} {old : Option Tree}

end Engine

end IncrementalGlr
