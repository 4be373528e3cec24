/-!
# Identifiers

Symbols, parser states, fields and productions are numbered by 16-bit words. Symbols are laid out
as the end of input (0), then the terminals, then the rules, then names that occur as aliases only.
The greatest word stands for the error symbol and for "no state".
-/

namespace IncrementalGlr

structure SymbolId where
  val : UInt16
  deriving DecidableEq, Hashable, Repr, Inhabited

structure StateId where
  val : UInt16
  deriving DecidableEq, Hashable, Repr, Inhabited

structure FieldId where
  val : UInt16
  deriving DecidableEq, Hashable, Repr, Inhabited

structure ProductionId where
  val : UInt16
  deriving DecidableEq, Hashable, Repr, Inhabited

namespace SymbolId

def endOfInput : SymbolId := ⟨0⟩

def error : SymbolId := ⟨0xFFFF⟩

def ofNat (n : Nat) : SymbolId := ⟨UInt16.ofNat n⟩

def index (symbol : SymbolId) : Nat := symbol.val.toNat

def isError (symbol : SymbolId) : Bool := symbol == error

def describe (symbol : SymbolId) : String :=
  if symbol.isError then "sym#ERROR" else s!"sym#{symbol.val.toNat}"

end SymbolId

namespace StateId

def start : StateId := ⟨0⟩

def none : StateId := ⟨0xFFFF⟩

def ofNat (n : Nat) : StateId := ⟨UInt16.ofNat n⟩

def index (state : StateId) : Nat := state.val.toNat

def isNone (state : StateId) : Bool := state == none

def describe (state : StateId) : String := s!"StateId({state.val.toNat})"

end StateId

namespace FieldId

def ofNat (n : Nat) : FieldId := ⟨UInt16.ofNat n⟩

def index (field : FieldId) : Nat := field.val.toNat

def describe (field : FieldId) : String := s!"FieldId({field.val.toNat})"

end FieldId

namespace ProductionId

def none : ProductionId := ⟨0xFFFF⟩

def ofNat (n : Nat) : ProductionId := ⟨UInt16.ofNat n⟩

def index (production : ProductionId) : Nat := production.val.toNat

def describe (production : ProductionId) : String := s!"ProductionId({production.val.toNat})"

end ProductionId

/-- How a symbol appears in trees. Hidden symbols leave their children to their parent; anonymous
ones are literal tokens; a supertype is a hidden choice between rules. -/
structure SymbolInfo where
  name : String
  visible : Bool
  named : Bool
  supertype : Bool
  deriving DecidableEq, Repr, Inhabited

namespace SymbolInfo

def ofNamed (name : String) : SymbolInfo := ⟨name, true, true, false⟩

def ofAnonymous (name : String) : SymbolInfo := ⟨name, true, false, false⟩

def ofHidden (name : String) : SymbolInfo := ⟨name, false, true, false⟩

end SymbolInfo

end IncrementalGlr
