import IncrementalGlr.Language

/-!
# Tokens
-/

namespace IncrementalGlr

structure Token where
  symbol : SymbolId
  start : Length
  size : Length
  lookahead : Nat
  lexMode : LexModeId
  /-- The scanner's state after the token, for external tokens only. -/
  scannerState : Option ScannerState
  deriving DecidableEq, Repr, Inhabited

namespace Token

def stop (token : Token) : Length := token.start + token.size

/-- The end of the bytes that the lexer examined. It is exact: as a word it wraps around where the
end of a text of `2 ^ 32 - 1` bytes was examined, and nowhere else. -/
def reach (token : Token) : Nat := token.start.bytes + token.size.bytes + token.lookahead

def isEnd (token : Token) : Bool := token.symbol == SymbolId.endOfInput

def isError (token : Token) : Bool := token.symbol.isError

def describe (token : Token) : String :=
  s!"{token.symbol.describe} @ {token.start.bytes}..{token.start.bytes + token.size.bytes}"

end Token

end IncrementalGlr
