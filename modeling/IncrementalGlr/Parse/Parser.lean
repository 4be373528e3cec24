import IncrementalGlr.Parse.Engine

/-!
# Parsing

A parse always gives a tree of the whole text. With an old tree that was edited like the text, the
subtrees that would be built again are taken over. An old tree of another language or of another
length is left alone.
-/

namespace IncrementalGlr

structure Parsed where
  tree : Tree
  stats : ReuseStats

def Tree.isUsable (old : Tree) (language : Language) (size : Nat) : Bool :=
  old.language.isSame language && old.sourceSize == size

def Engine.begin (input : ParseInput) (old : Option Tree) : Engine :=
  let size := input.source.size
  let usable := old.filter fun tree => tree.isUsable input.language size
  Engine.start (usable.map ReuseCursor.ofTree)
    { ReuseStats.empty with totalBytes := size, fallback := old.isSome && usable.isNone }

/-- Of a text of 2^32 bytes or more, what a 32-bit offset cannot reach is left out. -/
def ParseInput.ofText (language : Language) (options : ParserOptions) (text : String) :
    ParseInput :=
  ⟨language, options, Source.clipped text, Source.size_clipped text⟩

def parseWithin (fuel : Nat) (language : Language) (options : ParserOptions) (text : String)
    (old : Option Tree) : Option Parsed :=
  let input := ParseInput.ofText language options text
  (Engine.run input fuel (Engine.begin input old)).map fun engine =>
    ⟨Tree.ofRoot (engine.result input) language, engine.stats⟩

/-- More steps than a parse can make in a lifetime. -/
def stepLimit : Nat := 1 <<< 62

def parse (language : Language) (options : ParserOptions) (text : String) (old : Option Tree) :
    Parsed :=
  (parseWithin stepLimit language options text old).getD
    ⟨Tree.ofRoot (Subtree.errorNode language []) language, ReuseStats.empty⟩

def reparse (language : Language) (text : String) (old : Option Tree) (edits : List Edit) : Tree :=
  (parse language ParserOptions.standard text
    (old.map fun tree => edits.foldl Tree.edit tree)).tree

structure Parser where
  language : Option Language
  options : ParserOptions
  stats : ReuseStats

namespace Parser

def empty : Parser := ⟨none, ParserOptions.standard, ReuseStats.empty⟩

def parse (parser : Parser) (text : String) (old : Option Tree) : Option Tree × Parser :=
  match parser.language with
  | some language =>
    let parsed := IncrementalGlr.parse language parser.options text old
    (some parsed.tree, { parser with stats := parsed.stats })
  | none => (none, parser)

end Parser

end IncrementalGlr
