import IncrementalGlr.Main
import IncrementalGlr.Scan.Rules
import IncrementalGlr.Proofs.Diagnostic.OfTree
import IncrementalGlr.Proofs.Grammar.Preservation
import IncrementalGlr.Proofs.Lalr.Precedence
import IncrementalGlr.Proofs.Lalr.Sweeps
import IncrementalGlr.Proofs.Lalr.Validity
import IncrementalGlr.Proofs.Lexer.Examination
import IncrementalGlr.Proofs.Lexer.LongestMatch
import IncrementalGlr.Proofs.Lexical.Operations
import IncrementalGlr.Proofs.Lexical.Rereading
import IncrementalGlr.Proofs.Parse.Completeness
import IncrementalGlr.Proofs.Parse.Extras
import IncrementalGlr.Proofs.Parse.Fragile
import IncrementalGlr.Proofs.Parse.Insertion
import IncrementalGlr.Proofs.Parse.Pruning
import IncrementalGlr.Proofs.Parse.Relapse
import IncrementalGlr.Proofs.Parse.ScannerStates
import IncrementalGlr.Proofs.Parse.States
import IncrementalGlr.Proofs.Parse.Sums
import IncrementalGlr.Proofs.Parse.Walk
import IncrementalGlr.Proofs.Table.Conflicts
import IncrementalGlr.Proofs.Table.Operators
import IncrementalGlr.Proofs.Table.Tokens
import IncrementalGlr.Proofs.Tree.Navigation
import IncrementalGlr.Proofs.Table.Kinds
import IncrementalGlr.Proofs.Grammar.Visibility
import IncrementalGlr.Proofs.Lexical.Printing
import IncrementalGlr.Proofs.Text.Positions
