import IncrementalGlr.Lalr.First

/-!
# Items and states

An item is a production with a place in it. The states of the automaton are sets of items, each
given by its kernel, numbered in the order in which they are reached from the start: state by
state, along terminals before nonterminals.
-/

namespace IncrementalGlr

structure Item where
  production : Nat
  dot : Nat
  deriving DecidableEq, Hashable, Repr, Inhabited

namespace Item

def le (a b : Item) : Bool :=
  a.production < b.production || (a.production == b.production && a.dot ≤ b.dot)

def next (item : Item) : Item := ⟨item.production, item.dot + 1⟩

end Item

structure LrGrammar where
  grammar : PreparedGrammar
  productions : Array (Nat × FlatProduction)
  byNonterminal : Array (List Nat)
  first : FirstSets

namespace LrGrammar

def numberProductions : Nat → List Nonterminal → List (List Nat)
  | _, [] => []
  | count, nonterminal :: rest =>
    (List.range' count nonterminal.productions.length)
      :: numberProductions (count + nonterminal.productions.length) rest

def ofGrammar (grammar : PreparedGrammar) : LrGrammar where
  grammar
  productions := (grammar.nonterminals.toList.zipIdx.flatMap fun (nonterminal, index) =>
    nonterminal.productions.map fun production => (index, production)).toArray
  byNonterminal := (numberProductions 0 grammar.nonterminals.toList).toArray
  first := FirstSets.ofGrammar grammar

def augmented (lr : LrGrammar) : Nat := lr.productions.size

def stepsOf (lr : LrGrammar) (production : Nat) : List Step :=
  match lr.productions[production]? with
  | some (_, production) => production.steps
  | none => [Step.plain (.nonterminal 0)]

def rest (lr : LrGrammar) (item : Item) : List Step :=
  (lr.stepsOf item.production).drop item.dot

def symbolAt? (lr : LrGrammar) (item : Item) : Option Sym :=
  (lr.rest item).head?.map (·.symbol)

def isComplete (lr : LrGrammar) (item : Item) : Bool := (lr.rest item).isEmpty

def startKernel (lr : LrGrammar) : List Item := [⟨lr.augmented, 0⟩]

def startItems (lr : LrGrammar) (nonterminal : Nat) : List Item :=
  (lr.byNonterminal.getD nonterminal []).map fun production => ⟨production, 0⟩

def calledBy (lr : LrGrammar) (items : List Item) : BitSet :=
  items.foldl
    (fun (set : BitSet) item => match lr.symbolAt? item with
      | some (.nonterminal index) => set.insert index
      | _ => set)
    BitSet.empty

def called (lr : LrGrammar) (kernel : List Item) : BitSet :=
  stabilize (fun set => set.union (lr.calledBy (set.toList.flatMap lr.startItems)))
    (lr.grammar.nonterminals.size + 1) (lr.calledBy kernel)

def items (lr : LrGrammar) (kernel : List Item) : List Item :=
  kernel ++ (lr.called kernel).toList.flatMap lr.startItems

def symbolsAt (lr : LrGrammar) (items : List Item) : List Sym :=
  ((items.filterMap lr.symbolAt?).eraseDups).mergeSort Sym.le

def goto (lr : LrGrammar) (items : List Item) (symbol : Sym) : List Item :=
  ((items.filter fun item => lr.symbolAt? item == some symbol).map Item.next).mergeSort Item.le

end LrGrammar

structure LrState where
  kernel : List Item
  transitions : List (Sym × Nat)
  deriving DecidableEq, Repr, Inhabited

namespace LrGrammar

def numberOfKernel (kernels : Array (List Item)) (kernel : List Item) :
    Nat × Array (List Item) :=
  match kernels.findIdx? (· == kernel) with
  | some id => (id, kernels)
  | none => (kernels.size, kernels.push kernel)

def transitions (lr : LrGrammar) (kernels : Array (List Item)) (kernel : List Item) :
    List (Sym × Nat) × Array (List Item) :=
  let items := lr.items kernel
  let (transitions, kernels) := (lr.symbolsAt items).foldl
    (fun (transitions, kernels) symbol =>
      let (target, kernels) := numberOfKernel kernels (lr.goto items symbol)
      ((symbol, target) :: transitions, kernels))
    ([], kernels)
  (transitions.reverse, kernels)

def explore (lr : LrGrammar) :
    Nat → Nat → Array (List Item) → Array LrState → Array LrState
  | 0, _, _, states => states
  | fuel + 1, index, kernels, states =>
    match kernels[index]? with
    | none => states
    | some kernel =>
      let (transitions, kernels) := lr.transitions kernels kernel
      explore lr fuel (index + 1) kernels (states.push ⟨kernel, transitions⟩)

def itemCount (lr : LrGrammar) : Nat :=
  lr.productions.foldl (fun count (_, production) => count + production.steps.length + 1) 2

def states (lr : LrGrammar) : Array LrState :=
  lr.explore (1 <<< lr.itemCount) 0 #[lr.startKernel] #[]

end LrGrammar

end IncrementalGlr
