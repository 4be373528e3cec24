import IncrementalGlr.Table.Basic
import IncrementalGlr.Table.Checksum

/-!
# Tables as bytes

A `Codec` writes values as bytes and reads them back from the front of a byte sequence. Numbers are
little-endian at their own width, texts and lists carry their length in 64 bits, an optional value
a byte that says whether it is there. A table is written behind a header of its magic bytes, its
format version and the checksum of the rest.
-/

namespace IncrementalGlr

structure Codec (α : Type) where
  write : α → List UInt8
  read : List UInt8 → Option (α × List UInt8)

def bytesOfNat : Nat → Nat → List UInt8
  | 0, _ => []
  | count + 1, n => UInt8.ofNat n :: bytesOfNat count (n / 256)

def natOfBytes (bytes : List UInt8) : Nat :=
  bytes.foldr (fun byte acc => acc * 256 + byte.toNat) 0

def splitBytes? (count : Nat) (bytes : List UInt8) : Option (List UInt8 × List UInt8) :=
  go count bytes []
where
  go : Nat → List UInt8 → List UInt8 → Option (List UInt8 × List UInt8)
    | 0, rest, taken => some (taken.reverse, rest)
    | _ + 1, [], _ => none
    | count + 1, byte :: rest, taken => go count rest (byte :: taken)

namespace Codec

def nat (width : Nat) : Codec Nat where
  write := bytesOfNat width
  read bytes := (splitBytes? width bytes).map fun (front, rest) => (natOfBytes front, rest)

def map {α β : Type} (codec : Codec α) (of : α → β) (back : β → α) : Codec β where
  write value := codec.write (back value)
  read bytes := (codec.read bytes).map fun (value, rest) => (of value, rest)

def pair {α β : Type} (first : Codec α) (second : Codec β) : Codec (α × β) where
  write value := first.write value.1 ++ second.write value.2
  read bytes :=
    (first.read bytes).bind fun (a, rest) =>
      (second.read rest).map fun (b, rest) => ((a, b), rest)

def bool : Codec Bool where
  write value := [if value then 1 else 0]
  read
    | [] => none
    | byte :: rest =>
      if byte = 0 then some (false, rest) else if byte = 1 then some (true, rest) else none

def option {α : Type} (codec : Codec α) : Codec (Option α) where
  write
    | none => [0]
    | some value => 1 :: codec.write value
  read
    | [] => none
    | byte :: rest =>
      if byte = 0 then some (none, rest)
      else if byte = 1 then (codec.read rest).map fun (value, rest) => (some value, rest)
      else none

def readMany {α : Type} (codec : Codec α) :
    Nat → List UInt8 → List α → Option (List α × List UInt8)
  | 0, rest, values => some (values.reverse, rest)
  | count + 1, bytes, values =>
    match codec.read bytes with
    | some (value, rest) => readMany codec count rest (value :: values)
    | none => none

def list {α : Type} (codec : Codec α) : Codec (List α) where
  write values := bytesOfNat 8 values.length ++ values.flatMap codec.write
  read bytes := ((nat 8).read bytes).bind fun (count, rest) => readMany codec count rest []

def array {α : Type} (codec : Codec α) : Codec (Array α) :=
  (list codec).map List.toArray Array.toList

def string : Codec String where
  write text := bytesOfNat 8 text.utf8ByteSize ++ text.toUTF8.data.toList
  read bytes :=
    ((nat 8).read bytes).bind fun (count, rest) =>
      (splitBytes? count rest).bind fun (front, rest) =>
        (String.fromUTF8? ⟨front.toArray⟩).map fun text => (text, rest)

def word16 : Codec UInt16 := (nat 2).map UInt16.ofNat UInt16.toNat
def word32 : Codec UInt32 := (nat 4).map UInt32.ofNat UInt32.toNat

def int16 : Codec Int16 := word16.map UInt16.toInt16 Int16.toUInt16

def symbolId : Codec SymbolId := word16.map SymbolId.mk SymbolId.val
def stateId : Codec StateId := word16.map StateId.mk StateId.val
def fieldId : Codec FieldId := word16.map FieldId.mk FieldId.val
def productionId : Codec ProductionId := word16.map ProductionId.mk ProductionId.val

def symbolInfo : Codec SymbolInfo :=
  (string.pair (bool.pair (bool.pair bool))).map
    (fun (name, visible, named, supertype) => ⟨name, visible, named, supertype⟩)
    (fun info => (info.name, info.visible, info.named, info.supertype))

def reduction : Codec (SymbolId × UInt16 × Int16 × ProductionId) :=
  symbolId.pair (word16.pair (int16.pair productionId))

/-- An action is written as its number among the kinds of actions, in 32 bits, and its arguments. -/
def action : Codec Action where
  write
    | .shift state => bytesOfNat 4 0 ++ stateId.write state
    | .reduce symbol count precedence production =>
      bytesOfNat 4 1 ++ reduction.write (symbol, count, precedence, production)
    | .accept => bytesOfNat 4 2
  read bytes :=
    ((nat 4).read bytes).bind fun (kind, rest) =>
      match kind with
      | 0 => (stateId.read rest).map fun (state, rest) => (.shift state, rest)
      | 1 => (reduction.read rest).map fun ((symbol, count, precedence, production), rest) =>
        (.reduce symbol count precedence production, rest)
      | 2 => some (.accept, rest)
      | _ => none

def productionStep : Codec ProductionStep :=
  ((option symbolId).pair (option fieldId)).map
    (fun (aliasSymbol, field) => ⟨aliasSymbol, field⟩) (fun step => (step.aliasSymbol, step.field))

def production : Codec Production :=
  (symbolId.pair (int16.pair (list productionStep))).map
    (fun (lhs, precedence, steps) => ⟨lhs, precedence, steps⟩)
    (fun production => (production.lhs, production.dynamicPrecedence, production.steps))

def lexTransition : Codec LexTransition :=
  (word32.pair (word32.pair word32)).map
    (fun (low, high, target) => ⟨low, high, target⟩) (fun t => (t.low, t.high, t.target))

def lexState : Codec LexState :=
  ((array lexTransition).pair (list symbolId)).map
    (fun (transitions, accepts) => ⟨transitions, accepts⟩)
    (fun state => (state.transitions, state.accepts))

def keyword : Codec Keyword :=
  (string.pair (symbolId.pair bool)).map
    (fun (text, symbol, reserved) => ⟨text, symbol, reserved⟩)
    (fun keyword => (keyword.text, keyword.symbol, keyword.reserved))

def table : Codec Table :=
  (string.pair <| (array symbolInfo).pair <| word16.pair <| word16.pair <| symbolId.pair <|
    (array string).pair <| (array production).pair <| word16.pair <| (array word16).pair <|
    (array (list action)).pair <| (array stateId).pair <| (array bool).pair <|
    (list symbolId).pair <| (array symbolId).pair <| (option symbolId).pair <|
    (list keyword).pair <| (array lexState).pair word32).map
    (fun (name, symbols, terminalCount, ruleCount, startSymbol, fieldNames, productions,
        stateCount, actionIndex, actionLists, gotos, allowsExtras, extras, externalTokens,
        wordToken, keywords, lexStates, lexStart) =>
      { name, symbols, terminalCount, ruleCount, startSymbol, fieldNames, productions,
        stateCount, actionIndex, actionLists, gotos, allowsExtras, extras, externalTokens,
        wordToken, keywords, lexStates, lexStart })
    (fun t => (t.name, t.symbols, t.terminalCount, t.ruleCount, t.startSymbol, t.fieldNames,
      t.productions, t.stateCount, t.actionIndex, t.actionLists, t.gotos, t.allowsExtras, t.extras,
      t.externalTokens, t.wordToken, t.keywords, t.lexStates, t.lexStart))

end Codec

namespace Table

def magic : List UInt8 := "SAMT".toUTF8.data.toList

/-- The format that is written, and the newest one that is read. -/
def formatVersion : UInt16 := 1

/-- The oldest format that is read. -/
def oldestVersion : UInt16 := 1

def headerSize : Nat := 4 + 2 + 8

def payload (table : Table) : List UInt8 := Codec.table.write table

def toBytes (table : Table) : List UInt8 :=
  let payload := table.payload
  magic ++ bytesOfNat 2 formatVersion.toNat ++ bytesOfNat 8 (Checksum.ofBytes payload).toNat
    ++ payload

end Table

end IncrementalGlr
