import IncrementalGlr.Proofs.Lexical.Classes
import IncrementalGlr.Proofs.Lexical.Subsets

/-!
# Expressions as patterns

Every expression can be written as a pattern: sets as classes of ranges between code points, and
everything else that is part of something as a group. Reading the pattern gives the expression back,
with sequences and alternatives of one item left out and the ranges of its sets joined, so that it
matches the same texts.
-/

namespace IncrementalGlr

namespace Regex

def printCodePoint (c : Nat) : List Char :=
  '\\' :: 'u' :: '\x7b' :: Nat.toDigits 16 c ++ ['\x7d']

def printRange (range : Nat × Nat) : List Char :=
  printCodePoint range.1 ++ '-' :: printCodePoint range.2

def printSet (set : CharSet) : List Char :=
  '[' :: set.ranges.flatMap printRange ++ [']']

def printBounds (low : Nat) (high : Option Nat) : List Char :=
  '\x7b' :: Nat.toDigits 10 low ++ ',' :: (high.map (Nat.toDigits 10)).getD [] ++ ['\x7d']

def enclose : Regex → List Char → List Char
  | .set _, text => text
  | _, text => '(' :: '?' :: ':' :: text ++ [')']

mutual

def print : Regex → List Char
  | .empty => []
  | .set chars => printSet chars
  | .seq items => printSeq items
  | .alt alternatives => printAlternatives alternatives
  | .repetition inner low high => enclose inner inner.print ++ printBounds low high

def printSeq : List Regex → List Char
  | [] => []
  | item :: rest => enclose item item.print ++ printSeq rest

def printAlternatives : List Regex → List Char
  | [] => []
  | [alternative] => enclose alternative alternative.print
  | alternative :: rest => enclose alternative alternative.print ++ '|' :: printAlternatives rest

end

def part (regex : Regex) : List Char := enclose regex regex.print

example : String.ofList (print (.repetition (.set ⟨[(97, 122)]⟩) 1 none)) =
    "[\\u\x7b61\x7d-\\u\x7b7a\x7d]\x7b1,\x7d" := by decide

theorem printSeq_cons (item : Regex) (rest : List Regex) :
    printSeq (item :: rest) = item.part ++ printSeq rest := rfl

theorem printSeq_singleton (item : Regex) : printSeq [item] = item.part := by
  rw [printSeq_cons, printSeq, List.append_nil]

theorem printAlternatives_singleton (alternative : Regex) :
    printAlternatives [alternative] = alternative.part := rfl

theorem printAlternatives_cons {alternative : Regex} {rest : List Regex} (more : rest ≠ []) :
    printAlternatives (alternative :: rest) =
      alternative.part ++ '|' :: printAlternatives rest := by
  rw [printAlternatives, part]
  exact more

/-- The sets hold code points only, there is something to choose between, and the bounds of
repetitions are words in their order. -/
inductive Writable : Regex → Prop
  | empty : Writable .empty
  | set {chars : CharSet} (made : chars.Made)
      (within : ∀ range ∈ chars.ranges, range.1 ≤ range.2 ∧ range.2 ≤ lastCodePoint) :
      Writable (.set chars)
  | seq {items : List Regex} (items' : ∀ item ∈ items, Writable item) : Writable (.seq items)
  | alt {alternatives : List Regex} (filled : alternatives ≠ [])
      (alternatives' : ∀ alternative ∈ alternatives, Writable alternative) :
      Writable (.alt alternatives)
  | repetition {inner : Regex} {low : Nat} {high : Option Nat} (inner' : Writable inner)
      (word : low < UInt32.size) (bounds : ∀ bound ∈ high, low ≤ bound ∧ bound < UInt32.size) :
      Writable (.repetition inner low high)

theorem Writable.made {regex : Regex} (h : regex.Writable) : regex.Made := by
  induction h with
  | empty => exact .empty
  | set made _ => exact .set made
  | seq _ ih => exact .seq ih
  | alt _ _ ih => exact .alt ih
  | repetition _ _ bounds ih => exact .repetition ih fun bound member => (bounds bound member).1

def rereadSet (set : CharSet) : CharSet :=
  set.ranges.foldl (fun read range => read.addRange range.1 range.2) CharSet.empty

mutual

def reread : Regex → Regex
  | .empty => .empty
  | .set chars => .set (rereadSet chars)
  | .seq items => Pattern.seqOf (rereadAll items)
  | .alt alternatives => Pattern.altOf (rereadAll alternatives)
  | .repetition inner low high => .repetition inner.reread low high

def rereadAll : List Regex → List Regex
  | [] => []
  | item :: rest => item.reread :: rereadAll rest

end

theorem language_rereadSet (set : CharSet) : (rereadSet set).language = set.language := by
  have added : ∀ (ranges : List (Nat × Nat)) (read : CharSet), ∀ c ≤ lastCodePoint,
      ((ranges.foldl (fun read range => read.addRange range.1 range.2) read).Has c ↔
        read.Has c ∨ CharSet.Has ⟨ranges⟩ c) := by
    intro ranges
    induction ranges with
    | nil => simp [CharSet.Has]
    | cons range ranges ih =>
      intro read c valid
      rw [List.foldl_cons, ih _ c valid, CharSet.has_addRange valid, CharSet.has_cons, or_assoc]
  ext text
  simp only [CharSet.language]
  refine exists_congr fun c => and_congr_left fun _ => ?_
  rw [rereadSet, added _ _ _ (Char.toNat_le_lastCodePoint c)]
  simp [CharSet.has_empty]

theorem language_seqOf (items : List Regex) :
    (Pattern.seqOf items).language = languageOfSeq items := by
  unfold Pattern.seqOf
  split
  · rfl
  · simp [languageOfSeq]
  · rfl

theorem language_altOf (alternatives : List Regex) :
    (Pattern.altOf alternatives).language = languageOfAlt alternatives := by
  unfold Pattern.altOf
  split
  · simp [languageOfAlt]
  · rfl

mutual

theorem language_reread : ∀ regex : Regex, regex.reread.language = regex.language
  | .empty => rfl
  | .set chars => language_rereadSet chars
  | .seq items => by rw [reread, language_seqOf, languageOfSeq_rereadAll, language]
  | .alt alternatives => by rw [reread, language_altOf, languageOfAlt_rereadAll, language]
  | .repetition inner low high => by rw [reread, language, language, language_reread inner]

theorem languageOfSeq_rereadAll : ∀ items : List Regex,
    languageOfSeq (rereadAll items) = languageOfSeq items
  | [] => rfl
  | item :: rest => by
    rw [rereadAll, languageOfSeq, languageOfSeq, language_reread item, languageOfSeq_rereadAll rest]

theorem languageOfAlt_rereadAll : ∀ alternatives : List Regex,
    languageOfAlt (rereadAll alternatives) = languageOfAlt alternatives
  | [] => rfl
  | alternative :: rest => by
    rw [rereadAll, languageOfAlt, languageOfAlt, language_reread alternative,
      languageOfAlt_rereadAll rest]

end

end Regex

end IncrementalGlr
