import IncrementalGlr.Proofs.Parse.Steps
import IncrementalGlr.Proofs.Text.Positions
import IncrementalGlr.Proofs.Tree.Edits
import IncrementalGlr.Proofs.Tree.Tiling

/-!
# Histories of a text

A program parses a text, edits it together with its tree, and parses again with that tree, in any
order and as often as it likes. Every tree it comes by covers the text of that moment, and the marks
of changes are sound.

Offsets are 32-bit words, so that an edit is one of a text of less than 2^32 bytes and leads to
another. Beyond that the sizes of an edited tree wrap around (`not_marksChanges_of_overflow`).
-/

namespace IncrementalGlr

/-- The tree was parsed from the text, or from another one and edited to it since. An old tree that
the parse could take over from came about in the same way; a tree of another language is of no
account. -/
inductive Tree.Follows (language : Language) : Tree → String → Prop
  | parsed {fuel : Nat} {options : ParserOptions} {text : String} {old : Option Tree}
      {parsed : Parsed}
      (history : ∀ tree, old = some tree → tree.language.isSame language = true →
        Tree.Follows language tree text)
      (returned : parseWithin fuel language options text old = some parsed) :
      Tree.Follows language parsed.tree text
  | edited {tree : Tree} {text : String} (history : Tree.Follows language tree text)
      (start oldEnd : Nat) (inserted : String) (short : text.utf8ByteSize < UInt32.size)
      (short' : (Edit.apply text start oldEnd inserted).1.utf8ByteSize < UInt32.size) :
      Tree.Follows language (tree.edit (Edit.apply text start oldEnd inserted).2)
        (Edit.apply text start oldEnd inserted).1

namespace Engine

theorem fits_begin (input : ParseInput) {old : Option Tree}
    (sound : ∀ tree, old = some tree → tree.language.isSame input.language = true →
      tree.root.Spells input.source.text.toList [] ∧ tree.root.Sound input.language.table) :
    (Engine.begin input old).Fits input.language.table input.source.text.toList := by
  have short : IsShort input.source.text.toList := Source.isShort_iff.2 input.fits
  refine ⟨fun _ absent => absurd absent List.not_mem_nil, ?_, ?_, fun _ none => (nomatch none)⟩
  · intro version member
    rw [List.mem_singleton.1 member]
    exact Version.fits_start input.language.table short
  · intro cursor found
    obtain ⟨tree, usable, rfl⟩ := Option.map_eq_some_iff.1 found
    obtain ⟨here, usable⟩ := Option.filter_eq_some_iff.1 usable
    have same := (Bool.and_eq_true_iff.1 usable).1
    obtain ⟨spells, marks⟩ := sound tree here same
    exact ReuseCursor.fits_ofTree short spells marks

end Engine

theorem isRootOf_parseWithin {language : Language} (built : language.IsBuilt) {fuel : Nat}
    {options : ParserOptions} {text : String} {old : Option Tree} {parsed : Parsed}
    (sound : ∀ tree, old = some tree → tree.language.isSame language = true →
      tree.root.Spells (Source.clipped text).text.toList [] ∧ tree.root.Sound language.table)
    (returned : parseWithin fuel language options text old = some parsed) :
    parsed.tree.root.IsRootOf language.table (Source.clipped text).text.toList := by
  obtain ⟨engine, ran, rfl⟩ := Option.map_eq_some_iff.1 returned
  have started := Engine.fits_begin (.ofText language options text) sound
  obtain ⟨fits, _⟩ := Engine.fits_run built.consistent started ran
  obtain ⟨root, found, same⟩ := Engine.exists_result_of_run ran
  exact same ▸ fits.finished root found

theorem Tree.Follows.sound {language : Language} (built : language.IsBuilt) {tree : Tree}
    {text : String} (h : tree.Follows language text) :
    tree.root.Spells (Source.clipped text).text.toList [] ∧ tree.root.Sound language.table := by
  induction h with
  | parsed history returned ih =>
    have root := isRootOf_parseWithin built ih returned
    exact ⟨root.spells, root.settled.sound⟩
  | @edited tree text history start oldEnd inserted short short' ih =>
    rw [Source.clipped_of_short short] at ih
    rw [Source.clipped_of_short short']
    obtain ⟨r, old, edit, new⟩ := Replacement.exists_of_apply (isShort_toList.2 short)
      (isShort_toList.2 short')
    obtain ⟨spells, sound⟩ := ih
    rw [Source.text_ofText, old] at spells
    rw [Source.text_ofText, edit, new]
    exact ⟨Tree.spells_edit spells, Tree.sound_edit spells sound⟩

/-- A small grammar: a text is any number of items and of the letters `;` and `y`, an item is an `a`
with perhaps a long token `#;y*!` behind it, and `#` may stand anywhere. -/
def itemTable : Table where
  name := "items"
  symbols := #[⟨"end", false, true, false⟩, ⟨"long", true, true, false⟩, ⟨"#", false, true, false⟩,
    ⟨";", true, false, false⟩, ⟨"y", true, false, false⟩, ⟨"a", true, false, false⟩,
    ⟨"source", true, true, false⟩, ⟨"item", true, true, false⟩, ⟨"parts", false, true, false⟩]
  terminalCount := 6
  ruleCount := 3
  startSymbol := ⟨6⟩
  fieldNames := #[]
  productions := #[⟨⟨6⟩, 0, [⟨none, none⟩]⟩, ⟨⟨6⟩, 0, []⟩,
    ⟨⟨7⟩, 0, [⟨none, none⟩, ⟨none, none⟩]⟩, ⟨⟨7⟩, 0, [⟨none, none⟩]⟩,
    ⟨⟨8⟩, 0, [⟨none, none⟩, ⟨none, none⟩]⟩, ⟨⟨8⟩, 0, [⟨none, none⟩, ⟨none, none⟩]⟩,
    ⟨⟨8⟩, 0, [⟨none, none⟩, ⟨none, none⟩]⟩, ⟨⟨8⟩, 0, [⟨none, none⟩]⟩,
    ⟨⟨8⟩, 0, [⟨none, none⟩]⟩, ⟨⟨8⟩, 0, [⟨none, none⟩]⟩]
  stateCount := 11
  actionIndex := #[1, 0, 0, 2, 3, 4, 5, 0, 0, 5, 5, 5, 6, 0, 0, 6, 6, 6, 7, 8, 0, 7, 7, 7,
    9, 0, 0, 0, 0, 0, 10, 0, 0, 10, 10, 10, 11, 0, 0, 12, 13, 4, 14, 0, 0, 14, 14, 14,
    15, 0, 0, 15, 15, 15, 16, 0, 0, 16, 16, 16, 17, 0, 0, 17, 17, 17]
  actionLists := #[[], [.reduce ⟨6⟩ 0 0 ⟨1⟩], [.shift ⟨1⟩], [.shift ⟨2⟩], [.shift ⟨3⟩],
    [.reduce ⟨8⟩ 1 0 ⟨8⟩], [.reduce ⟨8⟩ 1 0 ⟨9⟩], [.reduce ⟨7⟩ 1 0 ⟨3⟩], [.shift ⟨7⟩], [.accept],
    [.reduce ⟨8⟩ 1 0 ⟨7⟩], [.reduce ⟨6⟩ 1 0 ⟨0⟩], [.shift ⟨8⟩], [.shift ⟨9⟩],
    [.reduce ⟨7⟩ 2 0 ⟨2⟩], [.reduce ⟨8⟩ 2 0 ⟨5⟩], [.reduce ⟨8⟩ 2 0 ⟨6⟩], [.reduce ⟨8⟩ 2 0 ⟨4⟩]]
  gotos := #[⟨4⟩, ⟨5⟩, ⟨6⟩] ++ Array.replicate 16 StateId.none ++ #[⟨10⟩]
    ++ Array.replicate 13 StateId.none
  allowsExtras := Array.replicate 11 true
  extras := [⟨2⟩]
  externalTokens := #[]
  wordToken := none
  keywords := []
  lexStates := #[⟨#[⟨35, 35, 1⟩, ⟨59, 59, 2⟩, ⟨97, 97, 3⟩, ⟨121, 121, 4⟩], []⟩,
    ⟨#[⟨59, 59, 5⟩], [⟨2⟩]⟩, ⟨#[], [⟨3⟩]⟩, ⟨#[], [⟨5⟩]⟩, ⟨#[], [⟨4⟩]⟩,
    ⟨#[⟨33, 33, 6⟩, ⟨121, 121, 5⟩], []⟩, ⟨#[], [⟨1⟩]⟩]
  lexStart := 0

def itemLanguage : Option Language := (Language.ofTable itemTable none 1).toOption

/-- All texts that the replacements go through, from the first to the last. -/
def Edit.texts (text : String) : List (Nat × Nat × String) → List String
  | [] => [text]
  | (start, oldEnd, inserted) :: rest =>
    text :: texts (apply text start oldEnd inserted).1 rest

theorem Subtree.Marked.above {tree lower : Subtree} {path : List Nat} {offset : Length}
    (h : tree.Marked) (there : tree.at? path = some (offset, lower))
    (changed : lower.isChanged = true) : tree.isChanged = true := by
  induction path generalizing tree offset with
  | nil =>
    cases there
    exact changed
  | cons i path ih =>
    obtain ⟨child, inner, here, below, _⟩ := Subtree.at?_cons.1 there
    have member := List.mem_of_getElem? here
    exact h.here child member (ih (h.child member) below)

end IncrementalGlr
