import RegexSearch.Pattern.Cost
import RegexSearch.Proofs.Pattern.Completeness
import RegexSearch.Proofs.Pattern.Outcomes

/-!
Patterns that are words. Each byte of a word can be written so that it stands for itself: as it is,
behind a backslash, or by its hexadecimal code, where it is allowed. However that is done, the
pattern is read as the chain of the bytes of the word, and what this matches is the word.
-/

namespace RegexSearch

/-- How a byte may be written to stand for itself. -/
inductive Byte.Spelled : Byte → Bytes → Prop
  | plain {value : Byte} (h : value.isOrdinary = true) : Spelled value [value]
  | escaped {value : Byte} (h : value.isWord = false) : Spelled value ['\\'.toUInt8, value]
  | hexadecimal {value high low : Byte} {first second : Nat}
      (hhigh : high.hexValue? = some first) (hlow : low.hexValue? = some second)
      (hvalue : value.toNat = first * 16 + second) :
      Spelled value ['\\'.toUInt8, 'x'.toUInt8, high, low]

/-- A pattern in which the bytes of a word are spelled one after the other. -/
def Quotes (pattern word : Bytes) : Prop :=
  ∃ spellings, List.Forall₂ Byte.Spelled word spellings ∧ pattern = spellings.flatten

/-- The chain of the bytes of a word, wherever they are written. -/
inductive Tree.Literal : Bytes → Tree → Prop
  | single (position : Nat) (value : Byte) : Literal [value] (.atom position (.byte value))
  | more {word : Bytes} {rest : Tree} (position : Nat) (value : Byte) (h : Literal word rest) :
      Literal (value :: word) (.cat (.atom position (.byte value)) rest)

/-! ### Reading -/

/-- A spelled byte is a leaf of the grammar, whatever stands around it. -/
theorem Byte.Spelled.exists_leaf {value : Byte} {spelling : Bytes} (h : value.Spelled spelling) :
    ∃ leaf : Leaf, leaf.word = spelling ∧ leaf.atom = .byte value ∧
      ∀ groups following, leaf.Valid groups following := by
  cases h with
  | plain h => exact ⟨.byte value, rfl, rfl, fun _ _ => h⟩
  | escaped h => exact ⟨.escape (.literal value), rfl, rfl, fun _ _ => h⟩
  | @hexadecimal high low first second hhigh hlow hvalue =>
      refine ⟨.escape (.hexadecimal high low), rfl, ?_, fun _ _ => ?_⟩
      · change Atom.byte (UInt8.ofNat (high.hexValue?.getD 0 * 16 + low.hexValue?.getD 0)) = _
        rw [hhigh, hlow, Option.getD_some, Option.getD_some, ← hvalue, UInt8.ofNat_toNat]
      · exact ⟨by rw [hhigh]; rfl, by rw [hlow]; rfl⟩

/-- The bytes of a word are derived as one concatenation. -/
theorem exists_derivation_of_spelled {word : Bytes} {spellings : List Bytes}
    (h : List.Forall₂ Byte.Spelled word spellings) (hword : word ≠ []) :
    ∃ d : Derivation .concatenation, d.word = spellings.flatten ∧ d.groups = 0 ∧
      (∀ depth groups following, d.Valid depth groups following) ∧
      ∀ position groups, (d.tree position groups).Literal word := by
  induction h with
  | nil => exact absurd rfl hword
  | @cons value spelling word spellings hvalue hrest ih =>
      obtain ⟨leaf, hleaf, hatom, hvalid⟩ := hvalue.exists_leaf
      let first : Derivation .repetition := .once (.leaf leaf)
      have htree (position groups : Nat) :
          first.tree position groups = .atom position (.byte value) :=
        congrArg (Tree.atom position) hatom
      cases hrest with
      | nil =>
          refine ⟨.last first, ?_, rfl, fun _ => hvalid, ?_⟩
          · rw [List.flatten_cons, List.flatten_nil, List.append_nil]
            exact hleaf
          · intro position groups
            rw [Derivation.tree, htree]
            exact .single position value
      | cons hnext hlater =>
          obtain ⟨rest, hrestWord, hgroups, hrestValid, hrestTree⟩ := ih (List.cons_ne_nil _ _)
          refine ⟨.more first rest, ?_, ?_, ?_, ?_⟩
          · rw [List.flatten_cons, ← hrestWord, ← hleaf]
            rfl
          · rw [Derivation.groups, hgroups]
            rfl
          · exact fun depth groups following => ⟨hvalid _ _, hrestValid _ _ _⟩
          · intro position groups
            rw [Derivation.tree, htree]
            exact .more position value (hrestTree _ _)

/-- A pattern that quotes a word is read as the word, and has no groups. -/
theorem Quotes.exists_literal {pattern word : Bytes} (h : Quotes pattern word) (hword : word ≠ []) :
    ∃ tree, readPattern pattern = ⟨0, .ok tree⟩ ∧ tree.Literal word := by
  obtain ⟨spellings, hspelled, rfl⟩ := h
  obtain ⟨d, hd, hgroups, hvalid, htree⟩ := exists_derivation_of_spelled hspelled hword
  have hderives : (Derivation.only d).Derives spellings.flatten := ⟨hd, hvalid 0 0 []⟩
  refine ⟨d.tree 0 0, ?_, htree 0 0⟩
  rw [hderives.readPattern_eq, Derivation.groups, hgroups]
  rfl

namespace Tree.Literal

variable {word : Bytes} {tree : Tree}

/-- Nothing is repeated, so nothing is too expensive. -/
theorem firstExpensive?_eq_none (h : tree.Literal word) (limit : Nat) :
    tree.firstExpensive? limit = none := by
  induction h with
  | single position value => rfl
  | more position value h ih => rw [firstExpensive?, ih]; rfl

end Tree.Literal

/-! ### Matching -/

/-- A word stands in a text at an offset. -/
def Text.HasAt (text : Text) (word : Bytes) (offset : Nat) : Prop :=
  word <+: text.toList.drop offset

instance (text : Text) (word : Bytes) (offset : Nat) : Decidable (text.HasAt word offset) :=
  inferInstanceAs (Decidable (word <+: text.toList.drop offset))

namespace Text

variable {text : Text} {word : Bytes} {offset : Nat}

/-- A word stands at an offset if its first byte does and the others stand behind that. -/
theorem hasAt_cons {value : Byte} :
    text.HasAt (value :: word) offset ↔
      text[offset]? = some value ∧ text.HasAt word (offset + 1) := by
  simp only [HasAt, ← Array.getElem?_toList]
  by_cases hoffset : offset < text.toList.length
  · rw [List.drop_eq_getElem_cons hoffset, List.cons_prefix_cons, List.getElem?_eq_getElem hoffset,
      Option.some.injEq, eq_comm]
  · have hle := Nat.le_of_not_lt hoffset
    rw [List.drop_eq_nil_of_le hle, List.getElem?_eq_none hle]
    simp

theorem hasAt_nil : text.HasAt [] offset :=
  List.nil_prefix

/-- What stands somewhere ends in the text. -/
theorem HasAt.le (h : text.HasAt word offset) (hword : word ≠ []) :
    offset + word.length ≤ text.size := by
  have hlength := List.IsPrefix.length_le h
  have hpositive := List.length_pos_iff.mpr hword
  have hsize : text.toList.length = text.size := Array.length_toList
  rw [List.length_drop] at hlength
  omega

/-- The bytes of the text from the offset on are those of the word. -/
theorem HasAt.bytes (h : text.HasAt word offset) :
    Span.bytes ⟨offset, offset + word.length⟩ text = word := by
  have htaken := List.prefix_iff_eq_take.mp h
  rw [Span.bytes, Array.toList_extract, List.extract, Nat.add_sub_cancel_left]
  exact htaken.symm

/-- A word that stands at the beginning and ends with the text is the text. -/
theorem hasAt_zero_and_ends_iff :
    text.HasAt word 0 ∧ word.length = text.size ↔ text.toList = word := by
  constructor
  · rintro ⟨hfront, hends⟩
    exact (List.IsPrefix.eq_of_length hfront hends).symm
  · rintro rfl
    exact ⟨List.prefix_rfl, Array.length_toList⟩

end Text

namespace Tree.Literal

variable {word : Bytes} {tree : Tree}

/-- The outcome of a byte, if it stands in the text. -/
theorem outcomes_byte (text : Text) (here : Outcome) (position : Nat) (value : Byte) :
    (atom position (.byte value)).outcomes text here =
      if text[here.offset]? = some value then [here.advance 1] else [] := by
  simp only [Tree.outcomes, Atom.outcomes, Outcome.consumeIf]
  cases text[here.offset]? with
  | none => rfl
  | some b => simp

/-- The chain of the bytes of a word has one outcome where the word stands, and none elsewhere. -/
theorem outcomes_eq (h : tree.Literal word) (text : Text) (here : Outcome) :
    tree.outcomes text here =
      if text.HasAt word here.offset then [here.advance word.length] else [] := by
  induction h generalizing here with
  | single position value =>
      simp only [outcomes_byte, Text.hasAt_cons, Text.hasAt_nil, and_true]
      rfl
  | @more word rest position value h ih =>
      rw [Tree.outcomes, outcomes_byte]
      by_cases hvalue : text[here.offset]? = some value
      · have hlength : (here.advance 1).advance word.length = here.advance (word.length + 1) := by
          simp only [Outcome.advance, Nat.add_comm 1, Nat.add_assoc]
        have hbehind : (here.advance 1).offset = here.offset + 1 := rfl
        rw [if_pos hvalue, List.flatMap_singleton, ih, hlength, hbehind]
        simp only [Text.hasAt_cons, hvalue, true_and, List.length_cons]
      · rw [if_neg hvalue, if_neg (fun hhas => hvalue (Text.hasAt_cons.mp hhas).1)]
        rfl

end Tree.Literal

end RegexSearch
