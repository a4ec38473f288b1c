import RegexSearch.Byte

/-!
Anchors, the conditions on a place in a text that consume nothing.
-/

namespace RegexSearch

inductive Anchor where
  | textBegin
  | textEnd
  | wordBoundary
  | nonWordBoundary
  deriving DecidableEq, Repr

/-- Whether the byte before an offset belongs to a word. There is none before the first. -/
def Text.wordBefore (text : Text) (offset : Nat) : Bool :=
  0 < offset && text[offset - 1]?.any Byte.isWord

/-- Whether the byte at an offset belongs to a word. There is none at the end of the text. -/
def Text.wordAfter (text : Text) (offset : Nat) : Bool :=
  text[offset]?.any Byte.isWord

namespace Anchor

/-- Whether the anchor holds at an offset, which may be the end of the text. A word boundary has
a word on exactly one side. -/
def holds (anchor : Anchor) (text : Text) (offset : Nat) : Bool :=
  match anchor with
  | textBegin => offset == 0
  | textEnd => offset == text.size
  | wordBoundary => Text.wordBefore text offset != Text.wordAfter text offset
  | nonWordBoundary => Text.wordBefore text offset == Text.wordAfter text offset

/-- An anchor is shown as it is written in a pattern. -/
def shown : Anchor → Bytes
  | textBegin => ascii "^"
  | textEnd => ascii "$"
  | wordBoundary => ascii "\\b"
  | nonWordBoundary => ascii "\\B"

end Anchor

end RegexSearch
