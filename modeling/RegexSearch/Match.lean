import RegexSearch.Byte

/-!
Matches: which part of a text a pattern has matched, and which parts its groups have captured.
-/

namespace RegexSearch

/-- The part of a text from the offset `start` up to but without the offset `stop`. -/
structure Span where
  start : Nat
  stop : Nat
  deriving DecidableEq, Repr

/-- A piece cut out of a text, with the offset at which it begins there. -/
structure Slice where
  offset : Nat
  bytes : Bytes
  deriving DecidableEq, Repr

namespace Span

/-- The span between two ends, if both are there. -/
def between? : Option Nat → Option Nat → Option Span
  | some start, some stop => some ⟨start, stop⟩
  | _, _ => none

def length (span : Span) : Nat :=
  span.stop - span.start

/-- The bytes of a text in the span. -/
def bytes (span : Span) (text : Text) : Bytes :=
  (text.extract span.start span.stop).toList

def slice (span : Span) (text : Text) : Slice :=
  ⟨span.start, span.bytes text⟩

end Span

/-- A match. The first group is the whole match, and a group that took no part is `none`. -/
structure Match where
  span : Span
  groups : List (Option Span)
  deriving DecidableEq, Repr

namespace Match

def isEmpty (found : Match) : Bool :=
  found.span.start == found.span.stop

/-- The whole match as a piece of the text. -/
def whole (found : Match) (text : Text) : Slice :=
  found.span.slice text

/-- What the first group has captured, or a piece of nothing if it took no part. -/
def front (found : Match) (text : Text) : Slice :=
  found.groups.head?.join.elim ⟨0, []⟩ (·.slice text)

/-- What each group has captured. -/
def captures (found : Match) (text : Text) : List (Option Slice) :=
  found.groups.map fun group => group.map (·.slice text)

end Match

end RegexSearch
