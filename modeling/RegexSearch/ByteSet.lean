import RegexSearch.Byte

/-!
Sets of bytes, written as a list of ranges and a sign. Ranges are ordered by the signed value of
a byte, so the bytes from 128 to 255 come before those from 0 to 127. A list of ranges has one
normal form, sorted with gaps between neighbours, and `normalize` computes it by inserting one
range after the other.
-/

namespace RegexSearch

/-- All bytes from `low` to `high`, both included, in the order of signed bytes. -/
structure ByteRange where
  low : Int8
  high : Int8
  deriving DecidableEq, Repr

namespace ByteRange

def contains (range : ByteRange) (value : Int8) : Bool :=
  range.low ≤ value && value ≤ range.high

/-- The range between two bytes. -/
def ofBytes (low high : Byte) : ByteRange :=
  ⟨low.toInt8, high.toInt8⟩

/-- Whether the first range ends before the second begins, with at least one value in between.
The comparison is one of integers, so that it is also right at the largest value. -/
def precedes (first second : ByteRange) : Bool :=
  first.high.toInt + 1 < second.low.toInt

/-- The least range that contains both. -/
def hull (first second : ByteRange) : ByteRange :=
  ⟨min first.low second.low, max first.high second.high⟩

/-- Adds a range to sorted ranges with gaps between them. Ranges that it overlaps or touches are
absorbed, so the result is sorted with gaps again. -/
def insert (range : ByteRange) : List ByteRange → List ByteRange
  | [] => [range]
  | head :: rest =>
    if range.precedes head then range :: head :: rest
    else if head.precedes range then head :: range.insert rest
    else (range.hull head).insert rest

/-- The normal form of a list of ranges: sorted, disjoint and not adjacent, with the same
members. -/
def normalize (ranges : List ByteRange) : List ByteRange :=
  ranges.foldr insert []

/-- The ranges between the given ones, which are in normal form, from the value `next` on. -/
def gapsFrom (next : Int) : List ByteRange → List ByteRange
  | [] => if next ≤ 127 then [⟨Int8.ofInt next, 127⟩] else []
  | range :: rest =>
    if next < range.low.toInt then
      ⟨Int8.ofInt next, Int8.ofInt (range.low.toInt - 1)⟩ :: gapsFrom (range.high.toInt + 1) rest
    else gapsFrom (range.high.toInt + 1) rest

/-- The bytes outside all of the ranges, in normal form. -/
def complement (ranges : List ByteRange) : List ByteRange :=
  gapsFrom (-128) (normalize ranges)

/-- A single value is shown by itself, a longer range by its ends. -/
def shown (range : ByteRange) : Bytes :=
  if range.low = range.high then Byte.shown range.low.toUInt8
  else Byte.shown range.low.toUInt8 ++ ascii "-" ++ Byte.shown range.high.toUInt8

end ByteRange

/-- The bytes inside the ranges or, if `negated`, those outside all of them. -/
structure ByteSet where
  ranges : List ByteRange
  negated : Bool := false
  deriving DecidableEq, Repr

namespace ByteSet

def empty : ByteSet := ⟨[], false⟩

/-- Decimal digits. -/
def digits : ByteSet := ⟨[.ofBytes '0'.toUInt8 '9'.toUInt8], false⟩

/-- Digits, letters and the underscore. -/
def words : ByteSet :=
  ⟨[.ofBytes '0'.toUInt8 '9'.toUInt8, .ofBytes 'A'.toUInt8 'Z'.toUInt8,
    .ofBytes '_'.toUInt8 '_'.toUInt8, .ofBytes 'a'.toUInt8 'z'.toUInt8], false⟩

/-- The blank, and the control bytes from the tab to the carriage return. -/
def spaces : ByteSet :=
  ⟨[.ofBytes '\t'.toUInt8 '\r'.toUInt8, .ofBytes ' '.toUInt8 ' '.toUInt8], false⟩

def contains (set : ByteSet) (b : Byte) : Bool :=
  set.ranges.any (·.contains b.toInt8) != set.negated

/-- Exchanges members and non-members. -/
def invert (set : ByteSet) : ByteSet :=
  { set with negated := !set.negated }

/-- Ranges that hold exactly the members of the set, whatever its sign. -/
def positiveRanges (set : ByteSet) : List ByteRange :=
  if set.negated then ByteRange.complement set.ranges else set.ranges

/-- Adds a range behind those already listed, below the sign of the set. -/
def addRange (set : ByteSet) (range : ByteRange) : ByteSet :=
  { set with ranges := set.ranges ++ [range] }

def addByte (set : ByteSet) (b : Byte) : ByteSet :=
  set.addRange (.ofBytes b b)

/-- Adds the members of another set behind the ranges already listed, below the sign of the set
that receives them. -/
def addSet (set other : ByteSet) : ByteSet :=
  { set with ranges := set.ranges ++ other.positiveRanges }

/-- Brings the ranges into normal form. -/
def normalize (set : ByteSet) : ByteSet :=
  { set with ranges := ByteRange.normalize set.ranges }

/-- The members, in the order of their unsigned values. -/
def members (set : ByteSet) : List Byte :=
  ((List.range 256).map UInt8.ofNat).filter set.contains

/-- The members as maximal runs of neighbouring values, each given by its ends. -/
def runs (set : ByteSet) : List (Nat × Nat) :=
  gather (set.members.map UInt8.toNat)
where
  /-- Joins ascending values to runs. -/
  gather : List Nat → List (Nat × Nat)
    | [] => []
    | value :: rest =>
      match gather rest with
      | [] => [(value, value)]
      | (first, last) :: runs =>
        if value + 1 = first then (value, last) :: runs
        else (value, value) :: (first, last) :: runs

/-- A set is shown as a bracket expression, with its ranges in the order in which it lists
them. -/
def shown (set : ByteSet) : Bytes :=
  ascii "[" ++ (if set.negated then ascii "^" else []) ++
    set.ranges.flatMap ByteRange.shown ++ ascii "]"

end ByteSet

end RegexSearch
