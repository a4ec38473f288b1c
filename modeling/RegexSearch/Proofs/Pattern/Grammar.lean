import RegexSearch.Pattern.Reader

/-!
The grammar of patterns. A derivation is a tree of productions:

    alternation    ::=  concatenation  |  concatenation '|' alternation
    concatenation  ::=  repetition  |  repetition concatenation
    repetition     ::=  atom  |  atom suffix
    atom           ::=  leaf  |  '(' alternation ')'  |  '(?:' alternation ')'

It has a word, the bytes that it writes, and a tree, what it means at a place in a pattern. Most
rules concern a production by itself. Two do not: how deep groups may be nested, and that a
backreference takes as many digits as still name a group, which looks at the groups opened before
and at the bytes behind.

The grammar says nothing about how a pattern is read. That the reader accepts exactly these words,
with these trees, is shown elsewhere.
-/

namespace RegexSearch

/-! ### Escapes -/

/-- Escapes of one byte for control bytes. -/
def controlNames : List (Byte × Byte) :=
  [('f'.toUInt8, 0x0c), ('n'.toUInt8, 0x0a), ('r'.toUInt8, 0x0d), ('t'.toUInt8, 0x09),
    ('v'.toUInt8, 0x0b), ('0'.toUInt8, 0x00)]

/-- Escapes of one byte for sets. -/
def predefinedNames : List (Byte × ByteSet) :=
  [('d'.toUInt8, .digits), ('D'.toUInt8, ByteSet.digits.invert), ('s'.toUInt8, .spaces),
    ('S'.toUInt8, ByteSet.spaces.invert), ('w'.toUInt8, .words),
    ('W'.toUInt8, ByteSet.words.invert)]

/-- The escapes that mean the same inside brackets and outside. -/
inductive Escape where
  | control (name value : Byte)
  | letter (value : Byte)
  | hexadecimal (high low : Byte)
  | predefined (name : Byte) (members : ByteSet)
  | literal (value : Byte)
  deriving DecidableEq, Repr

/-- The atom for what an escape stands for. -/
def BracketMember.atom : BracketMember → Atom
  | byte value => .byte value
  | set members => .set members

namespace Escape

/-- What is written behind the backslash. -/
def name : Escape → Bytes
  | control name _ => [name]
  | letter value => ['c'.toUInt8, value]
  | hexadecimal high low => ['x'.toUInt8, high, low]
  | predefined name _ => [name]
  | literal value => [value]

def word (escape : Escape) : Bytes :=
  '\\'.toUInt8 :: escape.name

/-- Names are those of the tables, and a byte stands for itself unless it belongs to a word. -/
def Valid : Escape → Prop
  | control name value => (name, value) ∈ controlNames
  | letter value => value.isLetter = true
  | hexadecimal high low => high.hexValue?.isSome = true ∧ low.hexValue?.isSome = true
  | predefined name members => (name, members) ∈ predefinedNames
  | literal value => value.isWord = false

/-- The byte or the set that the escape stands for. -/
def meaning : Escape → BracketMember
  | control _ value => .byte value
  | letter value => .byte (value % 32)
  | hexadecimal high low =>
    .byte (UInt8.ofNat (high.hexValue?.getD 0 * 16 + low.hexValue?.getD 0))
  | predefined _ members => .set members
  | literal value => .byte value

end Escape

/-! ### Bracket expressions -/

/-- A byte or a set, as it is written between brackets. -/
inductive Member where
  | byte (value : Byte)
  | backspace
  | escape (named : Escape)
  deriving DecidableEq, Repr

namespace Member

def word : Member → Bytes
  | byte value => [value]
  | backspace => ['\\'.toUInt8, 'b'.toUInt8]
  | escape named => named.word

def Valid : Member → Prop
  | byte value => value ≠ ']'.toUInt8 ∧ value ≠ '\\'.toUInt8
  | backspace => True
  | escape named => named.Valid

def meaning : Member → BracketMember
  | byte value => .byte value
  | backspace => .byte 0x08
  | escape named => named.meaning

end Member

/-- Between brackets stand members and ranges. -/
inductive Item where
  | single (member : Member)
  | range (low high : Member)
  deriving DecidableEq, Repr

namespace Item

def word : Item → Bytes
  | single member => member.word
  | range low high => low.word ++ '-'.toUInt8 :: high.word

/-- The ranges of bytes that an item contributes. -/
def ranges : Item → List ByteRange
  | single member => member.meaning.ranges
  | range low high =>
    match low.meaning, high.meaning with
    | .byte first, .byte last => [.ofBytes first last]
    | _, _ => []

/-- A range has two bytes in order at its ends. A member by itself is not followed by a minus,
unless the closing bracket is next. -/
def Valid (following : Bytes) : Item → Prop
  | single member =>
    member.Valid ∧ ∀ next rest, following = '-'.toUInt8 :: next :: rest → next = ']'.toUInt8
  | range low high =>
    low.Valid ∧ high.Valid ∧ ∃ first last, low.meaning = .byte first ∧ high.meaning = .byte last ∧
      first.toInt8 ≤ last.toInt8

/-- The word of several items, with what follows them. -/
def wordsBefore (following : Bytes) : List Item → Bytes
  | [] => following
  | item :: items => item.word ++ wordsBefore following items

def AllValid (following : Bytes) : List Item → Prop
  | [] => True
  | item :: items => item.Valid (wordsBefore following items) ∧ AllValid following items

end Item

/-! ### Leaves -/

/-- The bytes that stand for themselves outside brackets. -/
def Byte.isOrdinary (b : Byte) : Bool :=
  match b.toChar with
  | '*' | '+' | '?' | '{' | '(' | ')' | '[' | '|' | '.' | '^' | '$' | '\\' => false
  | _ => true

/-- Digits of which the first is not zero, that name one of so many groups. -/
structure GroupNumber (groups : Nat) (number : Bytes) : Prop where
  first : ∃ digit rest, number = digit :: rest ∧ digit ≠ '0'.toUInt8
  digits : ∀ digit ∈ number, digit.isDigit = true
  le : digitsValue number ≤ groups

/-- The atoms without parentheses. -/
inductive Leaf where
  | byte (value : Byte)
  | any
  | anchor (kind : Anchor)
  | escape (named : Escape)
  | reference (number : Bytes)
  | brackets (negated : Bool) (items : List Item)
  deriving DecidableEq, Repr

namespace Leaf

def word : Leaf → Bytes
  | byte value => [value]
  | any => ['.'.toUInt8]
  | anchor kind => kind.shown
  | escape named => named.word
  | reference number => '\\'.toUInt8 :: number
  | brackets negated items =>
    '['.toUInt8 :: ((if negated then ['^'.toUInt8] else []) ++
      Item.wordsBefore [']'.toUInt8] items)

/-- A backreference takes as many digits as still name a group that has been opened. A bracket
expression that is not negated does not begin with a circumflex. -/
def Valid (groups : Nat) (following : Bytes) : Leaf → Prop
  | byte value => value.isOrdinary = true
  | any => True
  | anchor _ => True
  | escape named => named.Valid
  | reference number =>
    GroupNumber groups number ∧
      ∀ more, more <+: following → GroupNumber groups (number ++ more) → more = []
  | brackets negated items =>
    Item.AllValid (']'.toUInt8 :: following) items ∧
      (negated = false → (Item.wordsBefore [']'.toUInt8] items).head? ≠ some '^'.toUInt8)

def atom : Leaf → Atom
  | byte value => .byte value
  | any => .any
  | anchor kind => .anchor kind
  | escape named => named.meaning.atom
  | reference number => .backref (digitsValue number)
  | brackets negated items => .set ⟨ByteRange.normalize (items.flatMap Item.ranges), negated⟩

end Leaf

/-! ### Quantifiers -/

/-- The bounds of a repetition as they are written, with counts in decimal digits. -/
inductive Bounds where
  | star
  | plus
  | option
  | exactly (count : Bytes)
  | atLeast (count : Bytes)
  | between (low high : Bytes)
  deriving DecidableEq, Repr

/-- A count is a decimal number, possibly with leading zeros, that is not too large. -/
structure IsCount (number : Bytes) : Prop where
  ne_nil : number ≠ []
  digits : ∀ digit ∈ number, digit.isDigit = true
  le : digitsValue number ≤ maxRepeatCount

namespace Bounds

def word : Bounds → Bytes
  | star => ['*'.toUInt8]
  | plus => ['+'.toUInt8]
  | option => ['?'.toUInt8]
  | exactly count => '{'.toUInt8 :: (count ++ ['}'.toUInt8])
  | atLeast count => '{'.toUInt8 :: (count ++ [','.toUInt8, '}'.toUInt8])
  | between low high => '{'.toUInt8 :: (low ++ ','.toUInt8 :: (high ++ ['}'.toUInt8]))

def Valid : Bounds → Prop
  | star => True
  | plus => True
  | option => True
  | exactly count => IsCount count
  | atLeast count => IsCount count
  | between low high => IsCount low ∧ IsCount high ∧ digitsValue low ≤ digitsValue high

def min : Bounds → Nat
  | star => 0
  | plus => 1
  | option => 0
  | exactly count => digitsValue count
  | atLeast count => digitsValue count
  | between low _ => digitsValue low

def max : Bounds → Option Nat
  | star => none
  | plus => none
  | option => some 1
  | exactly count => some (digitsValue count)
  | atLeast _ => none
  | between _ high => some (digitsValue high)

end Bounds

/-- A quantifier as it is written. A question mark behind the bounds makes it lazy. -/
structure Suffix where
  bounds : Bounds
  greedy : Bool
  deriving DecidableEq, Repr

namespace Suffix

def word (suffix : Suffix) : Bytes :=
  suffix.bounds.word ++ if suffix.greedy then [] else ['?'.toUInt8]

def times (suffix : Suffix) : Quantifier :=
  ⟨suffix.bounds.min, suffix.bounds.max, suffix.greedy⟩

end Suffix

/-! ### Derivations -/

/-- The nonterminals of the grammar. -/
inductive Category where
  | atom
  | repetition
  | concatenation
  | alternation

inductive Derivation : Category → Type where
  | leaf (written : Leaf) : Derivation .atom
  /-- Parentheses, which capture or do not. -/
  | group (captures : Bool) (body : Derivation .alternation) : Derivation .atom
  | once (operand : Derivation .atom) : Derivation .repetition
  | repeated (operand : Derivation .atom) (suffix : Suffix) : Derivation .repetition
  | last (operand : Derivation .repetition) : Derivation .concatenation
  | more (operand : Derivation .repetition) (rest : Derivation .concatenation) :
      Derivation .concatenation
  | only (branch : Derivation .concatenation) : Derivation .alternation
  | choice (branch : Derivation .concatenation) (rest : Derivation .alternation) :
      Derivation .alternation

namespace Derivation

variable {category : Category}

/-- The bytes in front of the body of a group. -/
def opening (captures : Bool) : Bytes :=
  if captures then ['('.toUInt8] else ['('.toUInt8, '?'.toUInt8, ':'.toUInt8]

/-- The bytes that the derivation writes. -/
def word : {category : Category} → Derivation category → Bytes
  | _, leaf written => written.word
  | _, group captures body => opening captures ++ body.word ++ [')'.toUInt8]
  | _, once operand => operand.word
  | _, repeated operand suffix => operand.word ++ suffix.word
  | _, last operand => operand.word
  | _, more operand rest => operand.word ++ rest.word
  | _, only branch => branch.word
  | _, choice branch rest => branch.word ++ '|'.toUInt8 :: rest.word

/-- The number of capturing groups. -/
def groups : {category : Category} → Derivation category → Nat
  | _, leaf _ => 0
  | _, group captures body => captures.toNat + body.groups
  | _, once operand => operand.groups
  | _, repeated operand _ => operand.groups
  | _, last operand => operand.groups
  | _, more operand rest => operand.groups + rest.groups
  | _, only branch => branch.groups
  | _, choice branch rest => branch.groups + rest.groups

/-- No quantifier may follow an anchor. -/
def isAnchor : {category : Category} → Derivation category → Bool
  | _, leaf (.anchor _) => true
  | _, _ => false

/-- The rules that a derivation has to obey inside `depth` groups, with so many capturing groups
opened before it and these bytes behind it. -/
def Valid : {category : Category} → (depth groups : Nat) → (following : Bytes) →
    Derivation category → Prop
  | _, _, groups, following, leaf written => written.Valid groups following
  | _, depth, groups, following, group captures body =>
    depth < maxNesting ∧
      body.Valid (depth + 1) (groups + captures.toNat) (')'.toUInt8 :: following)
  | _, depth, groups, following, once operand => operand.Valid depth groups following
  | _, depth, groups, following, repeated operand suffix =>
    operand.Valid depth groups (suffix.word ++ following) ∧ operand.isAnchor = false ∧
      suffix.bounds.Valid
  | _, depth, groups, following, last operand => operand.Valid depth groups following
  | _, depth, groups, following, more operand rest =>
    operand.Valid depth groups (rest.word ++ following) ∧
      rest.Valid depth (groups + operand.groups) following
  | _, depth, groups, following, only branch => branch.Valid depth groups following
  | _, depth, groups, following, choice branch rest =>
    branch.Valid depth groups ('|'.toUInt8 :: (rest.word ++ following)) ∧
      rest.Valid depth (groups + branch.groups) following

/-- The tree that the derivation stands for, if it is written at an offset of a pattern with so
many capturing groups opened before. -/
def tree : {category : Category} → (position groups : Nat) → Derivation category → Tree
  | _, position, _, leaf written => .atom position written.atom
  | _, position, groups, group captures body =>
    .group position (if captures then some (groups + 1) else none)
      (body.tree (position + (opening captures).length) (groups + captures.toNat))
  | _, position, groups, once operand => operand.tree position groups
  | _, position, groups, repeated operand suffix =>
    .rep (operand.tree position groups) suffix.times
  | _, position, groups, last operand => operand.tree position groups
  | _, position, groups, more operand rest =>
    .cat (operand.tree position groups)
      (rest.tree (position + operand.word.length) (groups + operand.groups))
  | _, position, groups, only branch => branch.tree position groups
  | _, position, groups, choice branch rest =>
    .alt (branch.tree position groups)
      (rest.tree (position + branch.word.length + 1) (groups + branch.groups))

/-- A whole pattern is derived as an alternation that writes it. -/
structure Derives (derivation : Derivation .alternation) (pattern : Bytes) : Prop where
  word : derivation.word = pattern
  valid : derivation.Valid 0 0 []

end Derivation

end RegexSearch
