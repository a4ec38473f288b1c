import RegexSearch.Pattern.Escape

/-!
Bracket expressions. Between the brackets stand members, each a byte, an escape or a range of two
bytes joined by a minus; a minus that joins nothing, as the first or the last member does, stands
for itself. The set that is read has its ranges in normal form.
-/

namespace RegexSearch

/-- One member of a bracket expression before it is known whether it starts a range. -/
inductive BracketMember where
  | byte (value : Byte)
  | set (members : ByteSet)
  deriving DecidableEq, Repr

/-- The ranges of bytes that a member stands for. -/
def BracketMember.ranges : BracketMember → List ByteRange
  | byte value => [.ofBytes value value]
  | set members => members.positiveRanges

/-- Reads the member that starts with the byte `b`, and counts the bytes that it takes behind. -/
def readMember (b : Byte) (rest : Bytes) : Except Cause (BracketMember × Nat) :=
  if b.toChar == '\\' then
    match readEscape .brackets rest with
    | .ok (.byte value, taken) => .ok (.byte value, taken)
    | .ok (.set members, taken) => .ok (.set members, taken)
    | .ok _ => .error .badEscape
    | .error cause => .error cause
  else .ok (.byte b, 0)

/-- Whether a minus follows that joins the member before it to the member behind it. -/
def joinsRange (following : Bytes) : Bool :=
  match (following.take 2).map Byte.toChar with
  | ['-', last] => last != ']'
  | _ => false

/-- Reads members up to the closing bracket. `opening` is the offset of the opening bracket and
`position` that of the next byte; `skip` counts the bytes to pass over because the member before
took them; `low` is the lower end of a range that waits for its upper end. The result is the
ranges of all members and the offset behind the closing bracket. -/
def readMembers (opening : Nat) (ranges : List ByteRange) (low : Option Byte) :
    (skip position : Nat) → Bytes → Except Error (List ByteRange × Nat)
  | _, _, [] => .error ⟨.badBracketExpression, opening⟩
  | skip + 1, position, _ :: rest => readMembers opening ranges low skip (position + 1) rest
  | 0, position, b :: rest =>
    if b.toChar == ']' && low.isNone then .ok (ranges, position + 1)
    else
      match readMember b rest with
      | .error cause => .error ⟨cause, position⟩
      | .ok (member, taken) =>
        match low, member with
        | some first, .byte last =>
          if last.toInt8 < first.toInt8 then .error ⟨.badBracketExpression, opening⟩
          else
            readMembers opening (.ofBytes first last :: ranges) none taken (position + 1) rest
        | some _, .set _ => .error ⟨.badBracketExpression, opening⟩
        | none, member =>
          if joinsRange (rest.drop taken) then
            match member with
            | .byte first =>
              readMembers opening ranges (some first) (taken + 1) (position + 1) rest
            | .set _ => .error ⟨.badBracketExpression, opening⟩
          else readMembers opening (member.ranges ++ ranges) none taken (position + 1) rest

/-- Reads a bracket expression from what follows its opening bracket at offset `opening`. The
result is the set and the offset behind the closing bracket. -/
def readBrackets (opening : Nat) (rest : Bytes) : Except Error (ByteSet × Nat) :=
  let negated := rest.head?.any (·.toChar == '^')
  let skip := if negated then 1 else 0
  match readMembers opening [] none skip (opening + 1) rest with
  | .ok (ranges, position) => .ok (⟨ByteRange.normalize ranges, negated⟩, position)
  | .error error => .error error

end RegexSearch
