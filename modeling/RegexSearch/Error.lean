import RegexSearch.Byte

/-!
What can go wrong. A pattern may be refused, with the offset in the pattern to look at, and an
attempt to match may use up the steps that it was given, which has no such offset.
-/

namespace RegexSearch

inductive Cause where
  | emptyPattern
  | emptyOperand
  | nothingToRepeat
  | badEscape
  | missingParen
  | badBracketExpression
  | badBraceExpression
  | badBackreference
  | expensiveUnroll
  | unsupportedFeature
  | nestingTooDeep
  | stepLimitExceeded
  deriving DecidableEq, Repr

/-- The kinds of outcome that a message starts with. -/
inductive Kind where
  | success
  | patternSyntax
  | matchTimeout
  deriving DecidableEq, Repr

def Kind.name : Kind → Bytes
  | success => ascii "none"
  | patternSyntax => ascii "PatternSyntaxError"
  | matchTimeout => ascii "MatchTimeout"

def Cause.kind : Cause → Kind
  | stepLimitExceeded => .matchTimeout
  | _ => .patternSyntax

/-- What a cause is called in messages. -/
def Cause.summary : Cause → Bytes
  | emptyPattern => ascii "empty pattern"
  | emptyOperand => ascii "empty operand"
  | nothingToRepeat => ascii "nothing to repeat"
  | badEscape => ascii "bad escape"
  | missingParen => ascii "missing parentheses"
  | badBracketExpression => ascii "bad bracket expression"
  | badBraceExpression => ascii "bad brace expression"
  | badBackreference => ascii "backreference to an undefined group"
  | expensiveUnroll => ascii "brace expression is too complex to unroll"
  | unsupportedFeature => ascii "unsupported features"
  | nestingTooDeep => ascii "groups nested too deeply"
  | stepLimitExceeded => ascii "match step limit exceeded"

/-- A failure, and the offset in the pattern at which it shows. The offset of a failure that is
not one of syntax is zero and means nothing. -/
structure Error where
  cause : Cause
  position : Nat := 0
  deriving DecidableEq, Repr

/-- What an operation reports beside its value: no cause is success. -/
structure Status where
  cause : Option Cause
  position : Nat := 0
  deriving DecidableEq, Repr

namespace Status

def isOk (status : Status) : Bool :=
  status.cause.isNone

def kind (status : Status) : Kind :=
  status.cause.elim .success Cause.kind

/-- What the status is called, without its place. -/
def summary (status : Status) : Bytes :=
  status.cause.elim (ascii "successed") Cause.summary

/-- Only a failure of syntax has a place worth naming. -/
def message (status : Status) : Bytes :=
  match status.kind with
  | .patternSyntax => status.summary ++ ascii " at position " ++ decimal status.position
  | _ => status.summary

/-- The message behind the name of its kind. -/
def text (status : Status) : Bytes :=
  status.kind.name ++ ascii ": " ++ status.message

end Status

namespace Error

/-- The failure of an attempt that has used up its steps. -/
def timeout : Error := ⟨.stepLimitExceeded, 0⟩

def toStatus (error : Error) : Status :=
  ⟨some error.cause, error.position⟩

def kind (error : Error) : Kind := error.toStatus.kind

def message (error : Error) : Bytes := error.toStatus.message

def text (error : Error) : Bytes := error.toStatus.text

end Error

end RegexSearch
