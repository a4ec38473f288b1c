import RegexSearch.Anchor
import RegexSearch.ByteSet

/-!
Pattern trees. Concatenation and alternation join two trees; a longer chain of operands is nested
to the right, so `abc` is `a` followed by `bc`. Atoms and groups carry the offset at which the
pattern writes them, and the other trees begin where their first operand begins.

The views of a tree treat such a chain as one node with many operands: `nodes` lists it once, and
`operandCount` counts its operands.
-/

namespace RegexSearch

/-- The indivisible patterns. -/
inductive Atom where
  /-- Exactly this byte. -/
  | byte (value : Byte)
  /-- Any byte of the set. -/
  | set (members : ByteSet)
  /-- Any byte but a newline. -/
  | any
  /-- The bytes that a group has captured. -/
  | backref (group : Nat)
  /-- A condition on the place, which consumes nothing. -/
  | anchor (anchor : Anchor)
  deriving DecidableEq, Repr

/-- How often a pattern is repeated, where no `max` is no bound. A greedy repetition prefers
another round to leaving, a lazy one prefers to leave. -/
structure Quantifier where
  min : Nat
  max : Option Nat
  greedy : Bool
  deriving DecidableEq, Repr

/-- Whether the body has to be written out more than once. -/
def Quantifier.isCounted (times : Quantifier) : Bool :=
  1 < times.min || times.max.any (1 < ·)

inductive Tree where
  | atom (position : Nat) (atom : Atom)
  /-- Parentheses. A group with an index captures the text that its body matches. -/
  | group (position : Nat) (index : Option Nat) (body : Tree)
  /-- One pattern after the other. -/
  | cat (first rest : Tree)
  /-- Either of two patterns, the first being preferred. -/
  | alt (first rest : Tree)
  | rep (body : Tree) (times : Quantifier)
  deriving DecidableEq, Repr

namespace Tree

/-- The offset in the pattern at which the tree begins. -/
def position : Tree → Nat
  | atom position _ => position
  | group position _ _ => position
  | cat first _ => first.position
  | alt first _ => first.position
  | rep body _ => body.position

def isCat : Tree → Bool
  | cat .. => true
  | _ => false

def isAlt : Tree → Bool
  | alt .. => true
  | _ => false

/-- A quantifier may follow any operand but an anchor and one that has a quantifier already. -/
def isRepeatable : Tree → Bool
  | atom _ (.anchor _) => false
  | rep .. => false
  | _ => true

/-- Whether the pattern may match without consuming input. A backreference may, because its
group may have captured an empty text. -/
def nullable : Tree → Bool
  | atom _ (.byte _) => false
  | atom _ (.set _) => false
  | atom _ .any => false
  | atom _ (.backref _) => true
  | atom _ (.anchor _) => true
  | group _ _ body => body.nullable
  | cat first rest => first.nullable && rest.nullable
  | alt first rest => first.nullable || rest.nullable
  | rep body times => times.min == 0 || body.nullable

/-- The trees in the order in which the pattern writes them, a tree before its parts. The later
part of a chain is not listed by itself. -/
def nodes : Tree → List Tree
  | atom position a => [atom position a]
  | group position index body => group position index body :: body.nodes
  | cat first rest =>
    cat first rest :: (first.nodes ++ if rest.isCat then rest.nodes.tail else rest.nodes)
  | alt first rest =>
    alt first rest :: (first.nodes ++ if rest.isAlt then rest.nodes.tail else rest.nodes)
  | rep body times => rep body times :: body.nodes

/-- The number of direct operands, where a chain has all of its members as operands. -/
def operandCount : Tree → Nat
  | atom .. => 0
  | group .. => 1
  | cat _ rest => 1 + if rest.isCat then rest.operandCount else 1
  | alt _ rest => 1 + if rest.isAlt then rest.operandCount else 1
  | rep .. => 1

end Tree

end RegexSearch
