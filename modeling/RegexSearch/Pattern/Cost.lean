import RegexSearch.Pattern.Tree

/-!
The cost of a pattern, an estimate of the program that it takes once its counted repetitions are
written out. Costs are 64-bit words and wrap around. A counted repetition is refused if its body
or the repetition itself costs more than the limit; the body of a repetition that admits no round
at all is never written out, so it is not looked at.
-/

namespace RegexSearch

/-- The cost of a repetition whose body has the cost `body`. An unbounded one adds a branch and a
jump to the rounds that it writes out, and each optional round adds a branch of its own. -/
def Quantifier.cost (times : Quantifier) (body : UInt64) : UInt64 :=
  match times.max with
  | none => (if times.min == 0 then body else UInt64.ofNat times.min * body) + 2
  | some max => UInt64.ofNat times.min * body + UInt64.ofNat (max - times.min) * (body + 1)

namespace Tree

def cost : Tree → UInt64
  | atom .. => 1
  | group _ index body => body.cost + if index.isSome then 2 else 0
  | cat first rest => first.cost + rest.cost
  | alt first rest => first.cost + 2 + rest.cost
  | rep body times => times.cost body.cost

/-- Whether writing out a repetition of this body would exceed the limit. -/
def isExpensive (limit : Nat) (body : Tree) (times : Quantifier) : Bool :=
  times.isCounted && (limit < body.cost.toNat || limit < (times.cost body.cost).toNat)

/-- The offset of the first counted repetition to be written out that is too expensive. An outer
repetition comes before those inside. -/
def firstExpensive? (limit : Nat) : Tree → Option Nat
  | atom .. => none
  | group _ _ body => body.firstExpensive? limit
  | cat first rest => (first.firstExpensive? limit).or (rest.firstExpensive? limit)
  | alt first rest => (first.firstExpensive? limit).or (rest.firstExpensive? limit)
  | rep body times =>
    if body.isExpensive limit times then some body.position
    else if times.max == some 0 then none
    else body.firstExpensive? limit

end Tree

end RegexSearch
