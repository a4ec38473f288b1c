import RegexSearch.Pattern.Cost

/-!
Constructs. A construct is what a pattern writes at an offset, and it has its parts as a list: a
concatenation has its items, and an alternation has its alternatives. Nothing keeps such a list from
having a single member, or a member that is a list of the same kind. The construct of a tree has
neither, because a chain in the tree becomes one list with all of its members.
-/

namespace RegexSearch

inductive Construct where
  | atom (position : Nat) (atom : Atom)
  /-- Parentheses, which capture if they have an index. -/
  | group (position : Nat) (index : Option Nat) (body : Construct)
  | concatenation (position : Nat) (items : List Construct)
  | alternation (position : Nat) (alternatives : List Construct)
  | repetition (position : Nat) (body : Construct) (times : Quantifier)
  deriving Repr

namespace Construct

/-- The offset in the pattern at which the construct begins. -/
def position : Construct → Nat
  | atom position _ => position
  | group position _ _ => position
  | concatenation position _ => position
  | alternation position _ => position
  | repetition position _ _ => position

/-- Whether the construct is a condition on the place. -/
def isAnchor : Construct → Bool
  | atom _ (.anchor _) => true
  | _ => false

/-- The construct as a list of items. -/
def items : Construct → List Construct
  | concatenation _ items => items
  | other => [other]

/-- The construct as a list of alternatives. -/
def alternatives : Construct → List Construct
  | alternation _ alternatives => alternatives
  | other => [other]

mutual

/-- Whether the construct may match without consuming input. -/
def nullable : Construct → Bool
  | atom position a => (Tree.atom position a).nullable
  | group _ _ body => body.nullable
  | concatenation _ items => allNullable items
  | alternation _ alternatives => anyNullable alternatives
  | repetition _ body times => times.min == 0 || body.nullable

def allNullable : List Construct → Bool
  | [] => true
  | item :: items => item.nullable && allNullable items

def anyNullable : List Construct → Bool
  | [] => false
  | alternative :: others => alternative.nullable || anyNullable others

end

mutual

/-- The cost of a construct. Each alternative but the last one adds a branch and a jump. -/
def cost : Construct → UInt64
  | atom .. => 1
  | group _ index body => body.cost + if index.isSome then 2 else 0
  | concatenation _ items => itemsCost items
  | alternation _ alternatives => alternativesCost alternatives - 2
  | repetition _ body times => times.cost body.cost

def itemsCost : List Construct → UInt64
  | [] => 0
  | item :: items => item.cost + itemsCost items

def alternativesCost : List Construct → UInt64
  | [] => 0
  | alternative :: others => alternative.cost + 2 + alternativesCost others

end

/-! A construct is as nullable and costs as much as the list that it is. -/

theorem allNullable_items (construct : Construct) :
    allNullable construct.items = construct.nullable := by
  cases construct with
  | concatenation position items => rfl
  | _ => exact Bool.and_true _

theorem anyNullable_alternatives (construct : Construct) :
    anyNullable construct.alternatives = construct.nullable := by
  cases construct with
  | alternation position alternatives => rfl
  | _ => exact Bool.or_false _

theorem itemsCost_items (construct : Construct) : itemsCost construct.items = construct.cost := by
  cases construct with
  | concatenation position items => rfl
  | _ => exact UInt64.add_zero _

theorem alternativesCost_alternatives (construct : Construct) :
    alternativesCost construct.alternatives = construct.cost + 2 := by
  cases construct with
  | alternation position alternatives => exact (UInt64.sub_add_cancel _ 2).symm
  | _ => exact UInt64.add_zero _

/-- How loosely a construct holds together. -/
def rank : Construct → Nat
  | atom .. => 1
  | group .. => 1
  | repetition .. => 2
  | concatenation .. => 3
  | alternation .. => 4

mutual

/-- Lists have several members, and these hold together more tightly than the list. -/
def Proper : Construct → Prop
  | atom .. => True
  | group _ _ body => body.Proper
  | concatenation _ items => 2 ≤ items.length ∧ (∀ item ∈ items, item.rank < 3) ∧ AllProper items
  | alternation _ alternatives =>
    2 ≤ alternatives.length ∧ (∀ alternative ∈ alternatives, alternative.rank < 4) ∧
      AllProper alternatives
  | repetition _ body _ => body.rank < 2 ∧ body.Proper

def AllProper : List Construct → Prop
  | [] => True
  | part :: parts => part.Proper ∧ AllProper parts

end

end Construct

namespace Tree

/-- The construct of a tree, where a chain has all of its members in one list. -/
def construct : Tree → Construct
  | atom position a => .atom position a
  | group position index body => .group position index body.construct
  | cat first rest => .concatenation first.position (first.construct :: rest.construct.items)
  | alt first rest => .alternation first.position (first.construct :: rest.construct.alternatives)
  | rep body times => .repetition body.position body.construct times

@[simp] theorem position_construct (tree : Tree) : tree.construct.position = tree.position := by
  cases tree <;> rfl

/-- A tree and its construct are alike nullable. -/
theorem nullable_construct (tree : Tree) : tree.construct.nullable = tree.nullable := by
  induction tree with
  | atom position a => rfl
  | group position index body ih => exact ih
  | cat first rest ihfirst ihrest =>
      rw [construct, Construct.nullable, Construct.allNullable, Construct.allNullable_items,
        ihfirst, ihrest]
      rfl
  | alt first rest ihfirst ihrest =>
      rw [construct, Construct.nullable, Construct.anyNullable,
        Construct.anyNullable_alternatives, ihfirst, ihrest]
      rfl
  | rep body times ih =>
      rw [construct, Construct.nullable, ih]
      rfl

/-- A tree and its construct cost the same. -/
theorem cost_construct (tree : Tree) : tree.construct.cost = tree.cost := by
  induction tree with
  | atom position a => rfl
  | group position index body ih =>
      rw [construct, Construct.cost, ih]
      rfl
  | cat first rest ihfirst ihrest =>
      rw [construct, Construct.cost, Construct.itemsCost, Construct.itemsCost_items, ihfirst,
        ihrest]
      rfl
  | alt first rest ihfirst ihrest =>
      rw [construct, Construct.cost, Construct.alternativesCost,
        Construct.alternativesCost_alternatives, ihfirst, ihrest, ← UInt64.add_assoc,
        UInt64.add_sub_cancel]
      rfl
  | rep body times ih =>
      rw [construct, Construct.cost, ih]
      rfl

theorem items_construct {tree : Tree} (h : tree.isCat = false) :
    tree.construct.items = [tree.construct] := by
  cases tree <;> first | rfl | cases h

theorem alternatives_construct {tree : Tree} (h : tree.isAlt = false) :
    tree.construct.alternatives = [tree.construct] := by
  cases tree <;> first | rfl | cases h

theorem alternatives_construct_ne_nil (tree : Tree) : tree.construct.alternatives ≠ [] := by
  cases tree <;> exact List.cons_ne_nil _ _

theorem isAlt_of_construct {tree : Tree} {position : Nat} {items : List Construct}
    (h : tree.construct = .concatenation position items) : tree.isAlt = false := by
  cases tree <;> first | rfl | cases h

/-! A chain is put together from its members, the latest of which comes first. -/

section Chain

variable {start : Nat} {before : List Tree}

theorem construct_foldl (make : Tree → Tree → Tree) (list : Nat → List Construct → Construct)
    (members : Construct → List Construct)
    (hmake : ∀ first rest, (make first rest).construct =
      list first.position (first.construct :: members rest.construct))
    (hmembers : ∀ position parts, members (list position parts) = parts)
    (hne : before ≠ []) (hstart : (before.getLast hne).position = start) (rest : Tree) :
    (before.foldl (fun rest member => make member rest) rest).construct =
      list start ((before.map construct).reverse ++ members rest.construct) := by
  induction before generalizing rest with
  | nil => exact absurd rfl hne
  | cons member before ih =>
      rw [List.foldl_cons]
      cases before with
      | nil =>
          rw [List.getLast_singleton] at hstart
          rw [List.foldl_nil, hmake, hstart]
          rfl
      | cons earlier before =>
          rw [List.getLast_cons (List.cons_ne_nil _ _)] at hstart
          rw [ih (List.cons_ne_nil _ _) hstart, hmake, hmembers]
          simp

variable {last : Tree} (hne : before ≠ []) (hstart : (before.getLast hne).position = start)

include hstart

theorem construct_foldl_cat (hlast : last.isCat = false) :
    (before.foldl (fun rest operand => .cat operand rest) last).construct =
      .concatenation start ((last :: before).map construct).reverse := by
  rw [construct_foldl cat .concatenation Construct.items (fun _ _ => rfl) (fun _ _ => rfl) hne
    hstart, items_construct hlast, List.map_cons, List.reverse_cons]

theorem construct_foldl_alt (hlast : last.isAlt = false) :
    (before.foldl (fun rest alternative => .alt alternative rest) last).construct =
      .alternation start ((last :: before).map construct).reverse := by
  rw [construct_foldl alt .alternation Construct.alternatives (fun _ _ => rfl) (fun _ _ => rfl) hne
    hstart, alternatives_construct hlast, List.map_cons, List.reverse_cons]

end Chain

end Tree

end RegexSearch
