import RegexSearch.Pattern.Tree

/-!
Pattern trees in parenthesised form, `(concat (char 'a') (repeat 0, greedy (any)))`. Each tree is
written with its kind in front, and a chain of concatenations or alternations is one list.
-/

namespace RegexSearch

def Atom.shown : Atom → Bytes
  | byte value => ascii "(char '" ++ value.shown ++ ascii "')"
  | set members => ascii "(class " ++ members.shown ++ ascii ")"
  | any => ascii "(any)"
  | backref group => ascii "(backref " ++ decimal group ++ ascii ")"
  | anchor kind => ascii "(assert " ++ kind.shown ++ ascii ")"

/-- The bounds and the preference, where a missing bound leaves its place empty. -/
def Quantifier.shown (times : Quantifier) : Bytes :=
  decimal times.min ++ ascii "," ++ times.max.elim [] decimal ++
    if times.greedy then ascii " greedy" else ascii " lazy"

namespace Tree

/-- The chain that a tree continues, if it is the later part of one. -/
inductive Chain where
  | none
  | cat
  | alt

/-- A tree that continues a chain adds its operands to the list that is already open. -/
def shownWithin : Chain → Tree → Bytes
  | _, atom _ a => a.shown
  | _, group _ (some index) body =>
    ascii "(group " ++ decimal index ++ ascii " " ++ body.shownWithin .none ++ ascii ")"
  | _, group _ none body => ascii "(group " ++ body.shownWithin .none ++ ascii ")"
  | .cat, cat first rest => first.shownWithin .none ++ ascii " " ++ rest.shownWithin .cat
  | _, cat first rest =>
    ascii "(concat " ++ first.shownWithin .none ++ ascii " " ++ rest.shownWithin .cat ++ ascii ")"
  | .alt, alt first rest => first.shownWithin .none ++ ascii " " ++ rest.shownWithin .alt
  | _, alt first rest =>
    ascii "(alter " ++ first.shownWithin .none ++ ascii " " ++ rest.shownWithin .alt ++ ascii ")"
  | _, rep body times =>
    ascii "(repeat " ++ times.shown ++ ascii " " ++ body.shownWithin .none ++ ascii ")"

def shown (tree : Tree) : Bytes :=
  tree.shownWithin .none

end Tree

end RegexSearch
