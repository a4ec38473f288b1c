import RegexSearch.Program.Lowering

/-!
The layout of programs is exact: the code of a tree has the length that `Tree.codeSize` predicts,
at whatever place it is laid out, so what follows it starts where `Place.after` says. The layouts
of repetitions are measured first, for any way of writing a body that always takes the same
number of instructions.
-/

namespace RegexSearch

section Repetition

variable {emit : Place → List Instr} {behind : Place → Place} {size : Nat}

theorem length_requiredRounds (hemit : ∀ here, (emit here).length = size) (count : Nat)
    (here : Place) : (requiredRounds emit behind count here).length = count * size := by
  induction count generalizing here with
  | zero => simp [requiredRounds]
  | succ count ih => simp [requiredRounds, hemit, ih, Nat.succ_mul, Nat.add_comm]

theorem length_optionalRounds (hemit : ∀ here, (emit here).length = size) (greedy : Bool)
    (exit count : Nat) (here : Place) :
    (optionalRounds emit behind greedy exit count here).length = count * (size + 1) := by
  induction count generalizing here with
  | zero => simp [optionalRounds]
  | succ count ih =>
    simp only [optionalRounds, List.length_append, List.length_cons, hemit, ih, Nat.succ_mul]
    omega

theorem length_starLoop (hemit : ∀ here, (emit here).length = size) (greedy guarded : Bool)
    (here : Place) :
    (starLoop emit behind greedy guarded here).length =
      size + 2 + if guarded then 2 else 0 := by
  cases guarded <;> simp [starLoop, hemit]

theorem length_plusLoop (hemit : ∀ here, (emit here).length = size) (greedy guarded : Bool)
    (slot : Nat) (here : Place) :
    (plusLoop emit behind greedy guarded slot here).length =
      size + 1 + if guarded then 3 else 0 := by
  cases guarded <;> simp [plusLoop, hemit]

end Repetition

/-- A tree takes as many instructions wherever it is laid out. -/
theorem Tree.length_code (tree : Tree) (here : Place) :
    (tree.code here).length = tree.codeSize := by
  induction tree generalizing here with
  | atom position a => simp [code, codeSize]
  | group position index body ih => cases index <;> simp [code, codeSize, ih]
  | cat first rest ihf ihr => simp [code, codeSize, ihf, ihr]
  | alt first rest ihf ihr =>
    simp only [code, codeSize, List.length_append, List.length_cons, ihf, ihr]
    omega
  | rep body times ih =>
    have hemit : ∀ here, (body.code here).length = body.codeSize := ih
    obtain ⟨min, max, greedy⟩ := times
    cases max with
    | none =>
      cases min with
      | zero => simp [code, codeSize, repetition, length_starLoop hemit]
      | succ before =>
        simp only [code, codeSize, repetition, List.length_append,
          length_requiredRounds hemit, length_plusLoop hemit, Nat.succ_mul]
        omega
    | some max =>
      simp [code, codeSize, repetition, length_requiredRounds hemit,
        length_optionalRounds hemit]

/-- A program has three instructions besides those of its tree: two capture the whole match and
one accepts it. -/
theorem Program.size_ofTree (tree : Tree) (groups : Nat) :
    (ofTree tree groups).size = tree.codeSize + 3 := by
  simp [size, ofTree, wrap, tree.length_code]

end RegexSearch
