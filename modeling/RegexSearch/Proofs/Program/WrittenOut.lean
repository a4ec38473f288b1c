import RegexSearch.Proofs.Program.SameLayout

/-!
Counted repetitions written out. A repetition that asks for a number of rounds and admits some more
stands for as many copies of its body, one after the other, and for optional copies behind them,
each of which holds the ones after it: `R{2,4}` for `RR(R(R)?)?`. The two are laid out alike, so
they have the same program in every surrounding tree.

What stands in the place of a repetition is a list of trees, which become operands of the sequence
that the repetition is in.
-/

namespace RegexSearch

namespace Tree

/-- A tree that takes no space: no round is asked for, and none is admitted. -/
def nothing : Tree :=
  rep (atom 0 .any) ⟨0, some 0, true⟩

/-- Trees one after the other, nested to the right. -/
def sequence : List Tree → Tree
  | [] => nothing
  | [last] => last
  | first :: rest => cat first (sequence rest)

/-- So many optional copies of a tree, each one inside the one before it. -/
def nestedOptionals (body : Tree) (greedy : Bool) : Nat → List Tree
  | 0 => []
  | count + 1 => [rep (sequence (body :: nestedOptionals body greedy count)) ⟨0, some 1, greedy⟩]

/-- What a counted repetition stands for. -/
def writtenOut (body : Tree) (min max : Nat) (greedy : Bool) : List Tree :=
  List.replicate min body ++ nestedOptionals body greedy (max - min)

end Tree

/-- A tree in which some operands of a sequence are left open. -/
inductive Surrounding where
  /-- The sequence with the operands to be filled in. -/
  | among (before behind : List Tree)
  | group (position : Nat) (index : Option Nat) (inner : Surrounding)
  | catFirst (inner : Surrounding) (rest : Tree)
  | catRest (first : Tree) (inner : Surrounding)
  | altFirst (inner : Surrounding) (rest : Tree)
  | altRest (first : Tree) (inner : Surrounding)
  | rep (inner : Surrounding) (times : Quantifier)

/-- The tree with these operands filled in. -/
def Surrounding.fill (operands : List Tree) : Surrounding → Tree
  | among before behind => .sequence (before ++ operands ++ behind)
  | group position index inner => .group position index (inner.fill operands)
  | catFirst inner rest => .cat (inner.fill operands) rest
  | catRest first inner => .cat first (inner.fill operands)
  | altFirst inner rest => .alt (inner.fill operands) rest
  | altRest first inner => .alt first (inner.fill operands)
  | rep inner times => .rep (inner.fill operands) times

/-- A relation of trees that is kept by whatever is built around them. -/
structure Tree.IsCongruence (related : Tree → Tree → Prop) : Prop where
  refl : ∀ tree, related tree tree
  group : ∀ {body body'} position index, related body body' →
    related (.group position index body) (.group position index body')
  cat : ∀ {first first' rest rest'}, related first first' → related rest rest' →
    related (.cat first rest) (.cat first' rest')
  alt : ∀ {first first' rest rest'}, related first first' → related rest rest' →
    related (.alt first rest) (.alt first' rest')
  rep : ∀ {body body'} times, related body body' → related (.rep body times) (.rep body' times)
  append : ∀ {first first' rest rest'}, related (.sequence first) (.sequence first') →
    related (.sequence rest) (.sequence rest') →
    related (.sequence (first ++ rest)) (.sequence (first' ++ rest'))

/-- Filling related operands into the same place gives related trees. -/
theorem Tree.IsCongruence.fill {related : Tree → Tree → Prop} (h : Tree.IsCongruence related)
    {operands operands' : List Tree} (hrelated : related (.sequence operands) (.sequence operands'))
    (surrounding : Surrounding) :
    related (surrounding.fill operands) (surrounding.fill operands') := by
  induction surrounding with
  | among before behind =>
      exact h.append (h.append (h.refl (.sequence before)) hrelated) (h.refl (.sequence behind))
  | group position index inner ih => exact h.group position index ih
  | catFirst inner rest ih => exact h.cat ih (h.refl rest)
  | catRest first inner ih => exact h.cat (h.refl first) ih
  | altFirst inner rest ih => exact h.alt ih (h.refl rest)
  | altRest first inner ih => exact h.alt (h.refl first) ih
  | rep inner times ih => exact h.rep times ih

namespace Tree

/-! ### Sequences -/

section Sequence

variable (first : Tree) (rest before behind : List Tree) (here : Place)

@[simp] theorem codeSize_sequence_cons :
    (sequence (first :: rest)).codeSize = first.codeSize + (sequence rest).codeSize := by
  cases rest <;> rfl

@[simp] theorem loopCount_sequence_cons :
    (sequence (first :: rest)).loopCount = first.loopCount + (sequence rest).loopCount := by
  cases rest <;> rfl

@[simp] theorem sets_sequence_cons :
    (sequence (first :: rest)).sets = first.sets ++ (sequence rest).sets := by
  cases rest with
  | nil => exact (List.append_nil _).symm
  | cons second rest => rfl

@[simp] theorem nullable_sequence_cons :
    (sequence (first :: rest)).nullable = (first.nullable && (sequence rest).nullable) := by
  cases rest with
  | nil => exact (Bool.and_true _).symm
  | cons second rest => rfl

@[simp] theorem fullCost_sequence_cons :
    (sequence (first :: rest)).fullCost = first.fullCost + (sequence rest).fullCost := by
  cases rest <;> rfl

@[simp] theorem code_sequence_cons :
    (sequence (first :: rest)).code here =
      first.code here ++ (sequence rest).code (here.after first) := by
  cases rest with
  | nil => exact (List.append_nil _).symm
  | cons second rest => rfl

theorem after_sequence_cons :
    here.after (sequence (first :: rest)) = (here.after first).after (sequence rest) := by
  simp [Place.after, Nat.add_assoc]

theorem codeSize_sequence_append : (sequence (before ++ behind)).codeSize =
    (sequence before).codeSize + (sequence behind).codeSize := by
  induction before with
  | nil => exact (Nat.zero_add _).symm
  | cons first before ih => simp [ih, Nat.add_assoc]

theorem loopCount_sequence_append : (sequence (before ++ behind)).loopCount =
    (sequence before).loopCount + (sequence behind).loopCount := by
  induction before with
  | nil => exact (Nat.zero_add _).symm
  | cons first before ih => simp [ih, Nat.add_assoc]

theorem sets_sequence_append :
    (sequence (before ++ behind)).sets = (sequence before).sets ++ (sequence behind).sets := by
  induction before with
  | nil => rfl
  | cons first before ih => simp [ih]

theorem nullable_sequence_append : (sequence (before ++ behind)).nullable =
    ((sequence before).nullable && (sequence behind).nullable) := by
  induction before with
  | nil => rfl
  | cons first before ih => simp [ih, Bool.and_assoc]

theorem fullCost_sequence_append : (sequence (before ++ behind)).fullCost =
    (sequence before).fullCost + (sequence behind).fullCost := by
  induction before with
  | nil => exact (Nat.zero_add _).symm
  | cons first before ih => simp [ih, Nat.add_assoc]

theorem code_sequence_append : (sequence (before ++ behind)).code here =
    (sequence before).code here ++ (sequence behind).code (here.after (sequence before)) := by
  induction before generalizing here with
  | nil => rfl
  | cons first before ih => simp [ih, after_sequence_cons]

end Sequence

theorem isCongruence_sameLayout : IsCongruence SameLayout where
  refl := SameLayout.refl
  group position := SameLayout.group position position
  cat := SameLayout.cat
  alt := SameLayout.alt
  rep := SameLayout.rep
  append hfirst hrest := by
    constructor
    · simp only [codeSize_sequence_append, hfirst.codeSize, hrest.codeSize]
    · simp only [loopCount_sequence_append, hfirst.loopCount, hrest.loopCount]
    · simp only [sets_sequence_append, hfirst.sets, hrest.sets]
    · simp only [nullable_sequence_append, hfirst.nullable, hrest.nullable]
    · simp only [fullCost_sequence_append, hfirst.fullCost, hrest.fullCost]
    · funext here
      simp only [code_sequence_append, hfirst.code, hrest.code, hfirst.after]

/-! ### Copies -/

section Copies

variable (body : Tree) (greedy : Bool) (count : Nat) (here : Place)

theorem codeSize_copies :
    (sequence (List.replicate count body)).codeSize = count * body.codeSize := by
  induction count with
  | zero => exact (Nat.zero_mul _).symm
  | succ count ih =>
      rw [List.replicate_succ, codeSize_sequence_cons, ih, Nat.succ_mul, Nat.add_comm]

theorem loopCount_copies :
    (sequence (List.replicate count body)).loopCount = count * body.loopCount := by
  induction count with
  | zero => exact (Nat.zero_mul _).symm
  | succ count ih =>
      rw [List.replicate_succ, loopCount_sequence_cons, ih, Nat.succ_mul, Nat.add_comm]

theorem sets_copies :
    (sequence (List.replicate count body)).sets = (List.replicate count body.sets).flatten := by
  induction count with
  | zero => rfl
  | succ count ih =>
      rw [List.replicate_succ, sets_sequence_cons, ih, List.replicate_succ, List.flatten_cons]

theorem nullable_copies :
    (sequence (List.replicate count body)).nullable = (count == 0 || body.nullable) := by
  induction count with
  | zero => rfl
  | succ count ih =>
      rw [List.replicate_succ, nullable_sequence_cons, ih]
      cases body.nullable <;> simp

theorem fullCost_copies :
    (sequence (List.replicate count body)).fullCost = count * body.fullCost := by
  induction count with
  | zero => exact (Nat.zero_mul _).symm
  | succ count ih =>
      rw [List.replicate_succ, fullCost_sequence_cons, ih, Nat.succ_mul, Nat.add_comm]

/-- Required rounds are copies one after the other. -/
theorem code_copies : (sequence (List.replicate count body)).code here =
    requiredRounds (fun place => body.code place) (·.after body) count here := by
  induction count generalizing here with
  | zero => rfl
  | succ count ih => rw [List.replicate_succ, code_sequence_cons, ih, requiredRounds]

theorem after_copies : here.after (sequence (List.replicate count body)) =
    behindRounds (·.after body) count here := by
  induction count generalizing here with
  | zero => rfl
  | succ count ih => rw [List.replicate_succ, after_sequence_cons, ih, behindRounds]

/-- An optional round takes one instruction more than its body. -/
theorem pc_round : ((here.skip 1).after body).pc - here.pc = body.codeSize + 1 := by
  simp only [Place.skip, Place.after]
  omega

theorem sequence_nestedOptionals_succ : sequence (nestedOptionals body greedy (count + 1)) =
    rep (sequence (body :: nestedOptionals body greedy count)) ⟨0, some 1, greedy⟩ := rfl

theorem codeSize_nestedOptionals : (sequence (nestedOptionals body greedy count)).codeSize =
    count * (body.codeSize + 1) := by
  induction count with
  | zero => exact (Nat.zero_mul _).symm
  | succ count ih =>
      rw [sequence_nestedOptionals_succ, codeSize, codeSize_sequence_cons, ih, Nat.succ_mul]
      dsimp only
      omega

theorem loopCount_nestedOptionals : (sequence (nestedOptionals body greedy count)).loopCount =
    count * body.loopCount := by
  induction count with
  | zero => exact (Nat.zero_mul _).symm
  | succ count ih =>
      rw [sequence_nestedOptionals_succ, loopCount, loopCount_sequence_cons, ih, Nat.succ_mul]
      simp [Quantifier.copies, Nat.add_comm]

theorem sets_nestedOptionals : (sequence (nestedOptionals body greedy count)).sets =
    (List.replicate count body.sets).flatten := by
  induction count with
  | zero => rfl
  | succ count ih =>
      rw [sequence_nestedOptionals_succ, sets, sets_sequence_cons, ih]
      simp [Quantifier.copies, List.replicate_succ]

theorem nullable_nestedOptionals : (sequence (nestedOptionals body greedy count)).nullable := by
  cases count <;> rfl

theorem fullCost_nestedOptionals : (sequence (nestedOptionals body greedy count)).fullCost =
    count * (body.fullCost + 1) := by
  induction count with
  | zero => exact (Nat.zero_mul _).symm
  | succ count ih =>
      rw [sequence_nestedOptionals_succ, fullCost, fullCost_sequence_cons, ih, Nat.succ_mul,
        Quantifier.fullCost]
      dsimp only
      omega

/-- Optional rounds are copies inside one another: all of them leave to the same place, which is
behind the innermost one. -/
theorem code_nestedOptionals : (sequence (nestedOptionals body greedy count)).code here =
    optionalRounds (fun place => body.code place) (·.after body) greedy
      (here.pc + count * (body.codeSize + 1)) count here := by
  induction count generalizing here with
  | zero => rfl
  | succ count ih =>
      have hinner : ((here.skip 1).after body).pc + count * (body.codeSize + 1) =
          here.pc + (count + 1) * (body.codeSize + 1) := by
        simp only [Place.skip, Place.after, Nat.succ_mul]
        omega
      have houter : here.pc + (body.codeSize + count * (body.codeSize + 1) + 1) =
          here.pc + (count + 1) * (body.codeSize + 1) := by
        rw [Nat.succ_mul]
        omega
      rw [sequence_nestedOptionals_succ, code]
      simp only [repetition, behindRounds, requiredRounds, optionalRounds, Nat.sub_zero,
        Nat.one_mul, pc_round, codeSize_sequence_cons, codeSize_nestedOptionals,
        code_sequence_cons, ih, hinner, houter, List.nil_append, List.append_nil,
        List.cons_append]

end Copies

/-- A counted repetition is laid out as it is written out. -/
theorem sameLayout_writtenOut (body : Tree) (min max : Nat) (greedy : Bool) :
    SameLayout (sequence [rep body ⟨min, some max, greedy⟩])
      (sequence (writtenOut body min max greedy)) := by
  constructor
  · rw [writtenOut, codeSize_sequence_append, codeSize_copies, codeSize_nestedOptionals]
    rfl
  · rw [writtenOut, loopCount_sequence_append, loopCount_copies, loopCount_nestedOptionals]
    simp [sequence, loopCount, Quantifier.copies, Nat.add_mul]
  · rw [writtenOut, sets_sequence_append, sets_copies, sets_nestedOptionals]
    rw [← List.flatten_append, ← List.replicate_add]
    rfl
  · rw [writtenOut, nullable_sequence_append, nullable_copies, nullable_nestedOptionals,
      Bool.and_true]
    rfl
  · rw [writtenOut, fullCost_sequence_append, fullCost_copies, fullCost_nestedOptionals]
    rfl
  · funext here
    rw [writtenOut, code_sequence_append, code_copies, after_copies, code_nestedOptionals]
    simp only [sequence, code, repetition, pc_round]

end Tree

end RegexSearch
