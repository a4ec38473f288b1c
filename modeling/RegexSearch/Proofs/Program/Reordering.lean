import RegexSearch.Engine
import RegexSearch.Proofs.Enumeration
import RegexSearch.Proofs.Program.Derivability

/-!
Priorities decide which match is found, never whether one is found. Trees that differ only in which
repetitions are greedy and in the order of alternatives have the same outcomes, each with the same
captures, in another order. A round of a repetition that consumes nothing is given up or kept
whatever is tried first, and a backreference reads the captures of its own outcome; so what has been
tried before makes no difference. As an attempt finds something just if there is an outcome that
counts, their programs succeed at the same places.
-/

namespace RegexSearch

namespace Tree

/-- Alternatives in a row, each of which is preferred to those behind it. -/
def anyOf (first : Tree) : List Tree → Tree
  | [] => first
  | next :: rest => .alt first (anyOf next rest)

/-- Trees that differ in priorities only. A repetition may be greedy in one of them and lazy in the
other, and the alternatives in a row may be permuted; groups keep their numbers. -/
inductive Reordered : Tree → Tree → Prop
  | atom (position : Nat) (a : Atom) : Reordered (.atom position a) (.atom position a)
  | group (position : Nat) (index : Option Nat) {body body' : Tree} (h : Reordered body body') :
      Reordered (.group position index body) (.group position index body')
  | cat {first rest first' rest' : Tree} (hfirst : Reordered first first')
      (hrest : Reordered rest rest') : Reordered (.cat first rest) (.cat first' rest')
  | alt {first rest first' rest' : Tree} (hfirst : Reordered first first')
      (hrest : Reordered rest rest') : Reordered (.alt first rest) (.alt first' rest')
  | rep {body body' : Tree} (h : Reordered body body') (min : Nat) (max : Option Nat)
      (greedy greedy' : Bool) :
      Reordered (.rep body ⟨min, max, greedy⟩) (.rep body' ⟨min, max, greedy'⟩)
  | permuted {tree first first' : Tree} {rest rest' : List Tree}
      (h : Reordered tree (anyOf first rest))
      (hperm : (first :: rest).Perm (first' :: rest')) : Reordered tree (anyOf first' rest')

theorem Reordered.refl (tree : Tree) : tree.Reordered tree := by
  induction tree with
  | atom position a => exact .atom position a
  | group position index body ih => exact .group position index ih
  | cat first rest ihf ihr => exact .cat ihf ihr
  | alt first rest ihf ihr => exact .alt ihf ihr
  | rep body times ih => exact .rep ih times.min times.max times.greedy times.greedy

/-! ### Alternatives in a row -/

theorem mem_groups_anyOf {index : Nat} {first : Tree} {rest : List Tree} :
    index ∈ (anyOf first rest).groups ↔ ∃ branch ∈ first :: rest, index ∈ branch.groups := by
  induction rest generalizing first with
  | nil => simp [anyOf]
  | cons next rest ih => simp [anyOf, groups, ih]

theorem grouped_anyOf {count : Nat} {first : Tree} {rest : List Tree} :
    (anyOf first rest).Grouped count ↔ ∀ branch ∈ first :: rest, branch.Grouped count := by
  induction rest generalizing first with
  | nil => simp [anyOf]
  | cons next rest ih => simp [anyOf, Grouped, ih]

theorem mem_outcomes_anyOf {text : Text} {here there : Outcome} {first : Tree} {rest : List Tree} :
    there ∈ (anyOf first rest).outcomes text here ↔
      ∃ branch ∈ first :: rest, there ∈ branch.outcomes text here := by
  induction rest generalizing first with
  | nil => simp [anyOf]
  | cons next rest ih => simp [anyOf, outcomes, ih]

end Tree

/-! ### Repetitions of the same rounds -/

section Repetition

variable {round round' : Outcome → List Outcome}
  (hround : ∀ here there, there ∈ round here ↔ there ∈ round' here)

include hround

theorem mem_rounds_congr {count : Nat} {here there : Outcome} :
    there ∈ rounds round count here ↔ there ∈ rounds round' count here := by
  induction count generalizing here with
  | zero => rfl
  | succ count ih => simp only [rounds, List.mem_flatMap, hround, ih]

theorem mem_optionals_congr (greedy greedy' : Bool) {count : Nat} {here there : Outcome} :
    there ∈ optionals round greedy count here ↔ there ∈ optionals round' greedy' count here := by
  induction count generalizing here with
  | zero => rfl
  | succ count ih => simp only [optionals, mem_prefer, List.mem_flatMap, hround, ih]

theorem mem_anyRounds_congr (greedy greedy' : Bool) {left : Nat} {here there : Outcome} :
    there ∈ anyRounds round greedy left here ↔ there ∈ anyRounds round' greedy' left here := by
  induction left generalizing here with
  | zero => rfl
  | succ left ih =>
      have hfurther (middle : Outcome) :
          (there ∈ if here.offset < middle.offset then anyRounds round greedy left middle else []) ↔
            there ∈ if here.offset < middle.offset then anyRounds round' greedy' left middle
              else [] := by
        split
        · exact ih
        · rfl
      simp only [anyRounds, mem_prefer, List.mem_flatMap, hround, hfurther]

theorem mem_someRounds_congr (greedy greedy' : Bool) {left : Nat} {here there : Outcome} :
    there ∈ someRounds round greedy left here ↔ there ∈ someRounds round' greedy' left here := by
  induction left generalizing here with
  | zero => exact hround here there
  | succ left ih =>
      have hfurther (middle : Outcome) :
          (there ∈ if here.offset < middle.offset
            then prefer greedy (someRounds round greedy left middle) middle else [middle]) ↔
            there ∈ if here.offset < middle.offset
              then prefer greedy' (someRounds round' greedy' left middle) middle else [middle] := by
        split
        · simp only [mem_prefer, ih]
        · rfl
      simp only [someRounds, List.mem_flatMap, hround, hfurther]

/-- Whether a repetition is greedy makes no difference for what its outcomes are. -/
theorem Quantifier.mem_outcomes_congr (min : Nat) (max : Option Nat) (greedy greedy' : Bool)
    {text : Text} {here there : Outcome} :
    there ∈ outcomes round ⟨min, max, greedy⟩ text here ↔
      there ∈ outcomes round' ⟨min, max, greedy'⟩ text here := by
  cases max with
  | some max =>
      simp only [outcomes, List.mem_flatMap, mem_rounds_congr hround,
        mem_optionals_congr hround greedy greedy']
  | none =>
      cases min with
      | zero => exact mem_anyRounds_congr hround greedy greedy'
      | succ before =>
          simp only [outcomes, List.mem_flatMap, mem_rounds_congr hround,
            mem_someRounds_congr hround greedy greedy']

end Repetition

/-! ### Reordered trees -/

namespace Tree.Reordered

variable {tree tree' : Tree}

theorem mem_groups_iff (h : tree.Reordered tree') {index : Nat} :
    index ∈ tree.groups ↔ index ∈ tree'.groups := by
  induction h with
  | atom position a => rfl
  | group position own h ih => cases own <;> simp only [groups, List.mem_cons, ih]
  | cat hfirst hrest ihf ihr => simp only [groups, List.mem_append, ihf, ihr]
  | alt hfirst hrest ihf ihr => simp only [groups, List.mem_append, ihf, ihr]
  | rep h min max greedy greedy' ih => exact ih
  | permuted h hperm ih => simp only [ih, mem_groups_anyOf, hperm.mem_iff]

theorem grouped (h : tree.Reordered tree') {count : Nat} (hgrouped : tree.Grouped count) :
    tree'.Grouped count := by
  induction h with
  | atom position a => trivial
  | group position own h ih =>
      cases own with
      | none => exact ih hgrouped
      | some index =>
          obtain ⟨hpositive, hle, hfresh, hbody⟩ := hgrouped
          exact ⟨hpositive, hle, mt h.mem_groups_iff.mpr hfresh, ih hbody⟩
  | cat hfirst hrest ihf ihr => exact ⟨ihf hgrouped.1, ihr hgrouped.2⟩
  | alt hfirst hrest ihf ihr => exact ⟨ihf hgrouped.1, ihr hgrouped.2⟩
  | rep h min max greedy greedy' ih => exact ih hgrouped
  | permuted h hperm ih =>
      have hbranches := grouped_anyOf.mp (ih hgrouped)
      apply grouped_anyOf.mpr
      intro branch hbranch
      exact hbranches branch (hperm.mem_iff.mpr hbranch)

/-- Reordered trees have the same outcomes, each with the same captures. -/
theorem mem_outcomes_iff (h : tree.Reordered tree') {text : Text} {here there : Outcome} :
    there ∈ tree.outcomes text here ↔ there ∈ tree'.outcomes text here := by
  induction h generalizing here there with
  | atom position a => rfl
  | group position own h ih =>
      cases own with
      | none => exact ih
      | some index => simp only [outcomes, List.mem_map, ih]
  | cat hfirst hrest ihf ihr => simp only [outcomes, List.mem_flatMap, ihf, ihr]
  | alt hfirst hrest ihf ihr => simp only [outcomes, List.mem_append, ihf, ihr]
  | rep h min max greedy greedy' ih =>
      exact Quantifier.mem_outcomes_congr (fun _ _ => ih) min max greedy greedy'
  | permuted h hperm ih => simp only [ih, mem_outcomes_anyOf, hperm.mem_iff]

/-- Attempts with the programs of reordered trees find something at the same places. -/
theorem exists_attempt_iff (h : tree.Reordered tree') {groups : Nat}
    (hgrouped : tree.Grouped groups) {text : Text} (anchoredEnd : Bool) {start : Nat}
    (hstart : start ≤ text.size) :
    (∃ found, attempt (.ofTree tree groups) text .unlimited anchoredEnd start =
        .ok (some found)) ↔
      ∃ found, attempt (.ofTree tree' groups) text .unlimited anchoredEnd start =
        .ok (some found) := by
  rw [exists_attempt_ofTree_iff hgrouped anchoredEnd hstart,
    exists_attempt_ofTree_iff (h.grouped hgrouped) anchoredEnd hstart]
  simp only [h.mem_outcomes_iff]

end Tree.Reordered

/-- Without a limit, there is a match in a text just if an attempt at an offset before its end finds
one. -/
theorem exists_verdict_ofTree {tree : Tree} {groups : Nat} (hgrouped : tree.Grouped groups)
    (text : Text) :
    ∃ verdict, Search.hasMatch ⟨.ofTree tree groups, text, .unlimited⟩ = .ok verdict ∧
      (verdict = true ↔ ∃ start < text.size, ∃ found,
        attempt (.ofTree tree groups) text .unlimited false start = .ok (some found)) := by
  let search : Search := ⟨.ofTree tree groups, text, .unlimited⟩
  have hsearch : search.FromTree := ⟨tree, groups, hgrouped, rfl⟩
  unfold Search.hasMatch
  rcases hsearch.findFirst_cases with ⟨found, hfound, hfirst⟩ | ⟨hnone, hbarren⟩ |
    ⟨offset, -, -, hoffset, htimeout⟩
  · refine ⟨true, by rw [hfound]; rfl, ?_⟩
    simp only [true_iff]
    exact ⟨found.span.start, hfirst.start_lt, found, hfirst.attempted⟩
  · refine ⟨false, by rw [hnone]; rfl, ?_⟩
    simp only [Bool.false_eq_true, false_iff]
    rintro ⟨start, hstart, found, hattempt⟩
    cases hattempt.symm.trans (hbarren start (Nat.zero_le _) hstart)
  · have hanswer := attempt_ofTree hgrouped false (Nat.le_of_lt hoffset)
    cases hanswer.symm.trans htimeout

/-- Priorities decide which match is found, never whether one is found. If a tree that has been read
and a reordered one become programs, then without a limit their attempts at any offset have answers,
and both find a match or neither does; so one of them has a match in a text just if the other one
has. -/
theorem attempts_agree_of_reordered {maxUnroll maxUnroll' : Nat} {pattern : Bytes}
    {tree tree' : Tree} {program program' : Program}
    (hread : (readPattern pattern).result = .ok tree) (hreordered : tree.Reordered tree')
    (hlower : Program.lower maxUnroll tree (readPattern pattern).groups = .ok program)
    (hlower' : Program.lower maxUnroll' tree' (readPattern pattern).groups = .ok program')
    (text : Text) :
    (∀ anchoredEnd start, start ≤ text.size →
      (∃ answer answer', attempt program text .unlimited anchoredEnd start = .ok answer ∧
        attempt program' text .unlimited anchoredEnd start = .ok answer') ∧
      ((∃ found, attempt program text .unlimited anchoredEnd start = .ok (some found)) ↔
        ∃ found, attempt program' text .unlimited anchoredEnd start = .ok (some found))) ∧
    ∃ verdict, Search.hasMatch ⟨program, text, .unlimited⟩ = .ok verdict ∧
      Search.hasMatch ⟨program', text, .unlimited⟩ = .ok verdict := by
  have hgrouped := grouped_of_readPattern hread
  have hgrouped' := hreordered.grouped hgrouped
  rw [ofTree_of_lower hlower, ofTree_of_lower hlower']
  constructor
  · intro anchoredEnd start hstart
    refine ⟨⟨_, _, attempt_ofTree hgrouped anchoredEnd hstart,
      attempt_ofTree hgrouped' anchoredEnd hstart⟩, ?_⟩
    exact hreordered.exists_attempt_iff hgrouped anchoredEnd hstart
  · obtain ⟨verdict, hverdict, hiff⟩ := exists_verdict_ofTree hgrouped text
    obtain ⟨verdict', hverdict', hiff'⟩ := exists_verdict_ofTree hgrouped' text
    have hsame : verdict = verdict' := by
      rw [Bool.eq_iff_iff, hiff, hiff']
      apply exists_congr
      intro start
      apply and_congr_right
      intro hstart
      exact hreordered.exists_attempt_iff hgrouped false (Nat.le_of_lt hstart)
    subst hsame
    exact ⟨verdict, hverdict, hverdict'⟩

/-- On the text `aac`, the pattern `(a*?)(?:b|\1c)` tries an empty capture first; the reordered one
tries to capture both bytes first, and the backreference before `b`. Both have to come back to a
capture of one byte, and find nothing behind the first byte. -/
theorem attempts_agree_of_reordered_at_backreference :
    let letters (greedy : Bool) := Tree.group 0 (some 1)
      (.rep (.atom 1 (.byte 97)) ⟨0, none, greedy⟩)
    let other := Tree.atom 8 (.byte 98)
    let copy := Tree.cat (.atom 10 (.backref 1)) (.atom 12 (.byte 99))
    let program := Program.ofTree (.cat (letters false) (.group 5 none (.alt other copy))) 1
    let program' := Program.ofTree (.cat (letters true) (.group 5 none (.alt copy other))) 1
    (compilePattern 2000 (ascii "(a*?)(?:b|\\1c)")).program = .ok program ∧
      (∃ found, attempt program' #[97, 97, 99] .unlimited true 0 = .ok (some found)) ∧
      ¬ ∃ found, attempt program' #[97, 97, 99] .unlimited true 1 = .ok (some found) := by
  intro letters other copy program program'
  let tree := Tree.cat (letters false) (.group 5 none (.alt other copy))
  let tree' := Tree.cat (letters true) (.group 5 none (.alt copy other))
  have hread : (readPattern (ascii "(a*?)(?:b|\\1c)")).result = .ok tree := rfl
  have hletters : (letters false).Reordered (letters true) :=
    .group 0 (some 1) (.rep (.atom 1 (.byte 97)) 0 none false true)
  have hbranches : (Tree.alt other copy).Reordered (.alt copy other) :=
    .permuted (.refl (Tree.anyOf other [copy])) (.swap copy other [])
  have hreordered : tree.Reordered tree' := .cat hletters (.group 5 none hbranches)
  have hlower : Program.lower 2000 tree (readPattern (ascii "(a*?)(?:b|\\1c)")).groups =
      .ok program := rfl
  have hlower' : Program.lower 2000 tree' (readPattern (ascii "(a*?)(?:b|\\1c)")).groups =
      .ok program' := rfl
  obtain ⟨hattempts, -⟩ :=
    attempts_agree_of_reordered hread hreordered hlower hlower' #[97, 97, 99]
  have hgrouped := grouped_of_readPattern hread
  have hzero : 0 ≤ Array.size (#[97, 97, 99] : Text) := by decide
  have hone : 1 ≤ Array.size (#[97, 97, 99] : Text) := by decide
  have hfound : attempt program #[97, 97, 99] .unlimited true 0 =
      .ok (some ⟨⟨0, 3⟩, [some ⟨0, 3⟩, some ⟨0, 1⟩]⟩) :=
    (attempt_ofTree hgrouped true hzero).trans rfl
  have hnone : attempt program #[97, 97, 99] .unlimited true 1 = .ok none :=
    (attempt_ofTree hgrouped true hone).trans rfl
  refine ⟨rfl, ?_, ?_⟩
  · exact (hattempts true 0 hzero).2.mp ⟨_, hfound⟩
  · rw [← (hattempts true 1 hone).2, hnone]
    rintro ⟨found, hfound⟩
    cases hfound

end RegexSearch
