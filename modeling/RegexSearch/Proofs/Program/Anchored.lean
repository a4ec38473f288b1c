import RegexSearch.Proofs.Machine.Limit
import RegexSearch.Proofs.Program.Attempt

/-!
Programs that begin with a test for the beginning of the text. Their first instruction opens the
whole match and the second one is the test, so an attempt anywhere else has failed after two steps;
and as every attempt takes two steps, a limit that cuts this one off cuts off all.
-/

namespace RegexSearch

variable {program : Program} {text : Text} {anchoredEnd : Bool} {start : Nat} {limit : StepLimit}

theorem code_zero_ofTree (tree : Tree) (groups : Nat) :
    (Program.ofTree tree groups).code[0]? = some (.openGroup 0) := by
  simp [Program.ofTree, Program.wrap]

theorem Program.code_one_of_anchoredAtBegin (h : program.anchoredAtBegin = true) :
    program.code[1]? = some (.assert .textBegin) :=
  eq_of_beq h

namespace Machine

variable {machine : Machine}

/-- The first step opens the whole match. -/
theorem step_initial (hopen : machine.program.code[0]? = some (.openGroup 0)) (start : Nat) :
    machine.step (machine.initial start) =
      .continues (.running
        ((Thread.start machine.program start).next.setOpened 0 (some start))
        [.opened 0 ((Thread.start machine.program start).openedAt 0)]) := by
  simp only [initial, step, Thread.start, hopen, effect]
  rfl

theorem run_one_initial (hopen : machine.program.code[0]? = some (.openGroup 0)) (start : Nat) :
    ∃ stopped, machine.run 1 (machine.initial start) = .paused stopped := by
  rw [run, step_initial hopen]
  exact ⟨_, rfl⟩

/-- An anchored program fails with its second step unless it begins at the beginning. -/
theorem run_anchored (hopen : machine.program.code[0]? = some (.openGroup 0))
    (hanchored : machine.program.anchoredAtBegin = true) (hstart : 0 < start) :
    machine.run 2 (machine.initial start) = .halted none 0 := by
  let opened := (Thread.start machine.program start).next.setOpened 0 (some start)
  have htest : machine.program.code[opened.pc]? = some (.assert .textBegin) :=
    Program.code_one_of_anchoredAtBegin hanchored
  have hrefused : machine.effect opened (.assert .textBegin) = .fail := by
    have hholds : Anchor.textBegin.holds machine.text opened.offset = false :=
      beq_false_of_ne hstart.ne'
    simp only [effect, hholds]
    rfl
  rw [run, step_initial hopen]
  dsimp only
  rw [run, step, htest]
  dsimp only
  rw [hrefused]
  rfl

end Machine

/-- Under a limit that allows two steps, an anchored program finds nothing behind the beginning. -/
theorem attempt_anchored (hopen : program.code[0]? = some (.openGroup 0))
    (hanchored : program.anchoredAtBegin = true) (hpositive : 0 < start)
    (hstart : start ≤ text.size) (hlimit : limit.Allows 2) :
    attempt program text limit anchoredEnd start = .ok none := by
  let machine : Machine := ⟨program, text, anchoredEnd⟩
  have hrun : machine.run 2 (machine.initial start) = .halted none 0 :=
    Machine.run_anchored hopen hanchored hpositive
  obtain ⟨taken, -, hsum, hanswer, -⟩ := exists_steps_of_halted hstart hrun
  have htwo : taken = 2 := by omega
  apply hanswer
  rwa [htwo]

/-- An attempt that has an answer has taken two steps at least. -/
theorem allows_two_of_attempt (hopen : program.code[0]? = some (.openGroup 0))
    {answer : Option Match}
    (h : attempt program text limit anchoredEnd start = .ok answer) : limit.Allows 2 := by
  let machine : Machine := ⟨program, text, anchoredEnd⟩
  cases limit with
  | unlimited => trivial
  | atMost most =>
      apply Nat.le_of_not_lt
      intro hless
      have hpaused : ∃ stopped, machine.run most (machine.initial start) = .paused stopped := by
        obtain rfl | rfl : most = 0 ∨ most = 1 := by omega
        · exact ⟨_, rfl⟩
        · exact Machine.run_one_initial hopen start
      obtain ⟨stopped, hstopped⟩ := hpaused
      change machine.answer (.atMost most) (machine.initial start) = _ at h
      rw [Machine.answer, hstopped] at h
      cases h

end RegexSearch
