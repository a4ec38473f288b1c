import Mathlib.Algebra.Ring.Nat
import RegexSearch.Machine.Run

/-!
How runs with different numbers of steps are related. A run that has ended stays as it is when it
is given more steps, a run that has paused goes on where it stopped, and the stages of an attempt
without limit are one long run.
-/

namespace RegexSearch.Machine

variable {machine : Machine}

/-- Further steps do not change an answer, and all of them are left. -/
theorem run_add_of_halted {steps left : Nat} {config : Config} {answer : Option Match}
    (h : machine.run steps config = .halted answer left) (more : Nat) :
    machine.run (steps + more) config = .halted answer (left + more) := by
  induction steps generalizing config with
  | zero => simp [run] at h
  | succ steps ih =>
    rw [Nat.add_right_comm, run]
    rw [run] at h
    cases hstep : machine.step config with
    | halts reached =>
      simp only [hstep, Progress.halted.injEq] at h ⊢
      exact ⟨h.1, by omega⟩
    | continues next =>
      simp only [hstep] at h ⊢
      exact ih h

/-- Further steps are taken from the state in which a run has paused. -/
theorem run_add_of_paused {steps : Nat} {config stopped : Config}
    (h : machine.run steps config = .paused stopped) (more : Nat) :
    machine.run (steps + more) config = machine.run more stopped := by
  induction steps generalizing config with
  | zero =>
    simp only [run, Progress.paused.injEq] at h
    simp [h]
  | succ steps ih =>
    rw [Nat.add_right_comm, run]
    rw [run] at h
    cases hstep : machine.step config with
    | halts reached => simp [hstep] at h
    | continues next =>
      simp only [hstep] at h ⊢
      exact ih h

/-- Stages of doubled length give the answer of one run with as many steps as all of them. -/
theorem runStages_eq (stages steps : Nat) (config : Config) :
    machine.runStages stages steps config =
      match machine.run ((2 ^ stages - 1) * steps) config with
      | .halted answer _ => some answer
      | .paused _ => none := by
  induction stages generalizing steps config with
  | zero => simp [runStages, run]
  | succ stages ih =>
    have hsum : (2 ^ (stages + 1) - 1) * steps = steps + (2 ^ stages - 1) * (2 * steps) := by
      obtain ⟨n, hn⟩ : ∃ n, 2 ^ stages = n + 1 :=
        ⟨2 ^ stages - 1, by have := Nat.two_pow_pos stages; omega⟩
      have hdouble : (n + 1) * 2 - 1 = 1 + n * 2 := by omega
      rw [Nat.pow_succ, hn, hdouble, Nat.add_sub_cancel, Nat.add_mul, Nat.one_mul, Nat.mul_assoc]
    rw [runStages, hsum]
    cases hrun : machine.run steps config with
    | halted answer left => simp only [run_add_of_halted hrun]
    | paused stopped => simp only [run_add_of_paused hrun, ih]

end RegexSearch.Machine
