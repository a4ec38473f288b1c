import RegexSearch.Proofs.Machine.Stages

/-!
Attempts with different limits. A run that halts takes one number of steps, which depends on
nothing but the state that it begins in. An attempt that may take so many steps gives the answer
of the run, whatever else it may do, and an attempt that may not is cut off. So an answer under
one limit is the answer under every limit that allows more.
-/

namespace RegexSearch

namespace StepLimit

/-- Whether an attempt may take so many steps. -/
def Allows : StepLimit → Nat → Prop
  | unlimited, _ => True
  | atMost most, steps => steps ≤ most

/-- A limit is no larger than another one that allows all that it allows. -/
instance : LE StepLimit where
  le first second := ∀ steps, first.Allows steps → second.Allows steps

theorem allows_ofNat_iff {limit steps : Nat} (hlimit : 0 < limit) :
    (ofNat limit).Allows steps ↔ steps ≤ limit := by
  obtain ⟨most, rfl⟩ := Nat.exists_eq_succ_of_ne_zero hlimit.ne'
  exact Iff.rfl

/-- Among the limits given as numbers, zero is the largest one. -/
theorem ofNat_le_ofNat {first second : Nat} (h : second = 0 ∨ 0 < first ∧ first ≤ second) :
    ofNat first ≤ ofNat second := by
  intro steps hsteps
  rcases h with rfl | ⟨hfirst, hle⟩
  · trivial
  · rw [allows_ofNat_iff hfirst] at hsteps
    rw [allows_ofNat_iff (Nat.lt_of_lt_of_le hfirst hle)]
    exact Nat.le_trans hsteps hle

end StepLimit

namespace Machine

variable {machine : Machine} {config : Config} {answer : Option Match} {steps left : Nat}

/-- A run that halts with steps to spare has taken the others. -/
theorem leads_of_run (h : machine.run steps config = .halted answer left) :
    ∃ taken, taken + left = steps ∧ machine.Leads taken config (.halts answer) := by
  induction steps generalizing config with
  | zero => cases h
  | succ steps ih =>
      have hfirst := machine.leads_step config
      rw [run] at h
      cases hstep : machine.step config with
      | halts reached =>
          rw [hstep] at h hfirst
          cases h
          exact ⟨1, Nat.add_comm 1 left, hfirst⟩
      | continues next =>
          rw [hstep] at h hfirst
          obtain ⟨taken, hsum, htaken⟩ := ih h
          refine ⟨1 + taken, by omega, ?_⟩
          exact hfirst.trans htaken

theorem Leads.pos {taken : Nat} (h : machine.Leads taken config (.halts answer)) : 0 < taken := by
  apply Nat.pos_of_ne_zero
  rintro rfl
  have hrun := h 0
  cases hrun

/-- A run that is given fewer steps than it takes comes to a pause. -/
theorem Leads.exists_paused {taken : Nat} (h : machine.Leads taken config (.halts answer))
    {fewer : Nat} (hlt : fewer < taken) :
    ∃ stopped, machine.run fewer config = .paused stopped := by
  cases hrun : machine.run fewer config with
  | paused stopped => exact ⟨stopped, rfl⟩
  | halted reached left =>
      -- All steps that it is given beyond its end would be left over, and none are.
      have hmore := run_add_of_halted hrun (taken - fewer)
      have hall := h 0
      rw [Nat.add_sub_cancel' hlt.le] at hmore
      rw [Nat.add_zero, hmore] at hall
      have hleft : left + (taken - fewer) = 0 := (Progress.halted.inj hall).2
      omega

/-- What an answer under a limit comes from. -/
theorem exists_halted_of_answer {start : Nat} (hstart : start ≤ machine.text.size)
    {limit : StepLimit} (h : machine.answer limit (machine.initial start) = .ok answer) :
    ∃ steps left, machine.run steps (machine.initial start) = .halted answer left := by
  cases limit with
  | unlimited =>
      rw [answer_unlimited_iff hstart] at h
      exact halts_iff_yields.mpr h
  | atMost most =>
      rw [Machine.answer] at h
      cases hrun : machine.run most (machine.initial start) with
      | halted reached left =>
          rw [hrun] at h
          cases h
          exact ⟨most, left, hrun⟩
      | paused stopped =>
          rw [hrun] at h
          cases h

/-- How many steps an attempt may take until it is cut off, if it has a limit or not. -/
def budget (machine : Machine) : StepLimit → Nat
  | .atMost steps => steps
  | .unlimited => (2 ^ (machine.threadBound + 3) - 1) * 1

theorem answer_eq_ok_iff {limit : StepLimit} :
    machine.answer limit config = .ok answer ↔
      ∃ left, machine.run (machine.budget limit) config = .halted answer left := by
  cases limit with
  | atMost steps =>
      rw [Machine.answer, budget]
      cases machine.run steps config with
      | halted reached left => simp
      | paused stopped => simp
  | unlimited =>
      rw [Machine.answer, runStages_eq, budget]
      cases machine.run ((2 ^ (machine.threadBound + 3) - 1) * 1) config with
      | halted reached left => simp
      | paused stopped => simp

end Machine

variable {program : Program} {text : Text} {anchoredEnd : Bool} {start : Nat}
  {answer : Option Match}

/-- An attempt fails only because its steps are used up. -/
theorem eq_timeout_of_attempt {limit : StepLimit} {error : Error}
    (h : attempt program text limit anchoredEnd start = .error error) : error = .timeout := by
  unfold attempt Machine.answer at h
  cases limit with
  | unlimited =>
      dsimp only at h
      split at h <;> cases h
      rfl
  | atMost most =>
      dsimp only at h
      split at h <;> cases h
      rfl

/-- There is one number of steps that an attempt takes under every limit that allows so many; under
every other limit it is cut off. -/
theorem exists_steps_of_halted (hstart : start ≤ text.size) {steps left : Nat}
    (hrun : (⟨program, text, anchoredEnd⟩ : Machine).run steps
      (Machine.initial ⟨program, text, anchoredEnd⟩ start) = .halted answer left) :
    ∃ taken, 0 < taken ∧ taken + left = steps ∧
      (∀ limit : StepLimit, limit.Allows taken →
        attempt program text limit anchoredEnd start = .ok answer) ∧
      ∀ limit : StepLimit, ¬ limit.Allows taken →
        attempt program text limit anchoredEnd start = .error .timeout := by
  obtain ⟨taken, hsum, hleads⟩ := Machine.leads_of_run hrun
  have hsize : start ≤ (⟨program, text, anchoredEnd⟩ : Machine).text.size := hstart
  refine ⟨taken, hleads.pos, hsum, ?_, ?_⟩
  · intro limit hallows
    cases limit with
    | unlimited =>
        apply (Machine.answer_unlimited_iff hsize).mpr
        exact Machine.halts_iff_yields.mp ⟨steps, left, hrun⟩
    | atMost most =>
        obtain ⟨spare, rfl⟩ := Nat.exists_eq_add_of_le hallows
        simp only [attempt, Machine.answer, hleads spare]
  · intro limit hallows
    cases limit with
    | unlimited => exact absurd trivial hallows
    | atMost most =>
        obtain ⟨stopped, hpaused⟩ := hleads.exists_paused (Nat.lt_of_not_le hallows)
        simp only [attempt, Machine.answer, hpaused]

/-- An answer is the same under every larger limit. -/
theorem attempt_mono {first second : StepLimit} (hle : first ≤ second) (hstart : start ≤ text.size)
    (h : attempt program text first anchoredEnd start = .ok answer) :
    attempt program text second anchoredEnd start = .ok answer := by
  have hsize : start ≤ (⟨program, text, anchoredEnd⟩ : Machine).text.size := hstart
  obtain ⟨steps, left, hrun⟩ := Machine.exists_halted_of_answer hsize h
  obtain ⟨taken, -, -, hanswer, hcut⟩ := exists_steps_of_halted hstart hrun
  by_cases hallows : first.Allows taken
  · exact hanswer second (hle taken hallows)
  · have htimeout := hcut first hallows
    rw [h] at htimeout
    cases htimeout

theorem stepsWithin?_eq_some_iff {bound steps : Nat} :
    stepsWithin? bound program text anchoredEnd start = some (steps, answer) ↔
      ∃ left, (⟨program, text, anchoredEnd⟩ : Machine).run bound
        (Machine.initial ⟨program, text, anchoredEnd⟩ start) = .halted answer left ∧
          bound - left = steps := by
  simp only [stepsWithin?]
  cases (⟨program, text, anchoredEnd⟩ : Machine).run bound
      (Machine.initial ⟨program, text, anchoredEnd⟩ start) with
  | halted reached left =>
      simp only [Option.some.injEq, Prod.mk.injEq, Progress.halted.injEq]
      constructor
      · rintro ⟨hsteps, rfl⟩
        exact ⟨left, ⟨rfl, rfl⟩, hsteps⟩
      · rintro ⟨_, ⟨rfl, rfl⟩, hsteps⟩
        exact ⟨hsteps, rfl⟩
  | paused stopped => simp

/-- Programs whose runs halt alike give the same answers after the same numbers of steps. -/
theorem attempt_eq_of_run_iff {program' : Program}
    (hbound : (⟨program', text, anchoredEnd⟩ : Machine).threadBound =
      (⟨program, text, anchoredEnd⟩ : Machine).threadBound)
    (h : ∀ steps answer left,
      (⟨program', text, anchoredEnd⟩ : Machine).run steps
          (Machine.initial ⟨program', text, anchoredEnd⟩ start) = .halted answer left ↔
        (⟨program, text, anchoredEnd⟩ : Machine).run steps
          (Machine.initial ⟨program, text, anchoredEnd⟩ start) = .halted answer left) :
    (∀ limit, attempt program' text limit anchoredEnd start =
      attempt program text limit anchoredEnd start) ∧
    ∀ bound, stepsWithin? bound program' text anchoredEnd start =
      stepsWithin? bound program text anchoredEnd start := by
  constructor
  · intro limit
    have hok (reached : Option Match) :
        attempt program' text limit anchoredEnd start = .ok reached ↔
          attempt program text limit anchoredEnd start = .ok reached := by
      have hbudget : (⟨program', text, anchoredEnd⟩ : Machine).budget limit =
          (⟨program, text, anchoredEnd⟩ : Machine).budget limit := by
        cases limit with
        | atMost steps => rfl
        | unlimited => rw [Machine.budget, Machine.budget, hbound]
      simp only [attempt, Machine.answer_eq_ok_iff, h, hbudget]
    cases hattempt : attempt program text limit anchoredEnd start with
    | ok reached => exact (hok reached).mpr hattempt
    | error error =>
        cases hattempt' : attempt program' text limit anchoredEnd start with
        | ok reached =>
            rw [(hok reached).mp hattempt'] at hattempt
            cases hattempt
        | error error' =>
            rw [eq_timeout_of_attempt hattempt, eq_timeout_of_attempt hattempt']
  · intro bound
    apply Option.ext
    rintro ⟨steps, reached⟩
    simp only [stepsWithin?_eq_some_iff, h]

end RegexSearch
