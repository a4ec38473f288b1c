import RegexSearch.Proofs.Machine.Limit

/-!
The machine with and without an anchored end. The two differ in one point: where a thread has come
to the end of the program before the end of the text, the one accepts and the other takes up the
next branch. Up to the first such point they are in the same state after each step, so an answer
that does not come from such a point is common to both, and the machine that accepts more is never
the later one to find a match.

Which threads a run can meet is told by properties that a thread hands on to its branches; such a
property holds of every thread of a run if it holds of those that the run begins with.
-/

namespace RegexSearch.Machine

variable {machine : Machine}

/-! ### Properties of all threads of a run -/

/-- Whether a thread hands a property on to all of its branches. -/
def Inherited (machine : Machine) (P : Thread → Prop) : Prop :=
  ∀ thread next, P thread → machine.branches thread = some next → ∀ branch ∈ next, P branch

section Inherited

variable {P Q : Thread → Prop}

/-- It is enough to look at the instructions that a thread survives. -/
theorem inherited_of_effect
    (h : ∀ {thread next instr records}, P thread →
      machine.program.code[thread.pc]? = some instr →
      machine.effect thread instr = .proceed next records →
      ∀ branch ∈ next :: pending next records, P branch) : machine.Inherited P := by
  intro thread next hthread hbranches branch hmem
  obtain ⟨instr, continued, records, hinstr, heffect, hbranch⟩ :=
    exists_effect_of_branch hbranches hmem
  exact h hthread hinstr heffect branch hbranch

theorem inherited_inside : machine.Inherited (·.Inside machine) :=
  inherited_of_effect fun hthread hinstr heffect => effect_inside hinstr hthread heffect

theorem Inherited.and (hP : machine.Inherited P) (hQ : machine.Inherited Q) :
    machine.Inherited fun thread => P thread ∧ Q thread :=
  fun thread next hthread hbranches branch hmem =>
    ⟨hP thread next hthread.1 hbranches branch hmem, hQ thread next hthread.2 hbranches branch hmem⟩

theorem Inherited.step (h : machine.Inherited P) {config after : Config}
    (hthreads : ∀ thread ∈ config.threads, P thread)
    (hstep : machine.step config = .continues after) : ∀ thread ∈ after.threads, P thread := by
  cases config with
  | resuming thread log =>
      cases hstep
      exact hthreads
  | running thread log =>
      obtain ⟨hthread, hpending⟩ := List.forall_mem_cons.mp hthreads
      cases hbranches : machine.branches thread with
      | none =>
          rw [step_running_of_accept hbranches] at hstep
          cases hstep
      | some next =>
          have hsearches : (machine.step (.running thread log)).Searches
              (next ++ pending thread log) := step_running_searches hbranches
          rw [hstep] at hsearches
          rw [hsearches]
          exact List.forall_mem_append.mpr ⟨h thread next hthread hbranches, hpending⟩

/-- A match comes from a thread that has the property and accepts. -/
theorem Inherited.exists_accepting (h : machine.Inherited P) {steps left : Nat}
    {config : Config} {found : Match} (hthreads : ∀ thread ∈ config.threads, P thread)
    (hrun : machine.run steps config = .halted (some found) left) :
    ∃ thread, P thread ∧ machine.branches thread = none ∧ found = thread.toMatch := by
  induction steps generalizing config with
  | zero => cases hrun
  | succ steps ih =>
      rw [run] at hrun
      cases hstep : machine.step config with
      | continues next =>
          rw [hstep] at hrun
          exact ih (h.step hthreads hstep) hrun
      | halts answer =>
          rw [hstep] at hrun
          cases hrun
          cases config with
          | resuming thread log => cases hstep
          | running thread log =>
              cases hbranches : machine.branches thread with
              | none =>
                  rw [step_running_of_accept hbranches] at hstep
                  cases hstep
                  exact ⟨thread, hthreads thread List.mem_cons_self, hbranches, rfl⟩
              | some next =>
                  have hsearches : (machine.step (.running thread log)).Searches
                      (next ++ pending thread log) := step_running_searches hbranches
                  rw [hstep] at hsearches
                  cases hsearches.1

end Inherited

/-- No instruction takes a thread back in the text. -/
theorem Passes.le {thread : Thread} {offset : Nat} (h : machine.Passes thread offset) :
    thread.offset ≤ offset := by
  rcases h with rfl | ⟨-, rfl⟩ | ⟨group, span, -, -, rfl⟩
  · exact Nat.le_refl _
  · exact Nat.le_succ _
  · exact Nat.le_add_right _ _

/-! ### Accepting threads -/

theorem consumeIf_ne_accept (thread : Thread) (condition : Byte → Bool) :
    machine.consumeIf thread condition ≠ .accept := by
  unfold consumeIf
  split
  · split <;> exact Effect.noConfusion
  · exact Effect.noConfusion

/-- Only the accepting instruction accepts, and only at the end of the text if that is anchored. -/
theorem effect_accept {thread : Thread} {instr : Instr}
    (h : machine.effect thread instr = .accept) :
    instr = .accept ∧ (machine.anchoredEnd = true → thread.offset = machine.text.size) := by
  cases instr with
  | accept =>
      refine ⟨rfl, ?_⟩
      intro hanchored
      by_contra hne
      simp [effect, hanchored, hne] at h
  | byte value => exact absurd h (consumeIf_ne_accept _ _)
  | set index => exact absurd h (consumeIf_ne_accept _ _)
  | any => exact absurd h (consumeIf_ne_accept _ _)
  | backref group =>
      simp only [effect] at h
      split at h
      · cases h
      · split at h <;> cases h
  | assert anchor =>
      simp only [effect] at h
      split at h <;> cases h
  | check slot =>
      simp only [effect] at h
      split at h <;> cases h
  | _ => cases h

theorem accept_of_branches {thread : Thread} (h : machine.branches thread = none) :
    machine.program.code[thread.pc]? = some .accept ∧
      (machine.anchoredEnd = true → thread.offset = machine.text.size) := by
  unfold branches at h
  split at h
  · cases h
  · rename_i hinstr
    split at h
    · cases h
    · cases h
    · rename_i heffect
      obtain ⟨rfl, hend⟩ := effect_accept heffect
      exact ⟨hinstr, hend⟩

/-! ### The two machines -/

/-- The machine for which only a match up to the end of the text counts. -/
def anchored (machine : Machine) : Machine :=
  { machine with anchoredEnd := true }

theorem effect_anchored {thread : Thread} {instr : Instr}
    (h : machine.effect thread instr = .accept → thread.offset = machine.text.size) :
    machine.anchored.effect thread instr = machine.effect thread instr := by
  cases instr with
  | accept =>
      cases hanchored : machine.anchoredEnd with
      | true =>
          simp only [effect, anchored, hanchored]
          rfl
      | false =>
          have hend := h (by simp [effect, hanchored])
          simp [effect, anchored, hend]
  | _ => rfl

/-- The anchored machine takes the same step, or it refuses what the other one accepts. -/
theorem step_anchored (machine : Machine) (config : Config) :
    machine.anchored.step config = machine.step config ∨
      ∃ thread ∈ config.threads, machine.branches thread = none ∧
        machine.step config = .halts (some thread.toMatch) ∧
        thread.offset ≠ machine.text.size := by
  cases config with
  | resuming thread log => exact .inl rfl
  | running thread log =>
      by_cases hrefused : machine.branches thread = none ∧ thread.offset ≠ machine.text.size
      · exact .inr ⟨thread, List.mem_cons_self, hrefused.1, step_running_of_accept hrefused.1,
          hrefused.2⟩
      · left
        have hprogram : machine.anchored.program = machine.program := rfl
        simp only [step, hprogram]
        cases hinstr : machine.program.code[thread.pc]? with
        | none => rfl
        | some instr =>
            dsimp only
            rw [effect_anchored]
            intro haccept
            by_contra hend
            exact hrefused ⟨by simp only [branches, hinstr, haccept], hend⟩

/-! ### Runs of the two machines -/

section Runs

variable {steps left : Nat} {config : Config}

theorem lt_of_run {answer : Option Match} (h : machine.run steps config = .halted answer left) :
    left < steps := by
  obtain ⟨taken, hsum, hleads⟩ := leads_of_run h
  have hpos := hleads.pos
  omega

/-- An answer that does not end before the text is the answer of the anchored machine too. -/
theorem run_anchored_of_run {P : Thread → Prop} (hP : machine.Inherited P)
    (hstop : ∀ {thread}, P thread → machine.branches thread = none →
      thread.toMatch.span.stop = thread.offset)
    (hthreads : ∀ thread ∈ config.threads, P thread) {answer : Option Match}
    (hanswer : ∀ found, answer = some found → found.span.stop = machine.text.size)
    (hrun : machine.run steps config = .halted answer left) :
    machine.anchored.run steps config = .halted answer left := by
  induction steps generalizing config with
  | zero => cases hrun
  | succ steps ih =>
      rw [run] at hrun ⊢
      rcases step_anchored machine config with hsame | ⟨thread, hmem, haccept, hstep, hend⟩
      · rw [hsame]
        cases hstep : machine.step config with
        | halts reached =>
            rw [hstep] at hrun
            exact hrun
        | continues next =>
            rw [hstep] at hrun
            exact ih (hP.step hthreads hstep) hrun
      · rw [hstep] at hrun
        cases hrun
        have hsize := hanswer _ rfl
        rw [hstop (hthreads thread hmem) haccept] at hsize
        exact absurd hsize hend

/-- Where the anchored machine finds a match, the other one has found one by then. -/
theorem exists_run_of_anchored {found : Match}
    (hrun : machine.anchored.run steps config = .halted (some found) left) :
    ∃ first more, left ≤ more ∧ machine.run steps config = .halted (some first) more := by
  induction steps generalizing config with
  | zero => cases hrun
  | succ steps ih =>
      have hleft := lt_of_run hrun
      rw [run] at hrun
      rw [run]
      rcases step_anchored machine config with hsame | ⟨thread, -, -, hstep, -⟩
      · rw [hsame] at hrun
        cases hstep : machine.step config with
        | halts reached =>
            rw [hstep] at hrun
            cases hrun
            exact ⟨found, left, Nat.le_refl left, rfl⟩
        | continues next =>
            rw [hstep] at hrun
            exact ih hrun
      · rw [hstep]
        exact ⟨thread.toMatch, steps, Nat.le_of_lt_succ hleft, rfl⟩

end Runs

end RegexSearch.Machine
