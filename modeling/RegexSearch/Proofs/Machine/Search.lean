import RegexSearch.Proofs.Machine.Branches

/-!
Searches and runs. `explore` tells what becomes of a thread by following its branches to a limited
depth, and `Yields` says what trying a list of threads one after the other ends with. A run that
halts is the same thing as a search that ends, which is `halts_iff_yields`; a search of limited
depth bounds the number of steps of the run, which is `leads_of_explore`.
-/

namespace RegexSearch.Machine

variable (machine : Machine)

/-- The first answer that trying threads one after the other gives, if `trial` can tell what
becomes of each. -/
def firstAnswer (trial : Thread → Option (Option Match)) : List Thread → Option (Option Match)
  | [] => some none
  | thread :: rest =>
    match trial thread with
    | none => none
    | some none => firstAnswer trial rest
    | some (some found) => some (some found)

/-- What becomes of a thread, if it can be told by following its branches to this depth. -/
def explore : Nat → Thread → Option (Option Match)
  | 0, _ => none
  | depth + 1, thread =>
    match machine.branches thread with
    | none => some (some thread.toMatch)
    | some next => firstAnswer (explore depth) next

/-- Trying the threads one after the other ends with this answer. -/
def Yields (threads : List Thread) (answer : Option Match) : Prop :=
  ∃ depth, firstAnswer (machine.explore depth) threads = some answer

variable {machine}

/-! ### Searching a list of threads -/

theorem firstAnswer_append (trial : Thread → Option (Option Match)) (first rest : List Thread) :
    firstAnswer trial (first ++ rest) =
      match firstAnswer trial first with
      | some none => firstAnswer trial rest
      | answer => answer := by
  induction first with
  | nil => rfl
  | cons thread first ih =>
      simp only [List.cons_append, firstAnswer]
      cases trial thread with
      | none => rfl
      | some answer =>
          cases answer with
          | none => exact ih
          | some found => rfl

/-- A trial that can tell more keeps the answers that are there already. -/
theorem firstAnswer_mono {trial better : Thread → Option (Option Match)}
    (hbetter : ∀ thread answer, trial thread = some answer → better thread = some answer)
    {threads : List Thread} {answer : Option Match}
    (h : firstAnswer trial threads = some answer) :
    firstAnswer better threads = some answer := by
  induction threads with
  | nil => exact h
  | cons thread rest ih =>
      simp only [firstAnswer] at h ⊢
      cases htrial : trial thread with
      | none => simp [htrial] at h
      | some reached =>
          rw [hbetter thread reached htrial]
          rw [htrial] at h
          cases reached with
          | none => exact ih h
          | some found => exact h

theorem explore_succ {depth : Nat} {thread : Thread} {answer : Option Match}
    (h : machine.explore depth thread = some answer) :
    machine.explore (depth + 1) thread = some answer := by
  induction depth generalizing thread answer with
  | zero => cases h
  | succ depth ih =>
      rw [explore] at h ⊢
      cases hbranches : machine.branches thread with
      | none =>
          rw [hbranches] at h
          exact h
      | some next =>
          rw [hbranches] at h
          exact firstAnswer_mono (fun _ _ => ih) h

theorem explore_mono {depth depth' : Nat} (hle : depth ≤ depth') {thread : Thread}
    {answer : Option Match} (h : machine.explore depth thread = some answer) :
    machine.explore depth' thread = some answer := by
  induction hle with
  | refl => exact h
  | step _ ih => exact explore_succ ih

theorem Yields.nil : machine.Yields [] none := ⟨0, rfl⟩

/-- A list of threads yields a match of its first part, or what the rest yields if the first part
fails. -/
theorem yields_append_iff {first rest : List Thread} {answer : Option Match} :
    machine.Yields (first ++ rest) answer ↔
      (∃ found, answer = some found ∧ machine.Yields first (some found)) ∨
        (machine.Yields first none ∧ machine.Yields rest answer) := by
  constructor
  · rintro ⟨depth, h⟩
    rw [firstAnswer_append] at h
    cases hfirst : firstAnswer (machine.explore depth) first with
    | none => simp [hfirst] at h
    | some reached =>
        rw [hfirst] at h
        cases reached with
        | none => exact .inr ⟨⟨depth, hfirst⟩, ⟨depth, h⟩⟩
        | some found =>
            cases h
            exact .inl ⟨found, rfl, ⟨depth, hfirst⟩⟩
  · rintro (⟨found, rfl, depth, h⟩ | ⟨⟨depth, hfirst⟩, ⟨depth', hrest⟩⟩)
    · exact ⟨depth, by rw [firstAnswer_append, h]⟩
    · have hfirst' := firstAnswer_mono
        (fun _ _ => explore_mono (Nat.le_max_left depth depth')) hfirst
      have hrest' := firstAnswer_mono
        (fun _ _ => explore_mono (Nat.le_max_right depth depth')) hrest
      exact ⟨max depth depth', by rw [firstAnswer_append, hfirst', hrest']⟩

theorem yields_singleton_iff {thread : Thread} {answer : Option Match} :
    machine.Yields [thread] answer ↔ ∃ depth, machine.explore depth thread = some answer := by
  have hsingle (depth : Nat) : firstAnswer (machine.explore depth) [thread] =
      machine.explore depth thread := by
    simp only [firstAnswer]
    cases machine.explore depth thread with
    | none => rfl
    | some reached => cases reached <;> rfl
  simp only [Yields, hsingle]

/-- A thread yields what its branches yield. -/
theorem yields_branches_iff {thread : Thread} {next : List Thread} {answer : Option Match}
    (h : machine.branches thread = some next) :
    machine.Yields [thread] answer ↔ machine.Yields next answer := by
  rw [yields_singleton_iff]
  constructor
  · rintro ⟨depth, hexplore⟩
    cases depth with
    | zero => cases hexplore
    | succ depth =>
        rw [explore, h] at hexplore
        exact ⟨depth, hexplore⟩
  · rintro ⟨depth, hnext⟩
    exact ⟨depth + 1, by rw [explore, h]; exact hnext⟩

theorem yields_accept_iff {thread : Thread} {answer : Option Match}
    (h : machine.branches thread = none) :
    machine.Yields [thread] answer ↔ answer = some thread.toMatch := by
  rw [yields_singleton_iff]
  constructor
  · rintro ⟨depth, hexplore⟩
    cases depth with
    | zero => cases hexplore
    | succ depth =>
        rw [explore, h] at hexplore
        exact (Option.some.inj hexplore).symm
  · rintro rfl
    exact ⟨1, by rw [explore, h]⟩

/-! ### Runs -/

/-- So many steps lead from a state to another one, or to the answer that the run ends with. -/
def Leads (machine : Machine) (steps : Nat) (config : Config) : Next → Prop
  | .continues next => ∀ more, machine.run (steps + more) config = machine.run more next
  | .halts answer => ∀ more, machine.run (steps + more) config = .halted answer more

theorem leads_zero (config : Config) : machine.Leads 0 config (.continues config) := by
  intro more
  rw [Nat.zero_add]

theorem leads_step (config : Config) : machine.Leads 1 config (machine.step config) := by
  cases hstep : machine.step config with
  | halts answer =>
      intro more
      rw [Nat.add_comm, run, hstep]
  | continues next =>
      intro more
      rw [Nat.add_comm, run, hstep]

theorem Leads.trans {steps more : Nat} {config middle : Config} {next : Next}
    (hfirst : machine.Leads steps config (.continues middle))
    (hsecond : machine.Leads more middle next) : machine.Leads (steps + more) config next := by
  cases next with
  | halts answer =>
      intro left
      rw [Nat.add_assoc, hfirst, hsecond]
  | continues reached =>
      intro left
      rw [Nat.add_assoc, hfirst, hsecond]

/-- What is left to do once the thread before `rest` has been searched with this answer. -/
def Follows (rest : List Thread) : Option Match → Next → Prop
  | none, next => next.Searches rest
  | some found, next => next = .halts (some found)

/-- The first of the threads of a state can be run after at most one step. -/
theorem leads_running (machine : Machine) {config : Config} {thread : Thread} {rest : List Thread}
    (h : config.threads = thread :: rest) :
    ∃ steps log, steps ≤ 1 ∧ machine.Leads steps config (.continues (.running thread log)) ∧
      pending thread log = rest := by
  cases config with
  | running first log =>
      obtain ⟨rfl, hrest⟩ := List.cons.inj h
      exact ⟨0, log, Nat.zero_le 1, leads_zero _, hrest⟩
  | resuming first log =>
      obtain ⟨rfl, hrest⟩ := List.cons.inj h
      exact ⟨1, log, Nat.le_refl 1, leads_step _, hrest⟩

/-- If every single thread can be searched within `bound` steps, the threads of a list take at
most so many steps each. -/
theorem leads_of_firstAnswer {depth bound : Nat}
    (hbound : ∀ {thread answer config rest}, machine.explore depth thread = some answer →
      config.threads = thread :: rest →
        ∃ steps next, steps ≤ bound ∧ machine.Leads steps config next ∧ Follows rest answer next)
    {threads rest : List Thread} {answer : Option Match}
    (h : firstAnswer (machine.explore depth) threads = some answer)
    {config : Config} {before : Nat} {next : Next} (hleads : machine.Leads before config next)
    (hnext : next.Searches (threads ++ rest)) :
    ∃ steps last, steps ≤ threads.length * bound ∧
      machine.Leads (before + steps) config last ∧ Follows rest answer last := by
  induction threads generalizing before next with
  | nil =>
      cases h
      exact ⟨0, next, Nat.zero_le _, hleads, hnext⟩
  | cons thread threads ih =>
      cases next with
      | halts reached => exact absurd hnext.2 (List.cons_ne_nil _ _)
      | continues middle =>
          simp only [firstAnswer] at h
          cases hexplore : machine.explore depth thread with
          | none => simp [hexplore] at h
          | some reached =>
              obtain ⟨steps, after, hsteps, hafter, hfollows⟩ := hbound hexplore hnext
              rw [hexplore] at h
              cases reached with
              | some found =>
                  cases h
                  refine ⟨steps, after, ?_, hleads.trans hafter, hfollows⟩
                  rw [List.length_cons, Nat.succ_mul]
                  omega
              | none =>
                  obtain ⟨more, last, hmore, hlast, hlastFollows⟩ :=
                    ih h (hleads.trans hafter) hfollows
                  refine ⟨steps + more, last, ?_, ?_, hlastFollows⟩
                  · rw [List.length_cons, Nat.succ_mul]
                    omega
                  · rw [← Nat.add_assoc]
                    exact hlast

/-- A search to a limited depth takes a limited number of steps. A thread costs one step to be
resumed, one to be executed, and what its branches cost, which are two at most. -/
theorem leads_of_explore {depth : Nat} {thread : Thread} {answer : Option Match}
    (h : machine.explore depth thread = some answer) {config : Config} {rest : List Thread}
    (hthreads : config.threads = thread :: rest) :
    ∃ steps next, steps ≤ 2 ^ (depth + 1) - 2 ∧ machine.Leads steps config next ∧
      Follows rest answer next := by
  induction depth generalizing thread answer config rest with
  | zero => cases h
  | succ depth ih =>
      obtain ⟨resume, log, hresume, hrunning, hrest⟩ := leads_running machine hthreads
      have hexecute := hrunning.trans (leads_step (.running thread log))
      have hpow : 2 ^ (depth + 2) = 2 * 2 ^ (depth + 1) := by rw [Nat.pow_succ]; omega
      have htwo : 2 ≤ 2 ^ (depth + 1) := by
        have := Nat.two_pow_pos depth
        rw [Nat.pow_succ]
        omega
      rw [explore] at h
      cases hbranches : machine.branches thread with
      | none =>
          rw [hbranches] at h
          cases h
          rw [step_running_of_accept hbranches] at hexecute
          exact ⟨resume + 1, _, by omega, hexecute, rfl⟩
      | some next =>
          rw [hbranches] at h
          have hsearches : (machine.step (.running thread log)).Searches (next ++ rest) := by
            rw [← hrest]
            exact step_running_searches hbranches
          obtain ⟨steps, last, hsteps, hlast, hfollows⟩ :=
            leads_of_firstAnswer (fun hexplore hconfig => ih hexplore hconfig) h hexecute hsearches
          have hlength := Nat.mul_le_mul_right (2 ^ (depth + 1) - 2) (branches_length hbranches)
          exact ⟨resume + 1 + steps, last, by omega, hlast, hfollows⟩

/-- What a run reports is what its threads yield. -/
theorem yields_of_run {steps left : Nat} {config : Config} {answer : Option Match}
    (h : machine.run steps config = .halted answer left) :
    machine.Yields config.threads answer := by
  induction steps generalizing config with
  | zero => cases h
  | succ steps ih =>
      rw [run] at h
      cases config with
      | resuming thread log =>
          have hrunning : machine.Yields (Config.running thread log).threads answer := ih h
          exact hrunning
      | running thread log =>
          cases hbranches : machine.branches thread with
          | none =>
              rw [step_running_of_accept hbranches] at h
              cases h
              change machine.Yields ([thread] ++ pending thread log) (some thread.toMatch)
              exact yields_append_iff.mpr
                (.inl ⟨_, rfl, (yields_accept_iff hbranches).mpr rfl⟩)
          | some next =>
              have hsearches : (machine.step (.running thread log)).Searches
                  (next ++ pending thread log) := step_running_searches hbranches
              have hyields : machine.Yields (next ++ pending thread log) answer := by
                cases hstep : machine.step (.running thread log) with
                | continues reached =>
                    rw [hstep] at h hsearches
                    rw [← hsearches]
                    exact ih h
                | halts reached =>
                    rw [hstep] at h hsearches
                    cases h
                    rw [hsearches.1, hsearches.2]
                    exact Yields.nil
              simp only [yields_append_iff, ← yields_branches_iff hbranches] at hyields
              change machine.Yields ([thread] ++ pending thread log) answer
              exact yields_append_iff.mpr hyields

/-- A run halts if and only if the search of its threads ends, with the same answer. -/
theorem halts_iff_yields {config : Config} {answer : Option Match} :
    (∃ steps left, machine.run steps config = .halted answer left) ↔
      machine.Yields config.threads answer := by
  constructor
  · rintro ⟨steps, left, h⟩
    exact yields_of_run h
  · intro h
    obtain ⟨depth, hfirst⟩ := h
    have hsearches : (Next.continues config).Searches (config.threads ++ []) := by
      rw [List.append_nil]
      rfl
    obtain ⟨steps, last, -, hlast, hfollows⟩ :=
      leads_of_firstAnswer (fun hexplore hconfig => leads_of_explore hexplore hconfig) hfirst
        (leads_zero config) hsearches
    cases answer with
    | some found =>
        rw [hfollows] at hlast
        exact ⟨_, 0, hlast 0⟩
    | none =>
        cases last with
        | halts reached =>
            rw [hfollows.1] at hlast
            exact ⟨_, 0, hlast 0⟩
        | continues stopped => cases stopped <;> cases hfollows

end RegexSearch.Machine
