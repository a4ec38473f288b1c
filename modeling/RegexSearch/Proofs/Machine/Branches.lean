import RegexSearch.Machine.Budget
import RegexSearch.Proofs.Machine.Registers

/-!
The machine as a depth-first search. A thread has branches, the threads that it may go on as, in
the order in which they are tried. A state of the machine stands for a list of threads, the
running one and those that its log can resume, and every step replaces the first of them by its
branches. The log itself disappears from view: putting back the values that it holds restores the
memory that a saved branch was saved with.
-/

namespace RegexSearch

namespace Thread

/-- The thread at another place, with the same memory. -/
def moved (thread : Thread) (pc offset : Nat) : Thread :=
  { thread with pc, offset }

@[simp] theorem moved_moved (thread : Thread) (pc offset pc' offset' : Nat) :
    (thread.moved pc offset).moved pc' offset' = thread.moved pc' offset' := rfl

@[simp] theorem setRegister_moved (thread : Thread) (pc offset index : Nat) (noted : Option Nat) :
    (thread.moved pc offset).setRegister index noted =
      (thread.setRegister index noted).moved pc offset := rfl

@[simp] theorem setOpened_moved (thread : Thread) (pc offset group : Nat) (noted : Option Nat) :
    (thread.moved pc offset).setOpened group noted =
      (thread.setOpened group noted).moved pc offset := rfl

@[simp] theorem setMark_moved (thread : Thread) (pc offset slot : Nat) (noted : Option Nat) :
    (thread.moved pc offset).setMark slot noted = (thread.setMark slot noted).moved pc offset := rfl

end Thread

/-- The positions that an instruction names, to which control may pass from it. -/
def Instr.targets : Instr → List Nat
  | split preferred other => [preferred, other]
  | jump target => [target]
  | _ => []

namespace Machine

/-- The thread after all values on a log have been put back. -/
def undo (thread : Thread) : List Record → Thread
  | [] => thread
  | .branch _ _ :: log => undo thread log
  | .register index before :: log => undo (thread.setRegister index before) log
  | .opened group before :: log => undo (thread.setOpened group before) log
  | .mark slot before :: log => undo (thread.setMark slot before) log

/-- The threads that a log can resume, the latest first, each with the memory it had when its
branch was put on the log. -/
def pending (thread : Thread) : List Record → List Thread
  | [] => []
  | .branch pc offset :: log => thread.moved pc offset :: pending thread log
  | .register index before :: log => pending (thread.setRegister index before) log
  | .opened group before :: log => pending (thread.setOpened group before) log
  | .mark slot before :: log => pending (thread.setMark slot before) log

@[simp] theorem pending_moved (thread : Thread) (pc offset : Nat) (log : List Record) :
    pending (thread.moved pc offset) log = pending thread log := by
  induction log generalizing thread with
  | nil => rfl
  | cons record log ih => cases record <;> simp [pending, ih]

theorem pending_append (thread : Thread) (records log : List Record) :
    pending thread (records ++ log) =
      pending thread records ++ pending (undo thread records) log := by
  induction records generalizing thread with
  | nil => rfl
  | cons record records ih => cases record <;> simp [pending, undo, ih]

/-- Unwinding a log finds the first of its pending threads and leaves the others. -/
theorem pending_eq_unwind (thread : Thread) (log : List Record) :
    pending thread log =
      match unwind thread log with
      | none => []
      | some (resumed, rest) => resumed :: pending resumed rest := by
  induction log generalizing thread with
  | nil => rfl
  | cons record log ih =>
      cases record with
      | branch pc offset =>
          have hmoved := pending_moved thread pc offset log
          simp only [pending, unwind, Thread.moved] at hmoved ⊢
          rw [hmoved]
      | register index before => exact ih (thread.setRegister index before)
      | opened group before => exact ih (thread.setOpened group before)
      | mark slot before => exact ih (thread.setMark slot before)

end Machine

/-- The threads that a state of the machine stands for, in the order in which they are tried. -/
def Config.threads : Config → List Thread
  | running thread log => thread :: Machine.pending thread log
  | resuming thread log => thread :: Machine.pending thread log

/-- Whether these are the threads that remain to be tried; if there are none, the machine halts
without a match. -/
def Next.Searches (threads : List Thread) : Next → Prop
  | continues config => config.threads = threads
  | halts answer => answer = none ∧ threads = []

namespace Machine

variable (machine : Machine)

/-- What a thread may go on as, in the order in which the machine tries it; nothing at all if the
thread accepts. -/
def branches (thread : Thread) : Option (List Thread) :=
  match machine.program.code[thread.pc]? with
  | none => some []
  | some instr =>
    match machine.effect thread instr with
    | .proceed next records => some (next :: pending next records)
    | .fail => some []
    | .accept => none

variable {machine}

/-! ### What an instruction can do -/

/-- How far an instruction that writes no memory takes a thread: nowhere, over one byte, or over
a repetition of what a group has captured. -/
def Passes (machine : Machine) (thread : Thread) (offset : Nat) : Prop :=
  offset = thread.offset ∨
  (thread.offset < machine.text.size ∧ offset = thread.offset + 1) ∨
  ∃ group span, thread.capture group = some span ∧ machine.repeatsAt span thread.offset ∧
    offset = thread.offset + span.length

theorem consumeIf_proceed {thread next : Thread} {condition : Byte → Bool}
    {records : List Record} (h : machine.consumeIf thread condition = .proceed next records) :
    thread.offset < machine.text.size ∧ next = thread.consume 1 ∧ records = [] := by
  unfold consumeIf at h
  split at h
  · rename_i b hb
    split at h
    · cases h
      exact ⟨(Array.getElem?_eq_some_iff.mp hb).1, rfl, rfl⟩
    · cases h
  · cases h

/-- All that an instruction can do to a thread that survives it. -/
theorem effect_proceed {thread next : Thread} {instr : Instr} {records : List Record}
    (h : machine.effect thread instr = .proceed next records) :
    (∃ pc offset, (pc = thread.pc + 1 ∨ pc ∈ instr.targets) ∧ machine.Passes thread offset ∧
      next = thread.moved pc offset ∧ records = []) ∨
    (∃ preferred other, instr = .split preferred other ∧ next = thread.goto preferred ∧
      records = [.branch other thread.offset]) ∨
    (∃ group, instr = .openGroup group ∧
      next = thread.next.setOpened group (some thread.offset) ∧
      records = [.opened group (thread.openedAt group)]) ∨
    (∃ group, instr = .closeGroup group ∧
      next = thread.next.close group ∧
      records = [.register (2 * group + 1) (thread.register (2 * group + 1)),
        .register (2 * group) (thread.register (2 * group))]) ∨
    (∃ slot, instr = .mark slot ∧ next = thread.next.setMark slot (some thread.offset) ∧
      records = [.mark slot (thread.markedAt slot)]) := by
  cases instr with
  | byte value =>
      obtain ⟨hlt, rfl, rfl⟩ := consumeIf_proceed h
      exact .inl ⟨_, _, .inl rfl, .inr (.inl ⟨hlt, rfl⟩), rfl, rfl⟩
  | set index =>
      obtain ⟨hlt, rfl, rfl⟩ := consumeIf_proceed h
      exact .inl ⟨_, _, .inl rfl, .inr (.inl ⟨hlt, rfl⟩), rfl, rfl⟩
  | any =>
      obtain ⟨hlt, rfl, rfl⟩ := consumeIf_proceed h
      exact .inl ⟨_, _, .inl rfl, .inr (.inl ⟨hlt, rfl⟩), rfl, rfl⟩
  | split preferred other =>
      cases h
      exact .inr (.inl ⟨preferred, other, rfl, rfl, rfl⟩)
  | jump target =>
      cases h
      exact .inl ⟨_, _, .inr (List.mem_singleton_self _), .inl rfl, rfl, rfl⟩
  | openGroup group =>
      cases h
      exact .inr (.inr (.inl ⟨group, rfl, rfl, rfl⟩))
  | closeGroup group =>
      cases h
      exact .inr (.inr (.inr (.inl ⟨group, rfl, rfl, rfl⟩)))
  | backref group =>
      simp only [effect] at h
      split at h
      · cases h
      · rename_i span hspan
        split at h
        · rename_i hrepeats
          cases h
          exact .inl ⟨_, _, .inl rfl,
            .inr (.inr ⟨group, span, hspan, hrepeats, rfl⟩), rfl, rfl⟩
        · cases h
  | assert anchor =>
      simp only [effect] at h
      split at h
      · cases h
        exact .inl ⟨_, _, .inl rfl, .inl rfl, rfl, rfl⟩
      · cases h
  | mark slot =>
      cases h
      exact .inr (.inr (.inr (.inr ⟨slot, rfl, rfl, rfl⟩)))
  | check slot =>
      simp only [effect] at h
      split at h
      · cases h
      · cases h
        exact .inl ⟨_, _, .inl rfl, .inl rfl, rfl, rfl⟩
  | accept =>
      simp only [effect] at h
      split at h <;> cases h

/-- The values that an instruction puts on the log are those that it overwrites. -/
theorem undo_effect {thread next : Thread} {instr : Instr} {records : List Record}
    (h : machine.effect thread instr = .proceed next records) :
    undo next records = thread.moved next.pc next.offset := by
  rcases effect_proceed h with ⟨pc, offset, -, -, hnext, hrecords⟩ |
    ⟨preferred, other, -, hnext, hrecords⟩ | ⟨group, -, hnext, hrecords⟩ |
    ⟨group, -, hnext, hrecords⟩ | ⟨slot, -, hnext, hrecords⟩
  · rw [hnext, hrecords]
    rfl
  · rw [hnext, hrecords]
    rfl
  · simp [hnext, hrecords, undo, Thread.next, Thread.setOpened, Thread.openedAt, Thread.moved]
  · rw [hnext, hrecords]
    exact thread.next.setRegister_close group
  · simp [hnext, hrecords, undo, Thread.next, Thread.setMark, Thread.markedAt, Thread.moved]

/-- Besides going on, a thread leaves at most one branch behind. -/
theorem pending_effect_length {thread next : Thread} {instr : Instr} {records : List Record}
    (h : machine.effect thread instr = .proceed next records) :
    (pending next records).length ≤ 1 := by
  rcases effect_proceed h with ⟨pc, offset, -, -, hnext, hrecords⟩ |
    ⟨preferred, other, -, hnext, hrecords⟩ | ⟨group, -, hnext, hrecords⟩ |
    ⟨group, -, hnext, hrecords⟩ | ⟨slot, -, hnext, hrecords⟩ <;>
  simp [hrecords, pending]

theorem branches_length {thread : Thread} {next : List Thread}
    (h : machine.branches thread = some next) : next.length ≤ 2 := by
  unfold branches at h
  split at h
  · cases h
    exact Nat.zero_le 2
  · split at h
    · rename_i heffect
      have hlength := pending_effect_length heffect
      simp only [Option.some.injEq] at h
      simp only [← h, List.length_cons]
      omega
    · cases h
      exact Nat.zero_le 2
    · cases h

/-- A branch is what an instruction makes of the thread, or what it puts on the log. -/
theorem exists_effect_of_branch {thread branch : Thread} {next : List Thread}
    (h : machine.branches thread = some next) (hmem : branch ∈ next) :
    ∃ instr continued records, machine.program.code[thread.pc]? = some instr ∧
      machine.effect thread instr = .proceed continued records ∧
      branch ∈ continued :: pending continued records := by
  unfold branches at h
  split at h
  · cases h
    cases hmem
  · rename_i instr hinstr
    split at h
    · rename_i continued records heffect
      cases h
      exact ⟨instr, continued, records, hinstr, heffect, hmem⟩
    · cases h
      cases hmem
    · cases h

/-! ### One step -/

theorem backtrack_searches (thread : Thread) (log : List Record) :
    (backtrack thread log).Searches (pending thread log) := by
  have hpending := pending_eq_unwind thread log
  unfold backtrack
  cases hunwind : unwind thread log with
  | none =>
      simp only [hunwind] at hpending
      exact ⟨rfl, hpending⟩
  | some found =>
      simp only [hunwind] at hpending
      exact hpending.symm

/-- A thread that accepts ends the run with its match. -/
theorem step_running_of_accept {thread : Thread} {log : List Record}
    (h : machine.branches thread = none) :
    machine.step (.running thread log) = .halts (some thread.toMatch) := by
  rw [branches] at h
  rw [step]
  cases hinstr : machine.program.code[thread.pc]? with
  | none =>
      rw [hinstr] at h
      cases h
  | some instr =>
      rw [hinstr] at h
      dsimp only at h ⊢
      cases heffect : machine.effect thread instr with
      | proceed next records =>
          rw [heffect] at h
          cases h
      | fail =>
          rw [heffect] at h
          cases h
      | accept => rfl

/-- Any other thread is replaced by its branches, before the threads that are pending. -/
theorem step_running_searches {thread : Thread} {log : List Record} {next : List Thread}
    (h : machine.branches thread = some next) :
    (machine.step (.running thread log)).Searches (next ++ pending thread log) := by
  rw [branches] at h
  rw [step]
  cases hinstr : machine.program.code[thread.pc]? with
  | none =>
      rw [hinstr] at h
      cases h
      exact backtrack_searches thread log
  | some instr =>
      rw [hinstr] at h
      dsimp only at h ⊢
      cases heffect : machine.effect thread instr with
      | proceed continued records =>
          rw [heffect] at h
          cases h
          have hrest : pending (undo continued records) log = pending thread log := by
            rw [undo_effect heffect, pending_moved]
          change continued :: pending continued (records ++ log) = _
          rw [pending_append, hrest]
          rfl
      | fail =>
          rw [heffect] at h
          cases h
          exact backtrack_searches thread log
      | accept =>
          rw [heffect] at h
          cases h

end Machine

end RegexSearch
