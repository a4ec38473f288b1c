import RegexSearch.Proofs.Machine.Stages

/-!
The log compared with whole copies. A machine that copies saves a branch as a thread of its own,
with a copy of all registers, openings and marks, and notes nothing down when a thread overwrites a
value; a thread that fails is dropped, and the thread saved last is taken up as it is. The machine
with the log goes through the same threads, step by step. What ties the two together is `pending`:
if the values that stand above a branch on the log are put back, the thread that comes out is the
one that the copying machine has saved there.
-/

namespace RegexSearch

namespace Copying

/-- What an instruction does to a thread. A thread that splits becomes two, the one to go on with
and the one to save. -/
inductive Move where
  | proceed (thread : Thread)
  | fork (preferred other : Thread)
  | fail
  | accept
  deriving DecidableEq, Repr

/-- A state of the copying machine: a thread to run or to resume, and the saved ones, the latest
first. -/
inductive State where
  | running (thread : Thread) (saved : List Thread)
  | resuming (thread : Thread) (saved : List Thread)
  deriving DecidableEq, Repr

/-- The state after a step, or the answer that the run ends with. -/
inductive Next where
  | continues (state : State)
  | halts (answer : Option Match)
  deriving DecidableEq, Repr

/-- Where a run has come to. -/
inductive Progress where
  | halted (answer : Option Match) (left : Nat)
  | paused (state : State)
  deriving DecidableEq, Repr

/-- Consumes the next byte if there is one and it satisfies a condition. -/
def consumeIf (machine : Machine) (thread : Thread) (condition : Byte → Bool) : Move :=
  match machine.text[thread.offset]? with
  | some b => if condition b then .proceed (thread.consume 1) else .fail
  | none => .fail

def move (machine : Machine) (thread : Thread) : Instr → Move
  | .byte value => consumeIf machine thread (· == value)
  | .set index => consumeIf machine thread fun b => machine.program.sets[index]?.any (·.contains b)
  | .any => consumeIf machine thread (!·.isNewline)
  | .split preferred other => .fork (thread.goto preferred) (thread.goto other)
  | .jump target => .proceed (thread.goto target)
  | .openGroup group => .proceed (thread.next.setOpened group (some thread.offset))
  | .closeGroup group => .proceed (thread.next.close group)
  | .backref group =>
    match thread.capture group with
    | none => .fail
    | some span =>
      if machine.repeatsAt span thread.offset then .proceed (thread.consume span.length) else .fail
  | .assert anchor =>
    if anchor.holds machine.text thread.offset then .proceed thread.next else .fail
  | .mark slot => .proceed (thread.next.setMark slot (some thread.offset))
  | .check slot =>
    if thread.markedAt slot == some thread.offset then .fail else .proceed thread.next
  | .accept =>
    if machine.anchoredEnd && thread.offset != machine.text.size then .fail else .accept

/-- Turns to the thread saved last. -/
def giveUp : List Thread → Next
  | [] => .halts none
  | thread :: saved => .continues (.resuming thread saved)

/-- One step. Resuming a thread is a step too. -/
def step (machine : Machine) : State → Next
  | .resuming thread saved => .continues (.running thread saved)
  | .running thread saved =>
    match machine.program.code[thread.pc]? with
    | none => giveUp saved
    | some instr =>
      match move machine thread instr with
      | .proceed next => .continues (.running next saved)
      | .fork preferred other => .continues (.running preferred (other :: saved))
      | .fail => giveUp saved
      | .accept => .halts (some thread.toMatch)

/-- Runs for so many steps. -/
def run (machine : Machine) : Nat → State → Progress
  | 0, state => .paused state
  | steps + 1, state =>
    match step machine state with
    | .halts answer => .halted answer steps
    | .continues next => run machine steps next

def initial (machine : Machine) (start : Nat) : State :=
  .running (.start machine.program start) []

/-- Whether a run has an answer within so many steps. -/
def answer (machine : Machine) (most start : Nat) : Except Error (Option Match) :=
  match run machine most (initial machine start) with
  | .halted answer _ => .ok answer
  | .paused _ => .error .timeout

end Copying

/-! ### The copies that a log stands for -/

/-- The same state with a whole thread in the place of each branch on the log. -/
def Config.copied : Config → Copying.State
  | running thread log => .running thread (Machine.pending thread log)
  | resuming thread log => .resuming thread (Machine.pending thread log)

def Next.copied : Next → Copying.Next
  | continues config => .continues config.copied
  | halts answer => .halts answer

def Progress.copied : Progress → Copying.Progress
  | halted answer left => .halted answer left
  | paused config => .paused config.copied

/-- The same effect with a thread to save in the place of a branch to put on the log. -/
def Effect.copied : Effect → Copying.Move
  | proceed thread records =>
    match Machine.pending thread records with
    | [] => .proceed thread
    | other :: _ => .fork thread other
  | fail => .fail
  | accept => .accept

namespace Machine

variable {machine : Machine}

theorem copied_consumeIf (thread : Thread) (condition : Byte → Bool) :
    (machine.consumeIf thread condition).copied = Copying.consumeIf machine thread condition := by
  unfold consumeIf Copying.consumeIf
  cases machine.text[thread.offset]? with
  | none => rfl
  | some b =>
      dsimp only
      cases condition b <;> rfl

theorem copied_effect (thread : Thread) (instr : Instr) :
    (machine.effect thread instr).copied = Copying.move machine thread instr := by
  cases instr with
  | byte value => exact copied_consumeIf thread _
  | set index => exact copied_consumeIf thread _
  | any => exact copied_consumeIf thread _
  | backref group =>
      simp only [effect, Copying.move]
      cases thread.capture group with
      | none => rfl
      | some span =>
          dsimp only
          cases machine.repeatsAt span thread.offset <;> rfl
  | assert anchor =>
      simp only [effect, Copying.move]
      split <;> rfl
  | check slot =>
      simp only [effect, Copying.move]
      split <;> rfl
  | accept =>
      simp only [effect, Copying.move]
      split <;> rfl
  | _ => rfl

/-- A failing thread leaves the same thread to resume, whether it is saved or found on the log. -/
theorem copied_backtrack (thread : Thread) (log : List Record) :
    (backtrack thread log).copied = Copying.giveUp (pending thread log) := by
  have hpending := pending_eq_unwind thread log
  unfold backtrack
  cases hunwind : unwind thread log with
  | none =>
      rw [hunwind] at hpending
      rw [hpending]
      rfl
  | some found =>
      rw [hunwind] at hpending
      rw [hpending]
      rfl

/-- What a thread puts on the log adds at most one copy, in front of those that were there. -/
theorem pending_effect_append {thread next : Thread} {instr : Instr} {records : List Record}
    (heffect : machine.effect thread instr = .proceed next records) (log : List Record) :
    pending next (records ++ log) = pending next records ++ pending thread log := by
  rw [pending_append, undo_effect heffect, pending_moved]

/-- Both machines take the same step. -/
theorem copied_step (config : Config) :
    (machine.step config).copied = Copying.step machine config.copied := by
  cases config with
  | resuming thread log => rfl
  | running thread log =>
      simp only [step, Config.copied, Copying.step]
      cases machine.program.code[thread.pc]? with
      | none => exact copied_backtrack thread log
      | some instr =>
          have hmove : (machine.effect thread instr).copied = Copying.move machine thread instr :=
            copied_effect thread instr
          dsimp only
          cases heffect : machine.effect thread instr with
          | fail =>
              rw [← hmove, heffect]
              exact copied_backtrack thread log
          | accept =>
              rw [← hmove, heffect]
              rfl
          | proceed next records =>
              rw [← hmove, heffect]
              have hlength := pending_effect_length heffect
              have hcopies := pending_effect_append heffect log
              simp only [Next.copied, Config.copied, Effect.copied, hcopies]
              cases hrecords : pending next records with
              | nil => rfl
              | cons other rest =>
                  rw [hrecords, List.length_cons] at hlength
                  have hrest : rest = [] := List.eq_nil_of_length_eq_zero (by omega)
                  rw [hrest]
                  rfl

/-- Both machines are in the same state after any number of steps, or have halted with the same
answer after the same number of steps. -/
theorem copied_run (steps : Nat) (config : Config) :
    (machine.run steps config).copied = Copying.run machine steps config.copied := by
  induction steps generalizing config with
  | zero => rfl
  | succ steps ih =>
      rw [run, Copying.run, ← copied_step]
      cases machine.step config with
      | halts answer => rfl
      | continues next => exact ih next

theorem run_halted_iff_copied {steps left : Nat} {config : Config} {answer : Option Match} :
    machine.run steps config = .halted answer left ↔
      Copying.run machine steps config.copied = .halted answer left := by
  rw [← copied_run]
  cases machine.run steps config with
  | halted reached rest => simp [Progress.copied]
  | paused stopped => simp [Progress.copied]

end Machine

/-- For every program, compiled or not, an attempt with the log and an attempt with copies are in
the same state after each step. So they give the same answer, with the same groups, after the same
number of steps, or reach the limit both; and if there is no limit, one of them halts if and only
if the other does. -/
theorem attempt_logged_and_copied (program : Program) (text : Text) (anchoredEnd : Bool)
    {start : Nat} (hstart : start ≤ text.size) :
    let machine : Machine := ⟨program, text, anchoredEnd⟩
    (∀ steps, (machine.run steps (machine.initial start)).copied =
      Copying.run machine steps (Copying.initial machine start)) ∧
    (∀ most, attempt program text (.atMost most) anchoredEnd start =
      Copying.answer machine most start) ∧
    (∀ answer, attempt program text .unlimited anchoredEnd start = .ok answer ↔
      ∃ steps left, Copying.run machine steps (Copying.initial machine start) =
        .halted answer left) ∧
    ((∃ steps answer left, machine.run steps (machine.initial start) = .halted answer left) ↔
      ∃ steps answer left, Copying.run machine steps (Copying.initial machine start) =
        .halted answer left) := by
  intro machine
  have hrun (steps : Nat) : (machine.run steps (machine.initial start)).copied =
      Copying.run machine steps (Copying.initial machine start) :=
    Machine.copied_run steps (machine.initial start)
  have hhalted (steps left : Nat) (answer : Option Match) :
      machine.run steps (machine.initial start) = .halted answer left ↔
        Copying.run machine steps (Copying.initial machine start) = .halted answer left :=
    Machine.run_halted_iff_copied
  have hsize : start ≤ machine.text.size := hstart
  refine ⟨hrun, ?_, ?_, ?_⟩
  · intro most
    change machine.answer (.atMost most) (machine.initial start) = _
    rw [Machine.answer, Copying.answer, ← hrun]
    cases machine.run most (machine.initial start) with
    | halted answer left => rfl
    | paused config => rfl
  · intro answer
    change machine.answer .unlimited (machine.initial start) = .ok answer ↔ _
    rw [Machine.answer_unlimited_iff hsize]
    have hyields : (∃ steps left, machine.run steps (machine.initial start) =
        .halted answer left) ↔ machine.Yields [.start program start] answer :=
      Machine.halts_iff_yields
    rw [← hyields]
    simp only [hhalted]
  · simp only [hhalted]

/-- Two programs that no pattern has. The first branch of the first one captures a byte and fails
behind it, so on the text `aa` the backreference of its second branch finds nothing captured, and
the third branch accepts. The second one closes the whole match without having opened it: one of
the two registers is set, and the other one stands in the match as it is. -/
theorem attempt_logged_and_copied_behind_failed_branch :
    let program : Program :=
      { code := #[.openGroup 0, .split 2 7, .mark 0, .openGroup 1, .any, .closeGroup 1, .byte 98,
          .split 8 11, .backref 1, .any, .jump 11, .closeGroup 0, .accept]
        sets := #[]
        groups := 1
        loops := 1 }
    let closing : Program := ⟨#[.closeGroup 0, .accept], #[], 0, 0⟩
    attempt program #[97, 97] .unlimited false 0 = .ok (some ⟨⟨0, 0⟩, [some ⟨0, 0⟩, none]⟩) ∧
      attempt program #[97, 97] (.atMost 12) false 0 = .error .timeout ∧
      attempt closing #[97] .unlimited false 1 = .ok (some ⟨⟨Thread.unset, 1⟩, [none]⟩) := by
  intro program closing
  obtain ⟨-, hlimited, hunlimited, -⟩ :=
    attempt_logged_and_copied program #[97, 97] false (Nat.zero_le 2)
  obtain ⟨-, -, hclosing, -⟩ := attempt_logged_and_copied closing #[97] false (Nat.le_refl 1)
  refine ⟨?_, ?_, ?_⟩
  · apply (hunlimited _).mpr
    exact ⟨13, 0, by decide⟩
  · rw [hlimited 12]
    rfl
  · apply (hclosing _).mpr
    exact ⟨2, 0, by decide⟩

end RegexSearch
