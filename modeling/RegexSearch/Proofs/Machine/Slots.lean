import RegexSearch.Proofs.Machine.Copying
import RegexSearch.Proofs.Machine.Limit

/-!
Slots under other names. Two programs that differ only in which slot each loop has run alike, as
long as the slots are paired one to one: the marks of paired slots are the same throughout, and
nothing else depends on a slot. The machine that copies has no log, so the states to be compared
are lists of threads.
-/

namespace RegexSearch

/-- The slot that an instruction marks or checks. -/
def Instr.slot? : Instr → Option Nat
  | mark slot => some slot
  | check slot => some slot
  | _ => none

/-- Slots are paired one to one, those of one region with those of another. -/
structure Pairing (paired : Nat → Nat → Prop) (region region' : Set Nat) : Prop where
  mem : ∀ {slot slot'}, paired slot slot' → slot ∈ region ∧ slot' ∈ region'
  unique : ∀ {slot slot' other other'}, paired slot slot' → paired other other' →
    (slot = other ↔ slot' = other')

/-- The same instruction, with the paired slot in the place of the slot. -/
inductive Instr.Paired (paired : Nat → Nat → Prop) : Instr → Instr → Prop
  | same {instr : Instr} (h : instr.slot? = none) : Paired paired instr instr
  | mark {slot slot' : Nat} (h : paired slot slot') : Paired paired (.mark slot) (.mark slot')
  | check {slot slot' : Nat} (h : paired slot slot') : Paired paired (.check slot) (.check slot')

/-- The programs are the same but for the slots of their loops. -/
structure Program.Paired (paired : Nat → Nat → Prop) (program program' : Program) : Prop where
  code : List.Forall₂ (Instr.Paired paired) program.code.toList program'.code.toList
  sets : program'.sets = program.sets
  groups : program'.groups = program.groups
  loops : program'.loops = program.loops
  slots : Pairing paired (Set.Iio program.loops) (Set.Iio program.loops)

/-- The threads are the same but for the slots that their marks are in. -/
structure Thread.Paired (paired : Nat → Nat → Prop) (loops : Nat) (thread thread' : Thread) :
    Prop where
  pc : thread'.pc = thread.pc
  offset : thread'.offset = thread.offset
  registers : thread'.registers = thread.registers
  opens : thread'.opens = thread.opens
  marks_size : thread.marks.size = loops
  marks_size' : thread'.marks.size = loops
  marks : ∀ {slot slot'}, paired slot slot' → thread'.markedAt slot' = thread.markedAt slot

section

variable {paired : Nat → Nat → Prop} {program program' : Program}

theorem Program.Paired.size (h : program.Paired paired program') : program'.size = program.size :=
  h.code.length_eq.symm

/-- The same instructions stand at the same positions. -/
theorem Program.Paired.code_at (h : program.Paired paired program') (pc : Nat) :
    program.code[pc]? = none ∧ program'.code[pc]? = none ∨
      ∃ instr instr', program.code[pc]? = some instr ∧ program'.code[pc]? = some instr' ∧
        instr.Paired paired instr' := by
  obtain ⟨hlength, hpaired⟩ := List.forall₂_iff_get.mp h.code
  have hsize : program'.code.size = program.code.size := h.size
  by_cases hpc : pc < program.code.size
  · have hpc' : pc < program'.code.size := hsize.symm ▸ hpc
    exact .inr ⟨program.code[pc], program'.code[pc], Array.getElem?_eq_getElem hpc,
      Array.getElem?_eq_getElem hpc', hpaired pc hpc hpc'⟩
  · have hbehind : program.code.size ≤ pc := Nat.le_of_not_lt hpc
    exact .inl ⟨Array.getElem?_eq_none hbehind, Array.getElem?_eq_none (hsize.symm ▸ hbehind)⟩

namespace Thread.Paired

variable {loops : Nat} {thread thread' : Thread}

theorem markedAt_start (program : Program) (offset slot : Nat) :
    (Thread.start program offset).markedAt slot = none := by
  simp only [Thread.start, Thread.markedAt, Array.getD_eq_getD_getElem?, Array.getElem?_replicate]
  split <;> rfl

theorem start (h : program.Paired paired program') (offset : Nat) :
    (Thread.start program offset).Paired paired program.loops (.start program' offset) where
  pc := rfl
  offset := rfl
  registers := by
    rw [Thread.start, Thread.start, Program.registerCount, Program.registerCount, h.groups]
  opens := by rw [Thread.start, Thread.start, h.groups]
  marks_size := Array.size_replicate
  marks_size' := Array.size_replicate.trans h.loops
  marks := fun _ => (markedAt_start program' offset _).trans (markedAt_start program offset _).symm

theorem goto (h : thread.Paired paired loops thread') (pc : Nat) :
    (thread.goto pc).Paired paired loops (thread'.goto pc) :=
  { h with pc := rfl }

theorem next (h : thread.Paired paired loops thread') :
    thread.next.Paired paired loops thread'.next :=
  { h with pc := congrArg (· + 1) h.pc }

theorem consume (h : thread.Paired paired loops thread') (count : Nat) :
    (thread.consume count).Paired paired loops (thread'.consume count) :=
  { h with pc := congrArg (· + 1) h.pc, offset := congrArg (· + count) h.offset }

theorem setOpened (h : thread.Paired paired loops thread') (group : Nat) (noted : Option Nat) :
    (thread.setOpened group noted).Paired paired loops (thread'.setOpened group noted) :=
  { h with opens := congrArg (·.setIfInBounds group noted) h.opens }

theorem setRegister (h : thread.Paired paired loops thread') (index : Nat) (noted : Option Nat) :
    (thread.setRegister index noted).Paired paired loops (thread'.setRegister index noted) :=
  { h with registers := congrArg (·.setIfInBounds index noted) h.registers }

theorem close (h : thread.Paired paired loops thread') (group : Nat) :
    (thread.close group).Paired paired loops (thread'.close group) := by
  have hopened : thread'.openedAt group = thread.openedAt group := by
    rw [Thread.openedAt, Thread.openedAt, h.opens]
  rw [Thread.close, Thread.close, hopened, h.offset]
  exact (h.setRegister _ _).setRegister _ _

/-- Marks in paired slots stay the same, for the slot that is set is paired with one slot only. -/
theorem setMark (hslots : Pairing paired (Set.Iio loops) (Set.Iio loops))
    (h : thread.Paired paired loops thread') {slot slot' : Nat} (hslot : paired slot slot')
    (noted : Option Nat) :
    (thread.setMark slot noted).Paired paired loops (thread'.setMark slot' noted) :=
  { h with
    marks_size := by simpa [Thread.setMark] using h.marks_size
    marks_size' := by simpa [Thread.setMark] using h.marks_size'
    marks := by
      intro other other' hother
      obtain ⟨hlt, hlt'⟩ := hslots.mem hslot
      have hmarks := h.marks hother
      have hsame := hslots.unique hslot hother
      simp only [Set.mem_Iio] at hlt hlt'
      simp only [Thread.markedAt, Thread.setMark, Array.getD_eq_getD_getElem?,
        Array.getElem?_setIfInBounds, h.marks_size, h.marks_size', hlt, hlt', hsame] at hmarks ⊢
      split
      · rfl
      · exact hmarks }

theorem capture (h : thread.Paired paired loops thread') : thread'.capture = thread.capture :=
  Thread.capture_congr h.registers

theorem toMatch (h : thread.Paired paired loops thread') : thread'.toMatch = thread.toMatch := by
  rw [Thread.toMatch, Thread.register, Thread.register, h.registers]
  rfl

end Thread.Paired

end

namespace Copying

/-! ### Steps and runs -/

/-- The same move of paired threads. -/
inductive Move.Paired (related : Thread → Thread → Prop) : Move → Move → Prop
  | proceed {thread thread' : Thread} (h : related thread thread') :
    Paired related (.proceed thread) (.proceed thread')
  | fork {preferred preferred' other other' : Thread} (h : related preferred preferred')
    (hother : related other other') :
    Paired related (.fork preferred other) (.fork preferred' other')
  | fail : Paired related .fail .fail
  | accept : Paired related .accept .accept

/-- The same state of paired threads. -/
inductive State.Paired (related : Thread → Thread → Prop) : State → State → Prop
  | running {thread thread' : Thread} {saved saved' : List Thread} (h : related thread thread')
    (hsaved : List.Forall₂ related saved saved') :
    Paired related (.running thread saved) (.running thread' saved')
  | resuming {thread thread' : Thread} {saved saved' : List Thread} (h : related thread thread')
    (hsaved : List.Forall₂ related saved saved') :
    Paired related (.resuming thread saved) (.resuming thread' saved')

inductive Next.Paired (related : Thread → Thread → Prop) : Next → Next → Prop
  | continues {state state' : State} (h : state.Paired related state') :
    Paired related (.continues state) (.continues state')
  | halts (answer : Option Match) : Paired related (.halts answer) (.halts answer)

variable {paired : Nat → Nat → Prop} {program program' : Program} {thread thread' : Thread}
  (text : Text) (anchoredEnd : Bool)

theorem paired_consumeIf (h : thread.Paired paired program.loops thread')
    (condition : Byte → Bool) :
    (consumeIf ⟨program, text, anchoredEnd⟩ thread condition).Paired
      (Thread.Paired paired program.loops)
      (consumeIf ⟨program', text, anchoredEnd⟩ thread' condition) := by
  simp only [consumeIf, h.offset]
  cases text[thread.offset]? with
  | none => exact .fail
  | some b =>
      dsimp only
      cases condition b with
      | true => exact .proceed (h.consume 1)
      | false => exact .fail

theorem paired_move (hprogram : program.Paired paired program')
    (h : thread.Paired paired program.loops thread') {instr instr' : Instr}
    (hinstr : instr.Paired paired instr') :
    (move ⟨program, text, anchoredEnd⟩ thread instr).Paired (Thread.Paired paired program.loops)
      (move ⟨program', text, anchoredEnd⟩ thread' instr') := by
  cases hinstr with
  | mark hslot =>
      simp only [move, h.offset]
      exact .proceed (h.next.setMark hprogram.slots hslot _)
  | check hslot =>
      simp only [move, h.offset, h.marks hslot]
      split
      · exact .fail
      · exact .proceed h.next
  | same hfree =>
      cases instr with
      | byte value => exact paired_consumeIf text anchoredEnd h _
      | set index =>
          simp only [move, hprogram.sets]
          exact paired_consumeIf text anchoredEnd h _
      | any => exact paired_consumeIf text anchoredEnd h _
      | split preferred other => exact .fork (h.goto preferred) (h.goto other)
      | jump target => exact .proceed (h.goto target)
      | openGroup group =>
          simp only [move, h.offset]
          exact .proceed (h.next.setOpened group _)
      | closeGroup group =>
          exact .proceed (h.next.close group)
      | backref group =>
          simp only [move, h.capture, h.offset, Machine.repeatsAt]
          cases thread.capture group with
          | none => exact .fail
          | some span =>
              dsimp only
              by_cases hrepeats : (Span.bytes ⟨thread.offset, thread.offset + span.length⟩ text ==
                  span.bytes text) = true
              · simp only [hrepeats, if_true]
                exact .proceed (h.consume span.length)
              · simp only [hrepeats]
                exact .fail
      | assert anchor =>
          simp only [move, h.offset]
          split
          · exact .proceed h.next
          · exact .fail
      | mark slot => cases hfree
      | check slot => cases hfree
      | accept =>
          simp only [move, h.offset]
          split
          · exact .fail
          · exact .accept

theorem paired_giveUp {related : Thread → Thread → Prop} {saved saved' : List Thread}
    (h : List.Forall₂ related saved saved') : (giveUp saved).Paired related (giveUp saved') := by
  cases h with
  | nil => exact .halts none
  | cons hthread hsaved => exact .continues (.resuming hthread hsaved)

theorem paired_step (hprogram : program.Paired paired program') {state state' : State}
    (h : state.Paired (Thread.Paired paired program.loops) state') :
    (step ⟨program, text, anchoredEnd⟩ state).Paired (Thread.Paired paired program.loops)
      (step ⟨program', text, anchoredEnd⟩ state') := by
  cases h with
  | resuming hthread hsaved => exact .continues (.running hthread hsaved)
  | @running thread thread' saved saved' hthread hsaved =>
      simp only [step, hthread.pc]
      rcases hprogram.code_at thread.pc with ⟨hnone, hnone'⟩ |
        ⟨instr, instr', hinstr, hinstr', hpaired⟩
      · simp only [hnone, hnone']
        exact paired_giveUp hsaved
      · simp only [hinstr, hinstr']
        have hmove := paired_move text anchoredEnd hprogram hthread hpaired
        generalize move ⟨program, text, anchoredEnd⟩ thread instr = first at hmove ⊢
        generalize move ⟨program', text, anchoredEnd⟩ thread' instr' = second at hmove ⊢
        cases hmove with
        | proceed hnext => exact .continues (.running hnext hsaved)
        | fork hpreferred hother => exact .continues (.running hpreferred (.cons hother hsaved))
        | fail => exact paired_giveUp hsaved
        | accept =>
            dsimp only
            rw [hthread.toMatch]
            exact .halts _

theorem run_halted_iff_of_paired (hprogram : program.Paired paired program') {steps left : Nat}
    {state state' : State} {answer : Option Match}
    (h : state.Paired (Thread.Paired paired program.loops) state') :
    run ⟨program', text, anchoredEnd⟩ steps state' = .halted answer left ↔
      run ⟨program, text, anchoredEnd⟩ steps state = .halted answer left := by
  induction steps generalizing state state' with
  | zero => simp [run]
  | succ steps ih =>
      rw [run, run]
      have hstep := paired_step text anchoredEnd hprogram h
      generalize step ⟨program, text, anchoredEnd⟩ state = first at hstep ⊢
      generalize step ⟨program', text, anchoredEnd⟩ state' = second at hstep ⊢
      cases hstep with
      | halts reached => exact Iff.rfl
      | continues hnext => exact ih hnext

end Copying

/-- Programs that differ in the names of their slots only are the same to every attempt. -/
theorem attempt_eq_of_paired {paired : Nat → Nat → Prop} {program program' : Program}
    (hprogram : program.Paired paired program') (text : Text) (anchoredEnd : Bool) (start : Nat) :
    (∀ limit, attempt program' text limit anchoredEnd start =
      attempt program text limit anchoredEnd start) ∧
    ∀ bound, stepsWithin? bound program' text anchoredEnd start =
      stepsWithin? bound program text anchoredEnd start := by
  apply attempt_eq_of_run_iff
  · simp only [Machine.threadBound, hprogram.size, hprogram.groups, hprogram.loops]
  · intro steps answer left
    rw [Machine.run_halted_iff_copied, Machine.run_halted_iff_copied]
    exact Copying.run_halted_iff_of_paired text anchoredEnd hprogram
      (.running (.start hprogram start) .nil)

end RegexSearch
