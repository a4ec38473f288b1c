import RegexSearch.Proofs.Machine.Stages
import RegexSearch.Proofs.Program.Compiled

/-!
The machine never leaves its data. In a well-formed program a thread is always at an instruction,
its offset is in the text, and what its groups have captured can be cut out of the text. A thread
keeps this up whatever it does, and so do the threads that its log can resume, each with the
memory that it was saved with. The values on the log belong to registers, marks and branches that
exist.
-/

namespace RegexSearch

/-- A thread that is at an instruction, whose memory has the size that the program asks for, and
whose offsets are in order: no group was opened behind the offset, and a captured text begins
before it ends. -/
structure Thread.Safe (machine : Machine) (thread : Thread) : Prop where
  pc : thread.pc < machine.program.size
  offset : thread.offset ≤ machine.text.size
  registers_size : thread.registers.size = machine.program.registerCount
  opens_size : thread.opens.size = machine.program.groups + 1
  marks_size : thread.marks.size = machine.program.loops
  captures : ∀ group span, thread.capture group = some span →
    span.start ≤ span.stop ∧ span.stop ≤ machine.text.size
  opens : Holding (· ≤ thread.offset) thread.opens

/-- A record of the log belongs to a table entry or to a branch inside the program. -/
def Record.Safe (machine : Machine) : Record → Prop
  | branch pc offset => pc < machine.program.size ∧ offset ≤ machine.text.size
  | register index _ => index < machine.program.registerCount
  | opened group _ => 2 * group + 1 < machine.program.registerCount
  | mark slot _ => slot < machine.program.loops

namespace Config

/-- The thread that runs next. -/
def thread : Config → Thread
  | running thread _ => thread
  | resuming thread _ => thread

def log : Config → List Record
  | running _ log => log
  | resuming _ log => log

/-- All threads that remain to be tried are safe, and so are the records on the log. -/
structure Safe (machine : Machine) (config : Config) : Prop where
  threads : ∀ thread ∈ config.threads, thread.Safe machine
  log : ∀ record ∈ config.log, record.Safe machine

theorem Safe.safe_thread {machine : Machine} {config : Config} (h : config.Safe machine) :
    config.thread.Safe machine := by
  cases config <;> exact h.threads _ List.mem_cons_self

end Config

namespace Thread.Safe

variable {machine : Machine} {thread : Thread}

theorem moved (h : thread.Safe machine) {pc offset : Nat} (hpc : pc < machine.program.size)
    (hle : thread.offset ≤ offset) (hoffset : offset ≤ machine.text.size) :
    (thread.moved pc offset).Safe machine :=
  { h with
    pc := hpc
    offset := hoffset
    opens := fun noted hmem => Nat.le_trans (h.opens noted hmem) hle }

theorem goto (h : thread.Safe machine) {pc : Nat} (hpc : pc < machine.program.size) :
    (thread.goto pc).Safe machine :=
  h.moved hpc (Nat.le_refl _) h.offset

theorem setOpened (h : thread.Safe machine) (group : Nat) :
    (thread.setOpened group (some thread.offset)).Safe machine :=
  { h with
    opens_size := by simp [Thread.setOpened, h.opens_size]
    opens := h.opens.setIfInBounds (fun _ heq => Option.some.inj heq ▸ Nat.le_refl _) group }

theorem setMark (h : thread.Safe machine) (slot : Nat) (noted : Option Nat) :
    (thread.setMark slot noted).Safe machine :=
  { h with marks_size := by simp [Thread.setMark, h.marks_size] }

/-- A group was opened no further on in the text, so what it captures begins before it ends. -/
theorem close (h : thread.Safe machine) {group : Nat}
    (hgroup : 2 * group + 1 < machine.program.registerCount) :
    (thread.close group).Safe machine :=
  { h with
    registers_size := (thread.size_registers_close group).trans h.registers_size
    captures := by
      intro other span hspan
      by_cases hother : other = group
      · subst hother
        rw [Thread.capture_close (h.registers_size ▸ hgroup)] at hspan
        obtain ⟨start, hstart, rfl⟩ := Option.map_eq_some_iff.mp hspan
        exact ⟨h.opens.of_getD hstart, h.offset⟩
      · rw [Thread.capture_close_of_ne hother] at hspan
        exact h.captures other span hspan }

end Thread.Safe

theorem Instr.Fits.target_lt {bounds : Place} {registers target : Nat} {instr : Instr}
    (h : instr.Fits bounds registers) (htarget : target ∈ instr.targets) : target < bounds.pc := by
  cases instr with
  | split preferred other =>
      simp only [Instr.targets, List.mem_cons, List.not_mem_nil, or_false] at htarget
      rcases htarget with rfl | rfl
      · exact h.1
      · exact h.2
  | jump only =>
      rw [List.mem_singleton.mp htarget]
      exact h
  | _ => cases htarget

namespace Machine

variable {machine : Machine} {thread next : Thread} {instr : Instr} {records : List Record}

/-- An instruction that a thread survives is not the last one. -/
theorem next_lt_size (hprogram : machine.program.WellFormed)
    (hinstr : machine.program.code[thread.pc]? = some instr)
    (heffect : machine.effect thread instr = .proceed next records) :
    thread.pc + 1 < machine.program.size := by
  obtain ⟨hlt, -⟩ := Array.getElem?_eq_some_iff.mp hinstr
  apply Nat.lt_of_le_of_ne hlt
  intro hlast
  -- The last instruction accepts or fails, and no thread goes on behind it.
  have haccept := hprogram.accepts
  have hpc : machine.program.code.size - 1 = thread.pc := by
    change thread.pc + 1 = machine.program.code.size at hlast
    omega
  rw [Array.back?_eq_getElem?, hpc, hinstr] at haccept
  cases haccept
  simp only [effect] at heffect
  split at heffect <;> cases heffect

theorem fits_of_getElem? (hprogram : machine.program.WellFormed) {pc : Nat}
    (hinstr : machine.program.code[pc]? = some instr) :
    instr.Fits ⟨machine.program.size, machine.program.sets.size, machine.program.loops⟩
      machine.program.registerCount :=
  hprogram.fits instr (Array.mem_toList_iff.mpr (Array.mem_of_getElem? hinstr))

/-- No instruction takes a thread back in the text, or out of it. -/
theorem offset_le_of_passes (h : thread.Safe machine) {offset : Nat}
    (hpasses : machine.Passes thread offset) :
    thread.offset ≤ offset ∧ offset ≤ machine.text.size := by
  have hoffset := h.offset
  rcases hpasses with rfl | ⟨hlt, rfl⟩ | ⟨group, span, hspan, hrepeats, rfl⟩
  · exact ⟨Nat.le_refl _, hoffset⟩
  · omega
  · have hspan := (h.captures group span hspan).2
    exact ⟨Nat.le_add_right _ _, repeatsAt_le hspan hoffset hrepeats⟩

theorem effect_safe (hprogram : machine.program.WellFormed)
    (hinstr : machine.program.code[thread.pc]? = some instr) (h : thread.Safe machine)
    (heffect : machine.effect thread instr = .proceed next records) :
    (∀ branch ∈ next :: pending next records, branch.Safe machine) ∧
      ∀ record ∈ records, record.Safe machine := by
  have hfits := fits_of_getElem? hprogram hinstr
  have hnext := next_lt_size hprogram hinstr heffect
  have hadvance : thread.next.Safe machine := h.goto hnext
  rcases effect_proceed heffect with ⟨pc, offset, hpc, hpasses, rfl, rfl⟩ |
    ⟨preferred, other, rfl, rfl, rfl⟩ | ⟨group, rfl, rfl, rfl⟩ | ⟨group, rfl, rfl, rfl⟩ |
    ⟨slot, rfl, rfl, rfl⟩
  · have hplace : pc < machine.program.size := by
      rcases hpc with rfl | htarget
      · exact hnext
      · exact hfits.target_lt htarget
    obtain ⟨hle, hoffset⟩ := offset_le_of_passes h hpasses
    simp only [pending, List.mem_singleton, forall_eq, List.not_mem_nil, false_imp_iff,
      implies_true, and_true]
    exact h.moved hplace hle hoffset
  · obtain ⟨hpreferred, hother⟩ := hfits
    simp only [pending, List.mem_cons, List.not_mem_nil, or_false, forall_eq_or_imp, forall_eq]
    exact ⟨⟨h.goto hpreferred, h.goto hother⟩, hother, h.offset⟩
  · simp only [pending, List.mem_singleton, forall_eq]
    exact ⟨hadvance.setOpened group, hfits⟩
  · have hgroup : 2 * group + 1 < machine.program.registerCount := hfits
    simp only [pending, List.mem_cons, List.not_mem_nil, or_false, forall_eq_or_imp, forall_eq]
    exact ⟨hadvance.close hgroup, hgroup, Nat.lt_of_succ_lt hgroup⟩
  · simp only [pending, List.mem_singleton, forall_eq]
    exact ⟨hadvance.setMark slot _, hfits⟩

/-! ### Runs -/

theorem unwind_subset {log rest : List Record} {resumed : Thread}
    (h : unwind thread log = some (resumed, rest)) : rest ⊆ log := by
  induction log generalizing thread with
  | nil => cases h
  | cons record log ih =>
      have hsub : log ⊆ record :: log := List.subset_cons_self _ _
      cases record with
      | branch pc offset =>
          cases h
          exact hsub
      | register index before => exact List.Subset.trans (ih h) hsub
      | opened group before => exact List.Subset.trans (ih h) hsub
      | mark slot before => exact List.Subset.trans (ih h) hsub

theorem backtrack_safe {log : List Record} {config : Config}
    (hpending : ∀ branch ∈ pending thread log, branch.Safe machine)
    (hlog : ∀ record ∈ log, record.Safe machine) (h : backtrack thread log = .continues config) :
    config.Safe machine := by
  have hsearches := backtrack_searches thread log
  rw [h] at hsearches
  constructor
  · rw [hsearches]
    exact hpending
  · unfold backtrack at h
    split at h
    · rename_i resumed rest hunwind
      cases h
      exact fun record hmem => hlog record (unwind_subset hunwind hmem)
    · cases h

/-- A step from a safe state leads to a safe state. -/
theorem step_safe (hprogram : machine.program.WellFormed) {config after : Config}
    (h : config.Safe machine) (hstep : machine.step config = .continues after) :
    after.Safe machine := by
  cases config with
  | resuming thread log =>
      cases hstep
      exact ⟨h.threads, h.log⟩
  | running thread log =>
      have hthread := h.threads thread List.mem_cons_self
      have hpending : ∀ branch ∈ pending thread log, branch.Safe machine :=
        fun branch hmem => h.threads branch (List.mem_cons_of_mem _ hmem)
      rw [step] at hstep
      cases hinstr : machine.program.code[thread.pc]? with
      | none =>
          rw [hinstr] at hstep
          exact backtrack_safe hpending h.log hstep
      | some instr =>
          rw [hinstr] at hstep
          dsimp only at hstep
          cases heffect : machine.effect thread instr with
          | fail =>
              rw [heffect] at hstep
              exact backtrack_safe hpending h.log hstep
          | accept =>
              rw [heffect] at hstep
              cases hstep
          | proceed next records =>
              rw [heffect] at hstep
              cases hstep
              obtain ⟨hbranches, hrecords⟩ := effect_safe hprogram hinstr hthread heffect
              constructor
              -- Before an older branch is resumed, all that was overwritten is put back.
              · change ∀ branch ∈ next :: pending next (records ++ log), branch.Safe machine
                rw [pending_append, undo_effect heffect, pending_moved, ← List.cons_append]
                exact List.forall_mem_append.mpr ⟨hbranches, hpending⟩
              · exact List.forall_mem_append.mpr ⟨hrecords, h.log⟩

theorem initial_safe (hprogram : machine.program.WellFormed) {start : Nat}
    (hstart : start ≤ machine.text.size) : (machine.initial start).Safe machine := by
  have hpositive : 0 < machine.program.size := by
    apply Nat.pos_of_ne_zero
    intro hempty
    have haccept := hprogram.accepts
    rw [Array.eq_empty_of_size_eq_zero hempty] at haccept
    cases haccept
  have hthread : (Thread.start machine.program start).Safe machine :=
    { pc := hpositive
      offset := hstart
      registers_size := by simp [Thread.start]
      opens_size := by simp [Thread.start]
      marks_size := by simp [Thread.start]
      captures := by simp
      opens := Holding.replicate_none _ _ }
  constructor
  · exact fun thread hmem => List.mem_singleton.mp hmem ▸ hthread
  · intro record hmem
    cases hmem

theorem run_safe (hprogram : machine.program.WellFormed) {steps : Nat} {config after : Config}
    (h : config.Safe machine) (hrun : machine.run steps config = .paused after) :
    after.Safe machine := by
  induction steps generalizing config with
  | zero =>
      cases hrun
      exact h
  | succ steps ih =>
      rw [run] at hrun
      cases hstep : machine.step config with
      | halts answer =>
          rw [hstep] at hrun
          cases hrun
      | continues next =>
          rw [hstep] at hrun
          exact ih (step_safe hprogram h hstep) hrun

/-- An attempt comes to a state after fewer steps than the limit allows, so that it takes another
step from there. -/
def Visits (machine : Machine) (limit : StepLimit) (start : Nat) (config : Config) : Prop :=
  ∃ steps, (∀ most, limit = .atMost most → steps < most) ∧
    machine.run steps (machine.initial start) = .paused config

end Machine

/-- An attempt never leaves its data. The program refers to nothing outside of itself, and its last
instruction accepts. In every state of the attempt all threads and records are safe, and the thread
is at an instruction; the sets, registers and slots that this refers to exist, the thread has come
no further than the end of the text, and what its groups have captured lies in the text. -/
theorem visited_state_is_safe {maxUnroll start : Nat} {pattern : Bytes} {program : Program}
    {text : Text} {anchoredEnd : Bool} {limit : StepLimit} {config : Config}
    (hcompile : (compilePattern maxUnroll pattern).program = .ok program)
    (hstart : start ≤ text.size)
    (hvisits : (⟨program, text, anchoredEnd⟩ : Machine).Visits limit start config) :
    program.WellFormed ∧ config.Safe ⟨program, text, anchoredEnd⟩ ∧
      ∃ instr, program.code[config.thread.pc]? = some instr ∧
        instr.Fits ⟨program.size, program.sets.size, config.thread.marks.size⟩
          config.thread.registers.size ∧
        2 * config.thread.opens.size = config.thread.registers.size ∧
        config.thread.offset ≤ text.size ∧
        ∀ group span, config.thread.capture group = some span →
          span.start ≤ span.stop ∧ span.stop ≤ text.size := by
  have hprogram := wellFormed_of_compilePattern hcompile
  obtain ⟨steps, -, hrun⟩ := hvisits
  let machine : Machine := ⟨program, text, anchoredEnd⟩
  have hsafe : config.Safe machine :=
    Machine.run_safe hprogram (Machine.initial_safe hprogram hstart) hrun
  have hthread := hsafe.safe_thread
  refine ⟨hprogram, hsafe, _, Array.getElem?_eq_getElem hthread.pc, ?_, ?_, hthread.offset, ?_⟩
  · rw [hthread.marks_size, hthread.registers_size]
    exact Machine.fits_of_getElem? hprogram (Array.getElem?_eq_getElem hthread.pc)
  · rw [hthread.opens_size, hthread.registers_size, Program.registerCount]
  · exact hthread.captures

/-- After four steps of `(a)\1` on the text `aa`, the backreference is about to be executed. -/
theorem visited_state_is_safe_at_backreference :
    let program := Program.ofTree
      (.cat (.group 0 (some 1) (.atom 1 (.byte 97))) (.atom 3 (.backref 1))) 1
    let machine : Machine := ⟨program, #[97, 97], false⟩
    ∃ config, machine.run 4 (machine.initial 0) = .paused config ∧
      program.code[config.thread.pc]? = some (.backref 1) ∧ config.Safe machine := by
  intro program machine
  have hcompile : (compilePattern 2000 (ascii "(a)\\1")).program = .ok program := rfl
  have hstart : 0 ≤ machine.text.size := Nat.zero_le _
  obtain ⟨config, hrun, hinstr⟩ : ∃ config,
      machine.run 4 (machine.initial 0) = .paused config ∧
        program.code[config.thread.pc]? = some (.backref 1) := ⟨_, rfl, rfl⟩
  have hvisits : machine.Visits .unlimited 0 config :=
    ⟨4, fun _ hlimit => (nomatch hlimit), hrun⟩
  exact ⟨config, hrun, hinstr, (visited_state_is_safe hcompile hstart hvisits).2.1⟩

end RegexSearch
