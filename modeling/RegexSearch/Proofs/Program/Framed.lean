import RegexSearch.Proofs.Machine.Anchoring
import RegexSearch.Proofs.Program.Anchored
import RegexSearch.Proofs.Program.Compiled

/-!
The frame of a program. The code of the tree stands between an instruction that opens the whole
match and two that close it and accept, and it neither leaves its place for these nor touches the
whole match. So a thread opens the whole match where the attempt starts and comes to the accepting
instruction from the one before it only: what it accepts with goes from the start of the attempt to
the offset of the thread.
-/

namespace RegexSearch

/-- The instructions around the code of a tree, and what that code leaves to them. -/
structure Program.Framed (program : Program) : Prop where
  size : 2 < program.size
  opens : program.code[0]? = some (.openGroup 0)
  opened : ∀ {pc : Nat}, program.code[pc]? = some (.openGroup 0) → pc = 0
  closes : ∀ {pc : Nat} {instr : Instr}, program.code[pc]? = some instr → pc + 2 = program.size →
    instr = .closeGroup 0
  accepts : ∀ {pc : Nat}, program.code[pc]? = some .accept → pc + 1 = program.size
  targets : ∀ {pc target : Nat} {instr : Instr}, program.code[pc]? = some instr →
    target ∈ instr.targets → 0 < target ∧ target + 1 < program.size

/-- Where an instruction of the program of a tree stands. -/
theorem Program.code_ofTree_cases {tree : Tree} {groups pc : Nat} {instr : Instr}
    (h : (ofTree tree groups).code[pc]? = some instr) :
    pc = 0 ∧ instr = .openGroup 0 ∨
      0 < pc ∧ pc ≤ tree.codeSize ∧ instr ∈ tree.code ⟨1, 0, 0⟩ ∨
      pc = tree.codeSize + 1 ∧ instr = .closeGroup 0 ∨
      pc = tree.codeSize + 2 ∧ instr = .accept := by
  simp only [ofTree, wrap, List.cons_append, List.getElem?_toArray] at h
  cases pc with
  | zero => exact .inl ⟨rfl, (Option.some.inj h).symm⟩
  | succ pc =>
      rw [List.getElem?_cons_succ, List.getElem?_append, Tree.length_code] at h
      split at h
      · rename_i hlt
        exact .inr (.inl ⟨Nat.succ_pos pc, hlt, List.mem_of_getElem? h⟩)
      · rename_i hge
        obtain ⟨behind, rfl⟩ := Nat.exists_eq_add_of_le (Nat.le_of_not_lt hge)
        rw [Nat.add_sub_cancel_left] at h
        cases behind with
        | zero => exact .inr (.inr (.inl ⟨rfl, (Option.some.inj h).symm⟩))
        | succ behind =>
            cases behind with
            | zero => exact .inr (.inr (.inr ⟨rfl, (Option.some.inj h).symm⟩))
            | succ behind => cases h

theorem framed_ofTree {tree : Tree} {groups : Nat} (hgrouped : tree.Grouped groups) :
    (Program.ofTree tree groups).Framed := by
  have hsize := Program.size_ofTree tree groups
  have hcode := confined_code (List.Subset.refl tree.groups) (List.Subset.refl tree.references)
    (Place.Le.refl ⟨1, 0, 0⟩) (Place.Le.refl (Place.after ⟨1, 0, 0⟩ tree))
  constructor
  · omega
  · exact code_zero_ofTree tree groups
  · intro pc h
    rcases Program.code_ofTree_cases h with ⟨hpc, -⟩ | ⟨-, -, hmem⟩ | ⟨-, hinstr⟩ | ⟨-, hinstr⟩
    · exact hpc
    · exact absurd (hcode _ hmem) hgrouped.zero_notMem
    · cases hinstr
    · cases hinstr
  · intro pc instr h hpc
    rcases Program.code_ofTree_cases h with ⟨rfl, -⟩ | ⟨-, hle, -⟩ | ⟨-, hinstr⟩ | ⟨hlast, -⟩
    · omega
    · omega
    · exact hinstr
    · omega
  · intro pc h
    rcases Program.code_ofTree_cases h with ⟨-, hinstr⟩ | ⟨-, -, hmem⟩ | ⟨-, hinstr⟩ | ⟨hpc, -⟩
    · cases hinstr
    · exact (hcode _ hmem).elim
    · cases hinstr
    · omega
  · intro pc instr target h htarget
    rcases Program.code_ofTree_cases h with ⟨-, rfl⟩ | ⟨-, -, hmem⟩ | ⟨-, rfl⟩ | ⟨-, rfl⟩
    · cases htarget
    · have hbounds := (hcode _ hmem).target htarget
      simp only [Place.after] at hbounds
      omega
    · cases htarget
    · cases htarget

theorem framed_of_compilePattern {maxUnroll : Nat} {pattern : Bytes} {program : Program}
    (h : (compilePattern maxUnroll pattern).program = .ok program) : program.Framed := by
  obtain ⟨tree, hcompile⟩ := exists_tree_of_program h
  obtain ⟨hprogram, hgrouped⟩ := ofTree_of_compilePattern hcompile
  rw [hprogram]
  exact framed_ofTree hgrouped

/-- A thread of an attempt at `start`, which has opened the whole match there. Once it is at the
last instruction, it has captured it. -/
structure Thread.Framed (program : Program) (start : Nat) (thread : Thread) : Prop where
  offset : start ≤ thread.offset
  registers_size : 1 < thread.registers.size
  opens_size : 0 < thread.opens.size
  begins : thread.pc = 0 → thread.offset = start
  opened : 0 < thread.pc → thread.openedAt 0 = some start
  captured : thread.pc + 1 = program.size → thread.capture 0 = some ⟨start, thread.offset⟩

namespace Thread.Framed

variable {program : Program} {start : Nat} {thread : Thread}

/-- Nothing but closing the whole match takes a thread to the last instruction. -/
theorem moved (h : thread.Framed program start) (hpositive : 0 < thread.pc) {pc offset : Nat}
    (hpc : 0 < pc) (hlast : pc + 1 ≠ program.size) (hle : thread.offset ≤ offset) :
    (thread.moved pc offset).Framed program start where
  offset := Nat.le_trans h.offset hle
  registers_size := h.registers_size
  opens_size := h.opens_size
  begins := fun hzero => absurd hzero hpc.ne'
  opened := fun _ => h.opened hpositive
  captured := fun heq => absurd heq hlast

theorem setMark (h : thread.Framed program start) (slot : Nat) (noted : Option Nat) :
    (thread.setMark slot noted).Framed program start :=
  { h with }

theorem close (h : thread.Framed program start) (hlast : thread.pc + 1 ≠ program.size)
    (group : Nat) : (thread.close group).Framed program start :=
  { h with
    registers_size := (thread.size_registers_close group).symm ▸ h.registers_size
    captured := fun heq => absurd heq hlast }

theorem setOpened (h : thread.Framed program start) {group : Nat} (hgroup : group ≠ 0)
    (noted : Option Nat) : (thread.setOpened group noted).Framed program start :=
  { h with
    opens_size := by simpa [Thread.setOpened] using h.opens_size
    opened := fun hpositive => by
      rw [← h.opened hpositive]
      simp [Thread.openedAt, Thread.setOpened, Array.getElem?_setIfInBounds_ne hgroup] }

theorem openWhole (h : thread.Framed program start) (hprogram : program.Framed)
    (hpc : thread.pc = 0) :
    (thread.next.setOpened 0 (some thread.offset)).Framed program start where
  offset := h.offset
  registers_size := h.registers_size
  opens_size := by simpa [Thread.setOpened, Thread.next] using h.opens_size
  begins := fun hzero => absurd hzero (Nat.succ_ne_zero _)
  opened := fun _ => by
    have hsize := h.opens_size
    simp [Thread.openedAt, Thread.setOpened, Thread.next, h.begins hpc, hsize]
  captured := fun hlast => by
    have hsize := hprogram.size
    simp only [Thread.setOpened, Thread.next] at hlast
    omega

theorem closeWhole (h : thread.Framed program start) (hpc : 0 < thread.pc) :
    (thread.next.close 0).Framed program start where
  offset := h.offset
  registers_size := (thread.next.size_registers_close 0).symm ▸ h.registers_size
  opens_size := h.opens_size
  begins := fun hzero => absurd hzero (Nat.succ_ne_zero _)
  opened := fun _ => h.opened hpc
  captured := fun _ => by
    have hopened : thread.next.openedAt 0 = some start := h.opened hpc
    rw [capture_close h.registers_size, hopened]
    rfl

end Thread.Framed

namespace Machine

variable {machine : Machine}

theorem framed_start (hprogram : machine.program.Framed) (start : Nat) :
    ∀ thread ∈ (machine.initial start).threads, thread.Framed machine.program start := by
  have hsize := hprogram.size
  intro thread hmem
  rw [List.mem_singleton.mp hmem]
  constructor
  · exact Nat.le_refl start
  · simp only [Thread.start, Array.size_replicate, Program.registerCount]
    omega
  · simp [Thread.start]
  · exact fun _ => rfl
  · exact fun hpc => absurd hpc (Nat.lt_irrefl 0)
  · intro hlast
    simp only [Thread.start] at hlast
    omega

/-- The frame is kept by every instruction: it is the first one that opens the whole match, and the
last but one that captures it. -/
theorem inherited_framed (hprogram : machine.program.Framed) (start : Nat) :
    machine.Inherited (·.Framed machine.program start) := by
  apply inherited_of_effect
  intro thread next instr records h hinstr heffect
  have hfirst (hother : instr ≠ .openGroup 0) : 0 < thread.pc := by
    apply Nat.pos_of_ne_zero
    intro hzero
    rw [hzero, hprogram.opens] at hinstr
    exact hother (Option.some.inj hinstr).symm
  have hlast (hother : instr ≠ .closeGroup 0) : thread.pc + 1 + 1 ≠ machine.program.size :=
    fun hsize => hother (hprogram.closes hinstr hsize)
  have hnext (hopen : instr ≠ .openGroup 0) (hclose : instr ≠ .closeGroup 0) :
      thread.next.Framed machine.program start :=
    h.moved (hfirst hopen) (Nat.succ_pos _) (hlast hclose) (Nat.le_refl _)
  rcases effect_proceed heffect with ⟨pc, offset, hpc, hpasses, rfl, rfl⟩ |
    ⟨preferred, other, rfl, rfl, rfl⟩ | ⟨group, rfl, rfl, rfl⟩ | ⟨group, rfl, rfl, rfl⟩ |
    ⟨slot, rfl, rfl, rfl⟩
  · -- An instruction that puts nothing on the log neither opens nor closes a group.
    have hopen : instr ≠ .openGroup 0 := by
      rintro rfl
      simp [effect] at heffect
    have hclose : instr ≠ .closeGroup 0 := by
      rintro rfl
      simp [effect] at heffect
    have hplace : 0 < pc ∧ pc + 1 ≠ machine.program.size := by
      rcases hpc with rfl | htarget
      · exact ⟨Nat.succ_pos _, hlast hclose⟩
      · obtain ⟨hpositive, hlt⟩ := hprogram.targets hinstr htarget
        exact ⟨hpositive, hlt.ne⟩
    simp only [pending, List.mem_singleton, forall_eq]
    exact h.moved (hfirst hopen) hplace.1 hplace.2 hpasses.le
  · have hsplit (target : Nat) (htarget : target ∈ [preferred, other]) :
        (thread.moved target thread.offset).Framed machine.program start := by
      obtain ⟨hpositive, hlt⟩ := hprogram.targets hinstr htarget
      exact h.moved (hfirst Instr.noConfusion) hpositive hlt.ne (Nat.le_refl _)
    simp only [pending, List.mem_cons, List.not_mem_nil, or_false, forall_eq_or_imp, forall_eq]
    exact ⟨hsplit preferred (by simp), hsplit other (by simp)⟩
  · simp only [pending, List.mem_singleton, forall_eq]
    by_cases hgroup : group = 0
    · subst hgroup
      exact h.openWhole hprogram (hprogram.opened hinstr)
    · have hother : Instr.openGroup group ≠ .openGroup 0 := by simpa using hgroup
      exact (hnext hother Instr.noConfusion).setOpened hgroup _
  · simp only [pending, List.mem_singleton, forall_eq]
    have hpositive := hfirst Instr.noConfusion
    by_cases hclose : thread.pc + 1 + 1 = machine.program.size
    · cases hprogram.closes hinstr hclose
      exact h.closeWhole hpositive
    · exact (h.moved hpositive (Nat.succ_pos _) hclose (Nat.le_refl _)).close hclose group
  · simp only [pending, List.mem_singleton, forall_eq]
    exact (hnext Instr.noConfusion Instr.noConfusion).setMark slot _

/-- A thread that accepts has captured the whole match up to its offset. -/
theorem capture_of_framed (hprogram : machine.program.Framed) {start : Nat} {thread : Thread}
    (h : thread.Framed machine.program start) (haccept : machine.branches thread = none) :
    thread.capture 0 = some ⟨start, thread.offset⟩ :=
  h.captured (hprogram.accepts (accept_of_branches haccept).1)

theorem span_of_framed (hprogram : machine.program.Framed) {start : Nat} {thread : Thread}
    (h : thread.Framed machine.program start) (haccept : machine.branches thread = none) :
    thread.toMatch.span = ⟨start, thread.offset⟩ :=
  Thread.span_toMatch (capture_of_framed hprogram h haccept)

end Machine

/-- The first group of a match is the whole match. -/
theorem head?_groups_of_attempt {program : Program} (hprogram : program.Framed) {text : Text}
    {limit : StepLimit} {anchoredEnd : Bool} {start : Nat} {found : Match}
    (hstart : start ≤ text.size)
    (h : attempt program text limit anchoredEnd start = .ok (some found)) :
    found.groups.head? = some (some found.span) := by
  let machine : Machine := ⟨program, text, anchoredEnd⟩
  have hsize : start ≤ machine.text.size := hstart
  have hframed : machine.program.Framed := hprogram
  obtain ⟨steps, left, hrun⟩ := Machine.exists_halted_of_answer hsize h
  obtain ⟨thread, hthread, haccept, rfl⟩ :=
    (Machine.inherited_framed hframed start).exists_accepting (Machine.framed_start hframed start)
      hrun
  have hcapture := Machine.capture_of_framed hframed hthread haccept
  rw [Thread.head?_groups_toMatch, Thread.span_toMatch hcapture]
  exact hcapture

end RegexSearch
