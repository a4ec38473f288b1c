import Mathlib.Data.List.Forall2
import Mathlib.Logic.Relation
import RegexSearch.Proofs.Machine.Anchoring
import RegexSearch.Proofs.Machine.Safety

/-!
How a state has been reached. While the machine runs, the threads on the way to the present one
are written down, and for each branch on the log the threads on the way to it: a thread that goes
on is added to its own way, and a thread that is given up takes its way with it. What is written
down is a path from the beginning of the attempt on which every thread is a branch of the one
before it, however often the machine has turned back. So whatever a thread holds has come about
on its own path.
-/

namespace RegexSearch

/-- The threads on the way to the thread of a state, the latest first, and those on the way to each
branch on its log. -/
structure Trail where
  path : List Thread
  saved : List (List Thread)
  deriving DecidableEq, Repr

namespace Machine

/-- One of the threads that a thread may go on as. -/
def GoesOn (machine : Machine) (thread next : Thread) : Prop :=
  ∃ branches, machine.branches thread = some branches ∧ next ∈ branches

/-- What a thread comes to by going on any number of times. -/
def ComesTo (machine : Machine) : Thread → Thread → Prop :=
  Relation.ReflTransGen machine.GoesOn

/-- A path from the beginning of an attempt, the latest thread first. -/
inductive Path (machine : Machine) (start : Nat) : List Thread → Prop
  | start : Path machine start [.start machine.program start]
  | goesOn {thread next : Thread} {path : List Thread} (h : machine.GoesOn thread next)
    (hpath : Path machine start (thread :: path)) : Path machine start (next :: thread :: path)

/-- What is written down for a step from a state: a thread that goes on stands on the way to all of
its branches, and a thread that is given up leaves the way to the latest branch on the log. -/
def record (machine : Machine) (trail : Trail) : Config → Trail
  | .resuming .. => trail
  | .running thread _ =>
    match machine.branches thread, trail.saved with
    | some (_ :: others), saved =>
      ⟨thread :: trail.path, others.map (fun _ => thread :: trail.path) ++ saved⟩
    | _, path :: saved => ⟨path, saved⟩
    | _, [] => trail

/-- What is written down in so many steps from a state. -/
def recordFrom (machine : Machine) : Nat → Config → Trail → Trail
  | 0, _, trail => trail
  | steps + 1, config, trail =>
    match machine.step config with
    | .halts _ => trail
    | .continues next => machine.recordFrom steps next (machine.record trail config)

/-- The way to the thread of an attempt after so many steps, the latest thread first. -/
def wayAfter (machine : Machine) (start steps : Nat) : List Thread :=
  (machine.recordFrom steps (machine.initial start) ⟨[], []⟩).path

variable {machine : Machine} {thread next : Thread} {start : Nat}

/-! ### What is written down is a path -/

/-- Each thread of a state stands at the end of the path that is written down for it. -/
def Trail.Fits (machine : Machine) (start : Nat) (config : Config) (trail : Trail) : Prop :=
  List.Forall₂ (fun thread path => machine.Path start (thread :: path)) config.threads
    (trail.path :: trail.saved)

theorem fits_initial (machine : Machine) (start : Nat) :
    Trail.Fits machine start (machine.initial start) ⟨[], []⟩ :=
  .cons .start .nil

theorem fits_step {config after : Config} {trail : Trail}
    (h : Trail.Fits machine start config trail) (hstep : machine.step config = .continues after) :
    Trail.Fits machine start after (machine.record trail config) := by
  cases config with
  | resuming thread log =>
      cases hstep
      exact h
  | running thread log =>
      obtain ⟨path, saved⟩ := trail
      cases h with
      | cons hthread hpending =>
      cases hbranches : machine.branches thread with
      | none =>
          rw [step_running_of_accept hbranches] at hstep
          cases hstep
      | some branches =>
          have hsearches : (machine.step (.running thread log)).Searches
              (branches ++ pending thread log) := step_running_searches hbranches
          rw [hstep] at hsearches
          have hthreads : after.threads = branches ++ pending thread log := hsearches
          rw [Trail.Fits, hthreads]
          cases branches with
          | nil =>
              cases saved with
              | nil =>
                  have hnone := List.forall₂_nil_right_iff.mp hpending
                  rw [hnone] at hthreads
                  cases after <;> cases hthreads
              | cons path saved =>
                  simp only [record, hbranches]
                  exact hpending
          | cons first others =>
              have hpath (branch : Thread) (hmem : branch ∈ first :: others) :
                  machine.Path start (branch :: thread :: path) :=
                .goesOn ⟨_, hbranches, hmem⟩ hthread
              obtain ⟨hfirst, hothers⟩ := List.forall_mem_cons.mp hpath
              simp only [record, hbranches]
              refine .cons hfirst (List.rel_append ?_ hpending)
              exact List.forall₂_map_right_iff.mpr (List.forall₂_same.mpr hothers)

theorem fits_run {steps : Nat} {config after : Config} {trail : Trail}
    (h : Trail.Fits machine start config trail) (hrun : machine.run steps config = .paused after) :
    Trail.Fits machine start after (machine.recordFrom steps config trail) := by
  induction steps generalizing config trail with
  | zero =>
      cases hrun
      exact h
  | succ steps ih =>
      rw [run] at hrun
      rw [recordFrom]
      cases hstep : machine.step config with
      | halts answer =>
          rw [hstep] at hrun
          cases hrun
      | continues following =>
          rw [hstep] at hrun
          exact ih (fits_step h hstep) hrun

/-- The thread of an attempt after so many steps stands at the end of the way that is written down
for it. -/
theorem path_of_run {steps : Nat} {config : Config}
    (hrun : machine.run steps (machine.initial start) = .paused config) :
    machine.Path start (config.thread :: machine.wayAfter start steps) := by
  have hfits := fits_run (fits_initial machine start) hrun
  cases config with
  | running thread log => cases hfits with | cons hthread _ => exact hthread
  | resuming thread log => cases hfits with | cons hthread _ => exact hthread

/-! ### What a thread does to its place and to its marks -/

/-- All that can become of a thread: it moves on in the program and in the text, and besides it
opens or closes a group or sets a mark. -/
theorem goesOn_cases (h : machine.GoesOn thread next) :
    ∃ instr, machine.program.code[thread.pc]? = some instr ∧
      ((∃ pc offset, (pc = thread.pc + 1 ∨ pc ∈ instr.targets) ∧ thread.offset ≤ offset ∧
        (∀ slot, instr ≠ .mark slot) ∧ next = thread.moved pc offset) ∨
      (∃ group, instr = .openGroup group ∧
        next = thread.next.setOpened group (some thread.offset)) ∨
      (∃ group, instr = .closeGroup group ∧
        next = thread.next.close group) ∨
      ∃ slot, instr = .mark slot ∧ next = thread.next.setMark slot (some thread.offset)) := by
  obtain ⟨branches, hbranches, hmem⟩ := h
  obtain ⟨instr, continued, records, hinstr, heffect, hbranch⟩ :=
    exists_effect_of_branch hbranches hmem
  refine ⟨instr, hinstr, ?_⟩
  rcases effect_proceed heffect with ⟨pc, offset, hpc, hpasses, rfl, rfl⟩ |
    ⟨preferred, other, rfl, rfl, rfl⟩ | ⟨group, rfl, rfl, rfl⟩ | ⟨group, rfl, rfl, rfl⟩ |
    ⟨slot, rfl, rfl, rfl⟩
  · left
    rw [List.mem_singleton.mp hbranch]
    refine ⟨pc, offset, hpc, hpasses.le, ?_, rfl⟩
    rintro slot rfl
    simp [effect] at heffect
  · left
    simp only [pending, List.mem_cons, List.not_mem_nil, or_false] at hbranch
    rcases hbranch with rfl | rfl
    · refine ⟨preferred, _, .inr List.mem_cons_self, Nat.le_refl _, ?_, rfl⟩
      exact fun _ => Instr.noConfusion
    · refine ⟨other, _, .inr (by simp [Instr.targets]), Nat.le_refl _, ?_, rfl⟩
      exact fun _ => Instr.noConfusion
  · right; left
    exact ⟨group, rfl, List.mem_singleton.mp hbranch⟩
  · right; right; left
    exact ⟨group, rfl, List.mem_singleton.mp hbranch⟩
  · right; right; right
    exact ⟨slot, rfl, List.mem_singleton.mp hbranch⟩

theorem pc_of_goesOn (h : machine.GoesOn thread next) :
    ∃ instr, machine.program.code[thread.pc]? = some instr ∧
      (next.pc = thread.pc + 1 ∨ next.pc ∈ instr.targets) := by
  obtain ⟨instr, hinstr, hcases⟩ := goesOn_cases h
  refine ⟨instr, hinstr, ?_⟩
  rcases hcases with ⟨pc, offset, hpc, -, -, rfl⟩ | ⟨group, -, rfl⟩ | ⟨group, -, rfl⟩ |
    ⟨slot, -, rfl⟩
  · exact hpc
  · exact .inl rfl
  · exact .inl rfl
  · exact .inl rfl

/-- No thread goes back in the text. -/
theorem offset_le_of_goesOn (h : machine.GoesOn thread next) : thread.offset ≤ next.offset := by
  obtain ⟨instr, -, hcases⟩ := goesOn_cases h
  rcases hcases with ⟨pc, offset, -, hle, -, rfl⟩ | ⟨group, -, rfl⟩ | ⟨group, -, rfl⟩ |
    ⟨slot, -, rfl⟩
  · exact hle
  · exact Nat.le_refl _
  · exact Nat.le_refl _
  · exact Nat.le_refl _

theorem ComesTo.offset_le (h : machine.ComesTo thread next) : thread.offset ≤ next.offset := by
  induction h with
  | refl => exact Nat.le_refl _
  | tail _ hstep ih => exact Nat.le_trans ih (offset_le_of_goesOn hstep)

/-- A marking instruction writes the mark of its slot, and no other instruction writes a mark. -/
theorem marks_of_goesOn (h : machine.GoesOn thread next) :
    (∃ slot, machine.program.code[thread.pc]? = some (.mark slot) ∧
      next.marks = thread.marks.setIfInBounds slot (some thread.offset)) ∨
    ((∀ slot, machine.program.code[thread.pc]? ≠ some (.mark slot)) ∧
      next.marks = thread.marks) := by
  obtain ⟨instr, hinstr, hcases⟩ := goesOn_cases h
  rw [hinstr]
  rcases hcases with ⟨pc, offset, -, -, hnone, rfl⟩ | ⟨group, rfl, rfl⟩ | ⟨group, rfl, rfl⟩ |
    ⟨slot, rfl, rfl⟩
  · exact .inr ⟨fun slot heq => hnone slot (Option.some.inj heq), rfl⟩
  · exact .inr ⟨by simp, rfl⟩
  · exact .inr ⟨by simp, rfl⟩
  · exact .inl ⟨slot, rfl, rfl⟩

/-! ### Paths -/

namespace Path

variable {path : List Thread}

/-- The threads on a path come to the last one. -/
theorem comesTo (h : machine.Path start (thread :: path)) :
    ∀ earlier ∈ path, machine.ComesTo earlier thread := by
  induction path generalizing thread with
  | nil => exact fun _ hmem => nomatch hmem
  | cons previous path ih =>
      cases h with
      | goesOn hstep hpath =>
          have hlast : machine.ComesTo previous thread := .single hstep
          refine List.forall_mem_cons.mpr ⟨hlast, ?_⟩
          exact fun earlier hmem => (ih hpath earlier hmem).trans hlast

theorem marks_size (h : machine.Path start (thread :: path)) :
    thread.marks.size = machine.program.loops := by
  induction path generalizing thread with
  | nil =>
      cases h
      simp [Thread.start]
  | cons previous path ih =>
      cases h with
      | goesOn hstep hpath =>
          rcases marks_of_goesOn hstep with ⟨slot, -, hmarks⟩ | ⟨-, hmarks⟩
          · rw [hmarks, Array.size_setIfInBounds]
            exact ih hpath
          · rw [hmarks]
            exact ih hpath

/-- A mark is the offset of the thread on the path that has set it last. -/
theorem markedAt_eq {slot : Nat} {marked : Thread} {during before : List Thread}
    (h : machine.Path start (thread :: path)) (hpath : path = during ++ marked :: before)
    (hslot : slot < machine.program.loops)
    (hmarked : machine.program.code[marked.pc]? = some (.mark slot))
    (hduring : ∀ later ∈ during, machine.program.code[later.pc]? ≠ some (.mark slot)) :
    thread.markedAt slot = some marked.offset := by
  subst hpath
  induction during generalizing thread with
  | nil =>
      cases h with
      | goesOn hstep hpath =>
          rcases marks_of_goesOn hstep with ⟨other, hother, hmarks⟩ | ⟨hnone, -⟩
          · cases hmarked.symm.trans hother
            have hsize := hpath.marks_size
            simp [Thread.markedAt, hmarks, hsize, hslot]
          · exact absurd hmarked (hnone slot)
  | cons previous during ih =>
      obtain ⟨hprevious, hduring⟩ := List.forall_mem_cons.mp hduring
      cases h with
      | goesOn hstep hpath =>
          rw [← ih hduring hpath]
          rcases marks_of_goesOn hstep with ⟨other, hother, hmarks⟩ | ⟨-, hmarks⟩
          · have hne : other ≠ slot := by
              rintro rfl
              exact hprevious hother
            simp [Thread.markedAt, hmarks, Array.getElem?_setIfInBounds_ne hne]
          · rw [Thread.markedAt, hmarks, Thread.markedAt]

end Path

end Machine

end RegexSearch
