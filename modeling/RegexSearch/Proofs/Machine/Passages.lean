import Mathlib.Logic.Function.Basic
import RegexSearch.Proofs.Machine.Anchoring

/-!
Passages through groups. The thread that accepts has come from the first one along a path on which
each thread is a branch of the one before it. Whatever was tried beside this path has left nothing
behind: what a group has captured in the end is the span of its last passage on the path, from
where it was opened last to where it was closed.
-/

namespace RegexSearch

/-- A group is closed on a path. The span begins where the group was opened last, if it was. -/
structure Passage where
  group : Nat
  span : Option Span
  deriving DecidableEq, Repr

/-- The passages on a path of threads, where `opened` tells where each group was opened last before
it. Only the instructions and the offsets of the threads are looked at. -/
def Program.passages (program : Program) (opened : Nat → Option Nat) : List Thread → List Passage
  | [] => []
  | thread :: path =>
    match program.code[thread.pc]? with
    | some (.openGroup group) =>
      program.passages (Function.update opened group (some thread.offset)) path
    | some (.closeGroup group) =>
      ⟨group, (opened group).map fun start => ⟨start, thread.offset⟩⟩ ::
        program.passages opened path
    | _ => program.passages opened path

def lastPassage (passages : List Passage) (group : Nat) : Option Passage :=
  passages.reverse.find? (·.group == group)

theorem lastPassage_cons (first : Passage) (rest : List Passage) (group : Nat) :
    lastPassage (first :: rest) group =
      (lastPassage rest group).or (if first.group = group then some first else none) := by
  rw [lastPassage, List.reverse_cons, List.find?_append, lastPassage]
  by_cases hgroup : first.group = group <;> simp [hgroup]

namespace Machine

/-- A path of threads to one that accepts. -/
inductive AcceptingPath (machine : Machine) : List Thread → Thread → Prop
  | accepts {last : Thread} (h : machine.branches last = none) : AcceptingPath machine [last] last
  | goesOn {thread next last : Thread} {branches path : List Thread}
    (h : machine.branches thread = some branches) (hmem : next ∈ branches)
    (hpath : AcceptingPath machine (next :: path) last) :
    AcceptingPath machine (thread :: next :: path) last

variable {machine : Machine}

/-! ### Finding the path -/

theorem exists_of_firstAnswer {trial : Thread → Option (Option Match)} {threads : List Thread}
    {found : Match} (h : firstAnswer trial threads = some (some found)) :
    ∃ thread ∈ threads, trial thread = some (some found) := by
  induction threads with
  | nil => cases h
  | cons thread rest ih =>
      rw [firstAnswer] at h
      cases htrial : trial thread with
      | none => simp [htrial] at h
      | some reached =>
          rw [htrial] at h
          cases reached with
          | none =>
              obtain ⟨other, hmem, hother⟩ := ih h
              exact ⟨other, List.mem_cons_of_mem _ hmem, hother⟩
          | some first =>
              cases h
              exact ⟨thread, List.mem_cons_self, htrial⟩

/-- A match that a thread yields is that of a thread at the end of a path. -/
theorem exists_path_of_explore {depth : Nat} {thread : Thread} {found : Match}
    (h : machine.explore depth thread = some (some found)) :
    ∃ path last, machine.AcceptingPath (thread :: path) last ∧ found = last.toMatch := by
  induction depth generalizing thread with
  | zero => cases h
  | succ depth ih =>
      rw [explore] at h
      cases hbranches : machine.branches thread with
      | none =>
          rw [hbranches] at h
          exact ⟨[], thread, .accepts hbranches, (Option.some.inj (Option.some.inj h)).symm⟩
      | some branches =>
          rw [hbranches] at h
          obtain ⟨next, hmem, hnext⟩ := exists_of_firstAnswer h
          obtain ⟨path, last, hpath, hfound⟩ := ih hnext
          exact ⟨next :: path, last, .goesOn hbranches hmem hpath, hfound⟩

/-! ### What a path captures -/

/-- What a branch remembers of the groups: an opening and a closing change one entry each. -/
theorem memory_of_branch {thread next : Thread} {branches : List Thread}
    (h : machine.branches thread = some branches) (hmem : next ∈ branches) :
    (∃ group, machine.program.code[thread.pc]? = some (.openGroup group) ∧
      next.registers = thread.registers ∧
      next.opens = thread.opens.setIfInBounds group (some thread.offset)) ∨
    (∃ group, machine.program.code[thread.pc]? = some (.closeGroup group) ∧
      next.registers = (thread.close group).registers ∧ next.opens = thread.opens) ∨
    ((∀ group, machine.program.code[thread.pc]? ≠ some (.openGroup group) ∧
      machine.program.code[thread.pc]? ≠ some (.closeGroup group)) ∧
      next.registers = thread.registers ∧ next.opens = thread.opens) := by
  obtain ⟨instr, continued, records, hinstr, heffect, hbranch⟩ := exists_effect_of_branch h hmem
  rw [hinstr]
  rcases effect_proceed heffect with ⟨pc, offset, -, -, rfl, rfl⟩ |
    ⟨preferred, other, rfl, rfl, rfl⟩ | ⟨group, rfl, rfl, rfl⟩ | ⟨group, rfl, rfl, rfl⟩ |
    ⟨slot, rfl, rfl, rfl⟩
  · right; right
    rw [List.mem_singleton.mp hbranch]
    refine ⟨?_, rfl, rfl⟩
    intro group
    constructor
    · rintro ⟨⟩
      simp [effect] at heffect
    · rintro ⟨⟩
      simp [effect] at heffect
  · right; right
    simp only [pending, List.mem_cons, List.not_mem_nil, or_false] at hbranch
    rcases hbranch with rfl | rfl
    · exact ⟨by simp, rfl, rfl⟩
    · exact ⟨by simp, rfl, rfl⟩
  · left
    rw [List.mem_singleton.mp hbranch]
    exact ⟨group, rfl, rfl, rfl⟩
  · right; left
    rw [List.mem_singleton.mp hbranch]
    exact ⟨group, rfl, rfl, rfl⟩
  · right; right
    rw [List.mem_singleton.mp hbranch]
    exact ⟨by simp, rfl, rfl⟩

/-- A thread knows where each group was opened last, and has room for so many groups. -/
structure Remembers (count : Nat) (opened : Nat → Option Nat) (thread : Thread) : Prop where
  registers : thread.registers.size = 2 * count
  opens : thread.opens.size = count
  opened : ∀ group < count, thread.openedAt group = opened group

/-- What the path behind a branch captures is what the path from its thread on captures. -/
theorem exists_opened_of_branch {count : Nat} {opened : Nat → Option Nat}
    {thread next : Thread} {branches : List Thread} (hthread : Remembers count opened thread)
    (h : machine.branches thread = some branches) (hmem : next ∈ branches) :
    ∃ opened', Remembers count opened' next ∧ ∀ path, ∀ group < count,
      (lastPassage (machine.program.passages opened (thread :: path)) group).elim
          (thread.capture group) Passage.span =
        (lastPassage (machine.program.passages opened' path) group).elim
          (next.capture group) Passage.span := by
  rcases memory_of_branch h hmem with ⟨group, hinstr, hsame, hwritten⟩ |
    ⟨group, hinstr, hwritten, hsame⟩ | ⟨hinstr, hregisters, hopens⟩
  · refine ⟨Function.update opened group (some thread.offset),
      ⟨hsame ▸ hthread.registers, by simp [hwritten, hthread.opens], ?_⟩, ?_⟩
    · intro other hother
      rw [Thread.openedAt, hwritten]
      by_cases heq : other = group
      · subst heq
        simp [hthread.opens, hother]
      · rw [Function.update_of_ne heq, ← hthread.opened other hother, Thread.openedAt,
          Array.getD_eq_getD_getElem?, Array.getElem?_setIfInBounds_ne (Ne.symm heq),
          Array.getD_eq_getD_getElem?]
    · intro path other _
      rw [Program.passages, hinstr, Thread.capture_congr hsame]
  · refine ⟨opened, ⟨by simp [hwritten, hthread.registers], hsame ▸ hthread.opens, ?_⟩, ?_⟩
    · intro other hother
      rw [Thread.openedAt, hsame]
      exact hthread.opened other hother
    · intro path other hother
      rw [Program.passages, hinstr]
      dsimp only
      rw [lastPassage_cons]
      cases lastPassage (machine.program.passages opened path) other with
      | some passage => rfl
      | none =>
          rw [Thread.capture_congr hwritten]
          by_cases heq : group = other
          · subst heq
            have hsize := hthread.registers
            rw [Thread.capture_close (by omega), hthread.opened group hother]
            simp
          · rw [Thread.capture_close_of_ne (Ne.symm heq)]
            simp [heq]
  · refine ⟨opened, ⟨hregisters ▸ hthread.registers, hopens ▸ hthread.opens, ?_⟩, ?_⟩
    · intro other hother
      rw [Thread.openedAt, hopens]
      exact hthread.opened other hother
    · intro path other _
      have hpassages : machine.program.passages opened (thread :: path) =
          machine.program.passages opened path := by
        rw [Program.passages]
        split
        · rename_i group hopen
          exact absurd hopen (hinstr group).1
        · rename_i group hclose
          exact absurd hclose (hinstr group).2
        · rfl
      rw [hpassages, Thread.capture_congr hregisters]

/-- A group has captured the span of its last passage, or what it had captured before the path. -/
theorem capture_of_path {count : Nat} {path : List Thread} {last : Thread}
    (h : machine.AcceptingPath path last) {thread : Thread} (hhead : path.head? = some thread)
    {opened : Nat → Option Nat} (hthread : Remembers count opened thread) :
    last.registers.size = 2 * count ∧ ∀ group < count, last.capture group =
      (lastPassage (machine.program.passages opened path) group).elim (thread.capture group)
        Passage.span := by
  induction h generalizing thread opened with
  | accepts haccept =>
      cases hhead
      refine ⟨hthread.registers, ?_⟩
      intro group _
      rw [Program.passages, (accept_of_branches haccept).1]
      rfl
  | @goesOn first next last branches path hbranches hmem _ ih =>
      cases hhead
      obtain ⟨opened', hnext, hsame⟩ := exists_opened_of_branch hthread hbranches hmem
      obtain ⟨hsize, hcapture⟩ := ih rfl hnext
      refine ⟨hsize, ?_⟩
      intro group hgroup
      rw [hcapture group hgroup, hsame (next :: path) group hgroup]

end Machine

end RegexSearch
