import Mathlib.Data.Nat.Digits.Defs
import Mathlib.Data.Fintype.Card
import Mathlib.Data.Fintype.Prod
import RegexSearch.Proofs.Machine.Search

/-!
Attempts without a limit. A search that ends needs no more depth than there are threads: if it
needs a depth, some branch needs exactly one less, so along the way there is a thread for every
smaller depth, and threads that need different depths are different. Threads inside the text are
counted by writing one down as a number, with its offset, registers, openings and marks as digits;
this gives the bound that the number of stages is computed from. Hence an attempt without a limit
reports an answer if and only if its run halts, which is `answer_unlimited_iff`.
-/

namespace RegexSearch

/-- The positions that control may be at, inside the program or outside of it. -/
def Program.places (program : Program) : List Nat :=
  List.range (program.size + 1) ++ program.code.toList.flatMap Instr.targets

/-- All values in a table satisfy a condition. -/
def Holding {α : Type} (condition : α → Prop) (table : Array (Option α)) : Prop :=
  ∀ value, some value ∈ table → condition value

theorem Holding.setIfInBounds {α : Type} {condition : α → Prop} {table : Array (Option α)}
    (h : Holding condition table) {value : Option α} (hvalue : ∀ v, value = some v → condition v)
    (index : Nat) : Holding condition (table.setIfInBounds index value) := by
  intro v hv
  rcases Array.mem_or_eq_of_mem_setIfInBounds hv with hold | hnew
  · exact h v hold
  · exact hvalue v hnew.symm

theorem Holding.of_getD {α : Type} {condition : α → Prop} {table : Array (Option α)}
    (h : Holding condition table) {index : Nat} {value : α}
    (hvalue : table.getD index none = some value) : condition value := by
  by_cases hindex : index < table.size
  · apply h
    simp only [Array.getD, hindex, ↓reduceDIte] at hvalue
    rw [← hvalue]
    exact Array.getElem_mem hindex
  · simp [Array.getD, hindex] at hvalue

theorem Holding.replicate_none {α : Type} (condition : α → Prop) (count : Nat) :
    Holding condition (Array.replicate count none) := by
  intro value hvalue
  simp at hvalue

/-- A thread whose offsets all lie in the text, and whose memory has the size that the program
asks for. -/
structure Thread.Inside (machine : Machine) (thread : Thread) : Prop where
  pc : thread.pc ∈ machine.program.places
  offset : thread.offset ≤ machine.text.size
  registers_size : thread.registers.size = machine.program.registerCount
  opens_size : thread.opens.size = machine.program.groups + 1
  marks_size : thread.marks.size = machine.program.loops
  registers : Holding (· ≤ machine.text.size) thread.registers
  opens : Holding (· ≤ machine.text.size) thread.opens
  marks : Holding (· ≤ machine.text.size) thread.marks

namespace Machine

variable {machine : Machine}

theorem start_inside {start : Nat} (hstart : start ≤ machine.text.size) :
    (Thread.start machine.program start).Inside machine where
  pc := by simp [Thread.start, Program.places]
  offset := hstart
  registers_size := by simp [Thread.start]
  opens_size := by simp [Thread.start]
  marks_size := by simp [Thread.start]
  registers := Holding.replicate_none _ _
  opens := Holding.replicate_none _ _
  marks := Holding.replicate_none _ _

/-- A repetition of captured text ends inside the text. -/
theorem repeatsAt_le {span : Span} {offset : Nat} (hstop : span.stop ≤ machine.text.size)
    (hoffset : offset ≤ machine.text.size) (h : machine.repeatsAt span offset) :
    offset + span.length ≤ machine.text.size := by
  have hbytes := congrArg List.length (eq_of_beq h)
  simp only [Span.bytes, Array.length_toList, Array.size_extract] at hbytes
  simp only [Span.length] at hbytes ⊢
  omega

theorem passes_le {thread : Thread} (h : thread.Inside machine) {offset : Nat}
    (hpasses : machine.Passes thread offset) : offset ≤ machine.text.size := by
  have hoffset := h.offset
  rcases hpasses with rfl | ⟨hlt, rfl⟩ | ⟨group, span, hspan, hrepeats, rfl⟩
  · exact hoffset
  · omega
  · have hstop := h.registers.of_getD (Thread.capture_eq_some_iff.mp hspan).2
    exact repeatsAt_le hstop hoffset hrepeats

end Machine

namespace Thread.Inside

variable {machine : Machine} {thread : Thread}

theorem moved (h : thread.Inside machine) {pc offset : Nat}
    (hpc : pc ∈ machine.program.places) (hoffset : offset ≤ machine.text.size) :
    (thread.moved pc offset).Inside machine :=
  { h with pc := hpc, offset := hoffset }

theorem setOpened (h : thread.Inside machine) (group : Nat) {noted : Option Nat}
    (hnoted : ∀ offset, noted = some offset → offset ≤ machine.text.size) :
    (thread.setOpened group noted).Inside machine :=
  { h with
    opens_size := by simp [Thread.setOpened, h.opens_size]
    opens := h.opens.setIfInBounds hnoted group }

theorem setMark (h : thread.Inside machine) (slot : Nat) {noted : Option Nat}
    (hnoted : ∀ offset, noted = some offset → offset ≤ machine.text.size) :
    (thread.setMark slot noted).Inside machine :=
  { h with
    marks_size := by simp [Thread.setMark, h.marks_size]
    marks := h.marks.setIfInBounds hnoted slot }

theorem setRegister (h : thread.Inside machine) (index : Nat) {noted : Option Nat}
    (hnoted : ∀ offset, noted = some offset → offset ≤ machine.text.size) :
    (thread.setRegister index noted).Inside machine :=
  { h with
    registers_size := by simp [Thread.setRegister, h.registers_size]
    registers := h.registers.setIfInBounds hnoted index }

theorem close (h : thread.Inside machine) (group : Nat) : (thread.close group).Inside machine := by
  have hopened : (thread.setRegister (2 * group) (thread.openedAt group)).Inside machine :=
    h.setRegister _ fun _ hnoted => h.opens.of_getD hnoted
  apply hopened.setRegister
  rintro offset ⟨⟩
  exact h.offset

end Thread.Inside

namespace Machine

variable {machine : Machine}

theorem mem_places_of_target {pc target : Nat} {instr : Instr}
    (hinstr : machine.program.code[pc]? = some instr) (htarget : target ∈ instr.targets) :
    target ∈ machine.program.places := by
  apply List.mem_append_right
  have hmem : instr ∈ machine.program.code.toList :=
    Array.mem_toList_iff.mpr (Array.mem_of_getElem? hinstr)
  exact List.mem_flatMap.mpr ⟨instr, hmem, htarget⟩

theorem mem_places_of_next {pc : Nat} {instr : Instr}
    (hinstr : machine.program.code[pc]? = some instr) : pc + 1 ∈ machine.program.places := by
  obtain ⟨hlt, -⟩ := Array.getElem?_eq_some_iff.mp hinstr
  apply List.mem_append_left
  exact List.mem_range.mpr (Nat.succ_lt_succ hlt)

/-- A thread inside the text stays inside, whatever it does. -/
theorem effect_inside {thread next : Thread} {instr : Instr} {records : List Record}
    (hinstr : machine.program.code[thread.pc]? = some instr) (h : thread.Inside machine)
    (heffect : machine.effect thread instr = .proceed next records) :
    ∀ branch ∈ next :: pending next records, branch.Inside machine := by
  have hnext := mem_places_of_next hinstr
  have hadvance : thread.next.Inside machine := h.moved hnext h.offset
  have hhere : ∀ offset, some thread.offset = some offset → offset ≤ machine.text.size := by
    rintro offset ⟨⟩
    exact h.offset
  rcases effect_proceed heffect with ⟨pc, offset, hpc, hpasses, rfl, rfl⟩ |
    ⟨preferred, other, rfl, rfl, rfl⟩ | ⟨group, rfl, rfl, rfl⟩ | ⟨group, rfl, rfl, rfl⟩ |
    ⟨slot, rfl, rfl, rfl⟩
  · have hplace : pc ∈ machine.program.places := by
      rcases hpc with rfl | htarget
      · exact hnext
      · exact mem_places_of_target hinstr htarget
    simp only [pending, List.mem_singleton, forall_eq]
    exact h.moved hplace (passes_le h hpasses)
  · have hpreferred := mem_places_of_target hinstr (List.mem_cons_self (a := preferred))
    have hother : other ∈ machine.program.places :=
      mem_places_of_target hinstr (List.mem_cons_of_mem _ (List.mem_singleton_self _))
    intro branch hbranch
    simp only [pending, List.mem_cons, List.not_mem_nil, or_false] at hbranch
    rcases hbranch with rfl | rfl
    · exact h.moved hpreferred h.offset
    · exact h.moved hother h.offset
  · simp only [pending, List.mem_singleton, forall_eq]
    exact hadvance.setOpened group hhere
  · simp only [pending, List.mem_singleton, forall_eq]
    exact hadvance.close group
  · simp only [pending, List.mem_singleton, forall_eq]
    exact hadvance.setMark slot hhere

theorem branches_inside {thread : Thread} {next : List Thread} (h : thread.Inside machine)
    (hbranches : machine.branches thread = some next) :
    ∀ branch ∈ next, branch.Inside machine := by
  unfold branches at hbranches
  split at hbranches
  · cases hbranches
    simp
  · rename_i instr hinstr
    split at hbranches
    · rename_i heffect
      cases hbranches
      exact effect_inside hinstr h heffect
    · cases hbranches
      simp
    · cases hbranches

/-! ### Depth -/

/-- A search from a thread needs to go deeper than `depth`, but not by more than one. -/
def Needs (machine : Machine) (depth : Nat) (thread : Thread) : Prop :=
  machine.explore depth thread = none ∧ (machine.explore (depth + 1) thread).isSome

theorem Needs.unique {depth depth' : Nat} {thread : Thread} (h : machine.Needs depth thread)
    (h' : machine.Needs depth' thread) : depth = depth' := by
  have hle {low high : Nat} (hlow : machine.Needs low thread)
      (hhigh : machine.Needs high thread) : high ≤ low := by
    by_contra hlt
    obtain ⟨answer, hanswer⟩ := Option.isSome_iff_exists.mp hlow.2
    have hknown := explore_mono (by omega : low + 1 ≤ high) hanswer
    rw [hhigh.1] at hknown
    cases hknown
  exact Nat.le_antisymm (hle h' h) (hle h h')

/-- If a better trial can search a list of threads and a worse one cannot, some thread of the list
makes the difference. -/
theorem exists_of_firstAnswer_none {trial better : Thread → Option (Option Match)}
    (hbetter : ∀ thread answer, trial thread = some answer → better thread = some answer)
    {threads : List Thread} (hnone : firstAnswer trial threads = none)
    (hsome : (firstAnswer better threads).isSome) :
    ∃ thread ∈ threads, trial thread = none ∧ (better thread).isSome := by
  induction threads with
  | nil => cases hnone
  | cons thread rest ih =>
      simp only [firstAnswer] at hnone hsome
      cases htrial : trial thread with
      | none =>
          refine ⟨thread, List.mem_cons_self, htrial, ?_⟩
          cases hthread : better thread with
          | none => simp [hthread] at hsome
          | some answer => rfl
      | some answer =>
          rw [hbetter thread answer htrial] at hsome
          rw [htrial] at hnone
          cases answer with
          | some found => cases hnone
          | none =>
              obtain ⟨other, hmem, hother⟩ := ih hnone hsome
              exact ⟨other, List.mem_cons_of_mem _ hmem, hother⟩

/-- A search that needs more than one level has a branch that needs exactly one less. -/
theorem Needs.branch {depth : Nat} {thread : Thread} (h : machine.Needs (depth + 1) thread) :
    ∃ next branch, machine.branches thread = some next ∧ branch ∈ next ∧
      machine.Needs depth branch := by
  obtain ⟨hnone, hsome⟩ := h
  rw [explore] at hnone hsome
  cases hbranches : machine.branches thread with
  | none => simp [hbranches] at hnone
  | some next =>
      rw [hbranches] at hnone hsome
      obtain ⟨branch, hmem, hneeds⟩ :=
        exists_of_firstAnswer_none (fun _ _ => explore_succ) hnone hsome
      exact ⟨next, branch, rfl, hmem, hneeds⟩

/-- On the way down there is a thread for every smaller depth. -/
theorem Needs.exists_of_le {depth : Nat} {thread : Thread} (h : machine.Needs depth thread)
    (hinside : thread.Inside machine) {smaller : Nat} (hle : smaller ≤ depth) :
    ∃ below : Thread, below.Inside machine ∧ machine.Needs smaller below := by
  induction depth generalizing thread with
  | zero =>
      obtain rfl := Nat.le_zero.mp hle
      exact ⟨thread, hinside, h⟩
  | succ depth ih =>
      by_cases hlast : smaller = depth + 1
      · subst hlast
        exact ⟨thread, hinside, h⟩
      · obtain ⟨next, branch, hbranches, hmem, hneeds⟩ := h.branch
        exact ih hneeds (branches_inside hinside hbranches branch hmem) (by omega)

/-- A search that ends, but not at a depth, needs some depth from there on. -/
theorem exists_needs {depth enough : Nat} {thread : Thread} {answer : Option Match}
    (hnone : machine.explore depth thread = none)
    (hsome : machine.explore enough thread = some answer) :
    ∃ needed, depth ≤ needed ∧ machine.Needs needed thread := by
  induction enough with
  | zero => cases hsome
  | succ enough ih =>
      cases hless : machine.explore enough thread with
      | some reached =>
          have hsame := explore_succ hless
          rw [hsome] at hsame
          cases hsame
          exact ih hless
      | none =>
          refine ⟨enough, ?_, hless, by rw [hsome]; rfl⟩
          by_contra hlt
          have hknown := explore_mono (by omega : enough + 1 ≤ depth) hsome
          rw [hnone] at hknown
          cases hknown

end Machine

/-! ### Counting threads -/

/-- An optional offset as a digit. -/
def offsetDigit : Option Nat → Nat
  | none => 0
  | some offset => offset + 1

/-- Everything that a thread knows, apart from its place in the program. -/
def Thread.digits (thread : Thread) : List Nat :=
  thread.offset :: (thread.registers.toList.map offsetDigit ++
    thread.opens.toList.map offsetDigit ++ thread.marks.toList.map offsetDigit)

theorem offsetDigit_injective : Function.Injective offsetDigit := by
  intro first second h
  cases first <;> cases second <;> simp_all [offsetDigit]

namespace Thread.Inside

variable {machine : Machine} {thread other : Thread}

theorem length_digits (h : thread.Inside machine) :
    thread.digits.length =
      3 * (machine.program.groups + 1) + machine.program.loops + 1 := by
  simp only [Thread.digits, List.length_cons, List.length_append, List.length_map,
    Array.length_toList, h.registers_size, h.opens_size, h.marks_size, Program.registerCount]
  omega

theorem digits_lt (h : thread.Inside machine) :
    ∀ digit ∈ thread.digits, digit < machine.text.size + 2 := by
  have htable {table : Array (Option Nat)} (hholding : Holding (· ≤ machine.text.size) table) :
      ∀ digit ∈ table.toList.map offsetDigit, digit < machine.text.size + 2 := by
    intro digit hdigit
    obtain ⟨noted, hmem, rfl⟩ := List.mem_map.mp hdigit
    cases noted with
    | none => exact Nat.succ_pos _
    | some offset =>
        have := hholding offset (Array.mem_toList_iff.mp hmem)
        simp only [offsetDigit]
        omega
  intro digit hdigit
  simp only [Thread.digits, List.mem_cons, List.mem_append] at hdigit
  rcases hdigit with rfl | (hdigit | hdigit) | hdigit
  · have := h.offset
    omega
  · exact htable h.registers digit hdigit
  · exact htable h.opens digit hdigit
  · exact htable h.marks digit hdigit

/-- Place and digits tell a thread from all others inside the same text. -/
theorem eq_of_digits (h : thread.Inside machine) (hother : other.Inside machine)
    (hpc : thread.pc = other.pc) (hdigits : thread.digits = other.digits) : thread = other := by
  simp only [Thread.digits, List.cons.injEq, List.append_assoc] at hdigits
  obtain ⟨hoffset, htables⟩ := hdigits
  obtain ⟨hregisters, htables⟩ := List.append_inj htables
    (by simp [h.registers_size, hother.registers_size])
  obtain ⟨hopens, hmarks⟩ := List.append_inj htables
    (by simp [h.opens_size, hother.opens_size])
  have hinjective := List.map_injective_iff.mpr offsetDigit_injective
  have hregisters := Array.toList_inj.mp (hinjective hregisters)
  have hopens := Array.toList_inj.mp (hinjective hopens)
  have hmarks := Array.toList_inj.mp (hinjective hmarks)
  cases thread
  cases other
  simp_all

end Thread.Inside

namespace Machine

variable {machine : Machine}

theorem length_places (program : Program) : program.places.length ≤ 3 * program.size + 1 := by
  have htargets (code : List Instr) : (code.flatMap Instr.targets).length ≤ 2 * code.length := by
    induction code with
    | nil => exact Nat.zero_le _
    | cons instr code ih =>
        have hinstr : instr.targets.length ≤ 2 := by cases instr <;> simp [Instr.targets]
        simp only [List.flatMap_cons, List.length_append, List.length_cons]
        omega
  have hcode := htargets program.code.toList
  simp only [Program.places, List.length_append, List.length_range, Program.size,
    Array.length_toList] at hcode ⊢
  omega

/-- No search needs more depth than there are threads: threads that need different depths differ
in their place or in their digits, and the digits of each make up a number. -/
theorem needs_lt_threadBound {depth : Nat} {thread : Thread} (hinside : thread.Inside machine)
    (h : machine.Needs depth thread) : depth < machine.threadBound := by
  classical
  let base := machine.text.size + 2
  let width := 3 * (machine.program.groups + 1) + machine.program.loops + 1
  choose below hbelow hneeds using
    fun smaller : Fin (depth + 1) => h.exists_of_le hinside (Nat.lt_succ_iff.mp smaller.isLt)
  have hbase : 1 < base := by omega
  have hnumber (smaller : Fin (depth + 1)) :
      Nat.ofDigits base (below smaller).digits < base ^ width := by
    have hlt := Nat.ofDigits_lt_base_pow_length hbase (hbelow smaller).digits_lt
    rwa [(hbelow smaller).length_digits] at hlt
  let code : Fin (depth + 1) → Fin machine.program.places.length × Fin (base ^ width) :=
    fun smaller =>
      (⟨machine.program.places.idxOf (below smaller).pc,
          List.idxOf_lt_length_iff.mpr (hbelow smaller).pc⟩,
        ⟨Nat.ofDigits base (below smaller).digits, hnumber smaller⟩)
  have hinjective : Function.Injective code := by
    intro first second heq
    obtain ⟨hplace, hdigits⟩ := Prod.mk.inj heq
    have hpc := (List.idxOf_inj (hbelow first).pc).mp (Fin.val_eq_of_eq hplace)
    have hdigits := Nat.ofDigits_inj_of_len_eq hbase
      ((hbelow first).length_digits.trans (hbelow second).length_digits.symm)
      (hbelow first).digits_lt (hbelow second).digits_lt (Fin.val_eq_of_eq hdigits)
    have hthread := (hbelow first).eq_of_digits (hbelow second) hpc hdigits
    have hsecond := hneeds second
    rw [← hthread] at hsecond
    exact Fin.ext ((hneeds first).unique hsecond)
  have hcard := Fintype.card_le_of_injective code hinjective
  simp only [Fintype.card_prod, Fintype.card_fin] at hcard
  have hplaces := Nat.mul_le_mul_right (base ^ width) (length_places machine.program)
  have hbound : (3 * machine.program.size + 1) * base ^ width = machine.threadBound := by
    simp only [threadBound, base, width, Nat.pow_eq, Nat.pow_succ]
    ring
  omega

theorem explore_threadBound {thread : Thread} (hinside : thread.Inside machine) {depth : Nat}
    {answer : Option Match} (h : machine.explore depth thread = some answer) :
    machine.explore machine.threadBound thread = some answer := by
  cases hbound : machine.explore machine.threadBound thread with
  | none =>
      obtain ⟨needed, hle, hneeds⟩ := exists_needs hbound h
      have hlt := needs_lt_threadBound hinside hneeds
      omega
  | some reached =>
      have hleft := explore_mono (Nat.le_max_left machine.threadBound depth) hbound
      have hright := explore_mono (Nat.le_max_right machine.threadBound depth) h
      exact hleft.symm.trans hright

/-- An attempt without a limit reports an answer exactly if the search of its first thread ends
with that answer. -/
theorem answer_unlimited_iff {start : Nat} (hstart : start ≤ machine.text.size)
    {answer : Option Match} :
    machine.answer .unlimited (machine.initial start) = .ok answer ↔
      machine.Yields [.start machine.program start] answer := by
  have hstages := @runStages_eq machine (machine.threadBound + 3) 1 (machine.initial start)
  constructor
  · intro h
    cases hrun : machine.run ((2 ^ (machine.threadBound + 3) - 1) * 1) (machine.initial start) with
    | paused stopped =>
        rw [hrun] at hstages
        simp only [Machine.answer, hstages] at h
        cases h
    | halted reached left =>
        rw [hrun] at hstages
        simp only [Machine.answer, hstages, Except.ok.injEq] at h
        subst h
        exact yields_of_run hrun
  · intro h
    obtain ⟨depth, hdepth⟩ := yields_singleton_iff.mp h
    have hexplore := explore_threadBound (start_inside hstart) hdepth
    have hthreads : (machine.initial start).threads = [.start machine.program start] := rfl
    obtain ⟨steps, next, hsteps, hleads, hfollows⟩ := leads_of_explore hexplore hthreads
    have hhalts : next = .halts answer := by
      cases answer with
      | some found => exact hfollows
      | none =>
          cases next with
          | halts reached => rw [hfollows.1]
          | continues stopped => cases stopped <;> cases hfollows
    rw [hhalts] at hleads
    have hpow : 2 ^ (machine.threadBound + 3) = 4 * 2 ^ (machine.threadBound + 1) := by
      rw [Nat.pow_succ, Nat.pow_succ]
      omega
    obtain ⟨left, hleft⟩ : ∃ left, (2 ^ (machine.threadBound + 3) - 1) * 1 = steps + left :=
      ⟨(2 ^ (machine.threadBound + 3) - 1) * 1 - steps, by omega⟩
    have hrun := hleads left
    rw [← hleft] at hrun
    simp only [Machine.answer, hstages, hrun]

end Machine

end RegexSearch
