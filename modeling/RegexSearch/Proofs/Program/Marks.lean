import RegexSearch.Proofs.Program.Consuming
import RegexSearch.Proofs.Program.Entries

/-!
The marks of loops. Each slot belongs to one loop of the program, which marks it at the beginning
of its rounds and checks it at their end, and nothing else uses the slot. A thread at a check has
come through its round from the mark on, since nothing leads into the midst of a round, so what
it finds in the slot is the offset at which this round has begun. Branches that were tried in
between and given up have left no trace of it.
-/

namespace RegexSearch

/-! ### Slots -/

/-- The program of a tree marks and checks the slots of its guarded loops, each where its rounds
begin and end. -/
theorem HasRound.mark_check {table : Array Instr} {body : Tree} {place : Place} {loop : Loop}
    {slot : Nat} (hround : HasRound body 0 table.toList place loop)
    (hslot : loop.slot = some slot) :
    table[loop.first]? = some (.mark slot) ∧ table[loop.last]? = some (.check slot) ∧
      loop.first < loop.last := by
  obtain ⟨round, hstands, -, hinstrs⟩ := hround
  cases hinstrs with
  | bare => cases hslot
  | guarded middle =>
      cases hslot
      obtain ⟨⟨hmark, -⟩, hcheck, -⟩ := laidAt_append.mp hstands.laid
      exact ⟨hmark, hcheck, Nat.lt_succ_of_le (Nat.le_add_right _ _)⟩

section Slots

variable {tree : Tree} {groups : Nat}

theorem Tree.mark_check_of_mem_loops {loop : Loop} {slot : Nat}
    (hloop : loop ∈ tree.loops ⟨1, 0, 0⟩) (hslot : loop.slot = some slot) :
    (Program.ofTree tree groups).code[loop.first]? = some (.mark slot) ∧
      (Program.ofTree tree groups).code[loop.last]? = some (.check slot) := by
  obtain ⟨body, place, hround⟩ := Tree.hasRound_of_mem_loops hloop
  obtain ⟨hmark, hcheck, -⟩ :=
    (hround.of_stands (stands_ofTree tree groups)).mark_check hslot
  exact ⟨hmark, hcheck⟩

/-- The slots of a program are numbered from zero on, and each of them is that of one loop. -/
theorem Tree.slots_eq_range (tree : Tree) (groups : Nat) :
    (tree.loops ⟨1, 0, 0⟩).filterMap Loop.slot =
      List.range (Program.ofTree tree groups).loops := by
  rw [tree.slots_loops, List.range_eq_range']
  rfl

/-- An instruction that uses a slot stands where the loop of the slot has one. -/
theorem Table.Lawful.exists_loop {table : Table} (h : table.Lawful)
    (hfirst : table.entry ⟨1, 0, 0⟩ = 0) (hsize : table.size tree = tree.loopCount)
    {position : Loop → Nat}
    (hposition : ∀ loop ∈ tree.loops ⟨1, 0, 0⟩, ∀ slot, loop.slot = some slot →
      ∃ instr, (Program.ofTree tree groups).code[position loop]? = some instr ∧
        table.used? instr = some slot)
    {pc slot : Nat} {instr : Instr} (hinstr : (Program.ofTree tree groups).code[pc]? = some instr)
    (hslot : table.used? instr = some slot) :
    ∃ loop ∈ tree.loops ⟨1, 0, 0⟩, loop.slot = some slot ∧ position loop = pc := by
  have hused : slot ∈ (Program.ofTree tree groups).code.toList.filterMap table.used? :=
    List.mem_filterMap.mpr ⟨instr, Array.mem_toList_iff.mpr (Array.mem_of_getElem? hinstr), hslot⟩
  rw [(h.perm_ofTree tree groups).mem_iff, hfirst, hsize, ← tree.slots_loops ⟨1, 0, 0⟩] at hused
  obtain ⟨loop, hloop, hits⟩ := List.mem_filterMap.mp hused
  obtain ⟨other, hother, hsame⟩ := hposition loop hloop slot hits
  exact ⟨loop, hloop, hits, h.position_unique hother hinstr hsame hslot⟩

theorem mark_iff {pc slot : Nat} :
    (Program.ofTree tree groups).code[pc]? = some (.mark slot) ↔
      ∃ loop ∈ tree.loops ⟨1, 0, 0⟩, loop.slot = some slot ∧ loop.first = pc := by
  constructor
  · intro h
    refine Table.lawful_marks.exists_loop rfl rfl ?_ h rfl
    exact fun loop hloop slot hslot => ⟨_, (Tree.mark_check_of_mem_loops hloop hslot).1, rfl⟩
  · rintro ⟨loop, hloop, hslot, rfl⟩
    exact (Tree.mark_check_of_mem_loops hloop hslot).1

theorem check_iff {pc slot : Nat} :
    (Program.ofTree tree groups).code[pc]? = some (.check slot) ↔
      ∃ loop ∈ tree.loops ⟨1, 0, 0⟩, loop.slot = some slot ∧ loop.last = pc := by
  constructor
  · intro h
    refine Table.lawful_checks.exists_loop rfl rfl ?_ h rfl
    exact fun loop hloop slot hslot => ⟨_, (Tree.mark_check_of_mem_loops hloop hslot).2, rfl⟩
  · rintro ⟨loop, hloop, hslot, rfl⟩
    exact (Tree.mark_check_of_mem_loops hloop hslot).2

end Slots

/-! ### Rounds -/

/-- A thread in the midst of a round stands on a path that has begun the round and not left it. -/
theorem HasRound.exists_begun_of_path {machine : Machine} {body : Tree} {place : Place}
    {loop : Loop} {start : Nat} {thread : Thread} {path : List Thread}
    (hround : HasRound body 0 machine.program.code.toList place loop)
    (h : machine.Path start (thread :: path))
    (hinside : loop.first < thread.pc ∧ thread.pc ≤ loop.last) :
    ∃ during begun before, path = during ++ begun :: before ∧ begun.pc = loop.first ∧
      ∀ later ∈ during, loop.first < later.pc ∧ later.pc < loop.last := by
  induction path generalizing thread with
  | nil =>
      cases h
      exact absurd hinside.1 (Nat.not_lt_zero _)
  | cons previous path ih =>
      cases h with
      | goesOn hstep hpath =>
          have hprevious := hround.of_goesOn hstep hinside
          rcases Nat.eq_or_lt_of_le hprevious.1 with hfirst | hlt
          · exact ⟨[], previous, path, rfl, hfirst.symm, nofun⟩
          · obtain ⟨during, begun, before, rfl, hbegun, hduring⟩ := ih hpath ⟨hlt, hprevious.2.le⟩
            exact ⟨previous :: during, begun, before, rfl, hbegun,
              List.forall_mem_cons.mpr ⟨⟨hlt, hprevious.2⟩, hduring⟩⟩

/-- The slots of a compiled program are numbered from zero on in the order of its guarded loops,
and each is marked and checked by its own loop only. A thread that is about to check a slot stands
at the end of a round of that loop, which the latest mark of the slot on its path has begun, and
finds the offset of that mark, whatever has been tried and given up before. -/
theorem mark_of_current_round {maxUnroll : Nat} {pattern : Bytes} {tree : Tree} {program : Program}
    (hcompile : compilePattern maxUnroll pattern = ⟨some tree, .ok program⟩) (text : Text)
    (anchoredEnd : Bool) :
    let machine : Machine := ⟨program, text, anchoredEnd⟩
    let loops := tree.loops ⟨1, 0, 0⟩
    loops.filterMap Loop.slot = List.range program.loops ∧
    (∀ pc slot, program.code[pc]? = some (.mark slot) ↔
      ∃ loop ∈ loops, loop.slot = some slot ∧ loop.first = pc) ∧
    (∀ pc slot, program.code[pc]? = some (.check slot) ↔
      ∃ loop ∈ loops, loop.slot = some slot ∧ loop.last = pc) ∧
    ∀ start steps config, machine.run steps (machine.initial start) = .paused config →
      ∀ slot, program.code[config.thread.pc]? = some (.check slot) →
        ∃ loop ∈ loops, loop.slot = some slot ∧ loop.last = config.thread.pc ∧
          machine.Path start (config.thread :: machine.wayAfter start steps) ∧
          ∃ during begun before, machine.wayAfter start steps = during ++ begun :: before ∧
            begun.pc = loop.first ∧ program.code[begun.pc]? = some (.mark slot) ∧
            (∀ later ∈ during, loop.first < later.pc ∧ later.pc < loop.last ∧
              program.code[later.pc]? ≠ some (.mark slot)) ∧
            config.thread.markedAt slot = some begun.offset := by
  obtain ⟨groups, rfl⟩ : ∃ groups, program = Program.ofTree tree groups :=
    ⟨_, ofTree_of_lower (result_of_compilePattern hcompile).2⟩
  intro machine loops
  have hslots := tree.slots_eq_range groups
  refine ⟨hslots, fun _ _ => mark_iff, fun _ _ => check_iff, ?_⟩
  intro start steps config hrun slot hcheck
  obtain ⟨loop, hloop, hslot, hlast⟩ := check_iff.mp hcheck
  obtain ⟨body, place, hinner⟩ := Tree.hasRound_of_mem_loops hloop
  have hround : HasRound body 0 machine.program.code.toList place loop :=
    hinner.of_stands (stands_ofTree tree groups)
  obtain ⟨hmark, -, hlt⟩ := hround.mark_check hslot
  have hpath := Machine.path_of_run hrun
  obtain ⟨during, begun, before, hway, hbegun, hduring⟩ :=
    hround.exists_begun_of_path hpath ⟨hlast ▸ hlt, Nat.le_of_eq hlast.symm⟩
  have hmarked : machine.program.code[begun.pc]? = some (.mark slot) := hbegun ▸ hmark
  have hunmarked : ∀ later ∈ during, machine.program.code[later.pc]? ≠ some (.mark slot) := by
    intro later hlater hother
    have hsame := Table.lawful_marks.position_unique hother hmark rfl rfl
    exact Nat.ne_of_gt (hduring later hlater).1 hsame
  have hbound : slot < machine.program.loops := by
    have hmem : slot ∈ loops.filterMap Loop.slot := List.mem_filterMap.mpr ⟨loop, hloop, hslot⟩
    rw [hslots] at hmem
    exact List.mem_range.mp hmem
  refine ⟨loop, hloop, hslot, hlast, hpath, during, begun, before, hway, hbegun, hmarked, ?_, ?_⟩
  · intro later hlater
    obtain ⟨hfirst, hend⟩ := hduring later hlater
    exact ⟨hfirst, hend, hunmarked later hlater⟩
  · exact hpath.markedAt_eq hway hbound hmarked hunmarked

/-- In `(?:(?:a?)*b?)*` on the text `a`, the second round of the outer loop has tried the inner one
and turned back twice when it comes to its end: it has begun behind the byte. -/
theorem mark_of_current_round_of_nested :
    let inner : Tree := .rep (.group 3 none (.rep (.atom 6 (.byte 97)) ⟨0, some 1, true⟩))
      ⟨0, none, true⟩
    let tree : Tree := .rep (.group 0 none
      (.cat inner (.rep (.atom 10 (.byte 98)) ⟨0, some 1, true⟩))) ⟨0, none, true⟩
    let program := Program.ofTree tree 0
    let machine : Machine := ⟨program, #[97], false⟩
    let thread : Thread := ⟨11, 1, #[none, none], #[some 0], #[some 1, some 0]⟩
    compilePattern 2000 (ascii "(?:(?:a?)*b?)*") = ⟨some tree, .ok program⟩ ∧
      program.code[thread.pc]? = some (.check 0) ∧
      ∃ during begun before, machine.wayAfter 0 33 = during ++ begun :: before ∧
        program.code[begun.pc]? = some (.mark 0) ∧
        (∀ later ∈ during, program.code[later.pc]? ≠ some (.mark 0)) ∧
        thread.markedAt 0 = some begun.offset := by
  intro inner tree program machine thread
  have hcompile : compilePattern 2000 (ascii "(?:(?:a?)*b?)*") = ⟨some tree, .ok program⟩ := rfl
  obtain ⟨-, -, -, hrounds⟩ := mark_of_current_round hcompile #[97] false
  have hrun : machine.run 33 (machine.initial 0) = .paused (.running thread
      [.mark 0 (some 0), .branch 13 1, .branch 7 0, .mark 1 none, .branch 9 0, .mark 0 none,
        .branch 13 0, .opened 0 none]) := by decide +kernel
  have hcheck : program.code[thread.pc]? = some (.check 0) := rfl
  obtain ⟨loop, -, -, -, -, during, begun, before, hway, -, hmarked, hduring, hmark⟩ :=
    hrounds 0 33 _ hrun 0 hcheck
  exact ⟨hcompile, hcheck, during, begun, before, hway, hmarked,
    fun later hlater => (hduring later hlater).2.2, hmark⟩

end RegexSearch
