import RegexSearch.Proofs.Machine.Trail
import RegexSearch.Proofs.Program.Attempt
import RegexSearch.Proofs.Program.Returns
import RegexSearch.Proofs.Program.Rounds

/-!
Code that consumes. A part of a pattern that may not match the empty text has code that no thread
gets through without going on in the text, whatever is laid out around it and whatever the thread
brings along. The code is left at its end only, so it is enough to look at what a thread comes to
once it is outside. The rounds of a loop without a mark are passages through such code.
-/

namespace RegexSearch

theorem LaidAt.mem {α : Type} {table : Array α} {first index : Nat} {entries : List α} {entry : α}
    (h : LaidAt table first entries) (hentry : table[index]? = some entry) (hfirst : first ≤ index)
    (hlast : index < first + entries.length) : entry ∈ entries := by
  induction entries generalizing first with
  | nil => exact absurd hlast (Nat.not_lt_of_le hfirst)
  | cons head rest ih =>
      rcases Nat.eq_or_lt_of_le hfirst with rfl | hlt
      · cases h.1.symm.trans hentry
        exact List.mem_cons_self
      · apply List.mem_cons_of_mem
        apply ih h.2 hlt
        rw [List.length_cons] at hlast
        omega

namespace Machine

variable {machine : Machine} {entered left : Thread}

/-- Whoever gets out of a stretch whose branches stay inside comes through its end. -/
theorem exists_exit {first last : Nat}
    (hinside : ∀ {pc target : Nat} {instr : Instr}, machine.program.code[pc]? = some instr →
      first ≤ pc → pc < last → target ∈ instr.targets → first ≤ target ∧ target ≤ last)
    (h : machine.ComesTo entered left) (hentered : first ≤ entered.pc ∧ entered.pc ≤ last)
    (hleft : left.pc < first ∨ last ≤ left.pc) :
    ∃ exit : Thread, exit.pc = last ∧ machine.ComesTo entered exit ∧ machine.ComesTo exit left := by
  induction h using Relation.ReflTransGen.head_induction_on with
  | refl => exact ⟨left, by omega, .refl, .refl⟩
  | @head thread next hstep hrest ih =>
      rcases Nat.eq_or_lt_of_le hentered.2 with hlast | hlt
      · exact ⟨thread, hlast, .refl, .head hstep hrest⟩
      · obtain ⟨instr, hinstr, hpc⟩ := pc_of_goesOn hstep
        have hnext : first ≤ next.pc ∧ next.pc ≤ last := by
          rcases hpc with hpc | htarget
          · omega
          · exact hinside hinstr hentered.1 hlt htarget
        obtain ⟨exit, hexit, hbefore, hbehind⟩ := ih hnext
        exact ⟨exit, hexit, .head hstep hbefore, hbehind⟩

/-- The instructions for a byte, a set or any byte take a thread further on. -/
theorem offset_lt_of_consumeIf {next : Thread} {instr : Instr} {condition : Byte → Bool}
    (hcode : machine.program.code[entered.pc]? = some instr)
    (heffect : machine.effect entered instr = machine.consumeIf entered condition)
    (h : machine.GoesOn entered next) : entered.offset < next.offset := by
  obtain ⟨branches, hbranches, hmem⟩ := h
  obtain ⟨other, continued, records, hother, hproceed, hbranch⟩ :=
    exists_effect_of_branch hbranches hmem
  cases hcode.symm.trans hother
  obtain ⟨-, rfl, rfl⟩ := consumeIf_proceed (heffect.symm.trans hproceed)
  rw [List.mem_singleton.mp hbranch]
  exact Nat.lt_succ_self _

end Machine

namespace Tree

variable {machine : Machine} {tree : Tree} {here : Place} {entered left : Thread}

/-- The code of a tree is left at its end only. -/
theorem exists_exit (hcode : LaidAt machine.program.code here.pc (tree.code here))
    (h : machine.ComesTo entered left) (hentered : entered.pc = here.pc)
    (hleft : left.pc < here.pc ∨ (here.after tree).pc ≤ left.pc) :
    ∃ exit : Thread, exit.pc = (here.after tree).pc ∧ machine.ComesTo entered exit ∧
      machine.ComesTo exit left := by
  refine Machine.exists_exit ?_ h ⟨hentered.ge, hentered ▸ Nat.le_add_right _ _⟩ hleft
  intro pc target instr hinstr hfirst hlast htarget
  have hmem := hcode.mem hinstr hfirst (by rwa [tree.length_code])
  exact (confined_code (List.Subset.refl tree.groups) (List.Subset.refl tree.references)
    (Place.Le.refl here) (Place.Le.refl _) instr hmem).target htarget

/-- The code of a tree is entered at its first instruction only. -/
theorem pc_eq_of_goesOn {thread next : Thread}
    (hcode : StandsIn 0 machine.program.code.toList here.pc (tree.code here))
    (h : machine.GoesOn thread next)
    (hthread : thread.pc < here.pc ∨ (here.after tree).pc ≤ thread.pc)
    (hnext : here.pc ≤ next.pc ∧ next.pc < (here.after tree).pc) : next.pc = here.pc := by
  obtain ⟨instr, hinstr, hpc⟩ := Machine.pc_of_goesOn h
  rcases hpc with hpc | htarget
  · omega
  · by_contra hne
    have hmiddle : here.pc < next.pc ∧ next.pc < here.pc + (tree.code here).length := by
      rw [tree.length_code]
      exact ⟨Nat.lt_of_le_of_ne hnext.1 (Ne.symm hne), hnext.2⟩
    have hinside := hcode.inside hinstr htarget hmiddle
    rw [tree.length_code] at hinside
    simp only [Place.after] at hthread
    omega

/-- A repetition that requires a round begins with its body, if that needs no guard. -/
theorem exists_code_rep {body : Tree} {times : Quantifier} (hmin : times.min ≠ 0)
    (hnullable : body.nullable = false) (here : Place) :
    ∃ rest, (rep body times).code here = body.code here ++ rest := by
  obtain ⟨min, max, greedy⟩ := times
  obtain ⟨before, rfl⟩ := Nat.exists_eq_succ_of_ne_zero hmin
  cases max with
  | some max => exact ⟨_, List.append_assoc _ _ _⟩
  | none =>
      cases before with
      | zero =>
          simp only [code, repetition, hnullable, requiredRounds, behindRounds, plusLoop]
          exact ⟨_, rfl⟩
      | succ before =>
          simp only [code, repetition, hnullable, requiredRounds]
          exact ⟨_, List.append_assoc _ _ _⟩

/-- Whoever gets out of code that is not empty takes a first step in it. -/
theorem exists_next (h : machine.ComesTo entered left) (hentered : entered.pc = here.pc)
    (hleft : left.pc < here.pc ∨ (here.after tree).pc ≤ left.pc) (hsize : 0 < tree.codeSize) :
    ∃ next, machine.GoesOn entered next ∧ machine.ComesTo next left := by
  rcases Relation.ReflTransGen.cases_head h with rfl | hnext
  · simp only [Place.after] at hleft
    omega
  · exact hnext

/-- Nobody gets through the code of a tree that is not nullable without consuming something. -/
theorem offset_lt_of_comesTo (hcode : LaidAt machine.program.code here.pc (tree.code here))
    (hnullable : tree.nullable = false) (h : machine.ComesTo entered left)
    (hentered : entered.pc = here.pc)
    (hleft : left.pc < here.pc ∨ (here.after tree).pc ≤ left.pc) :
    entered.offset < left.offset := by
  induction tree generalizing here entered with
  | atom position a =>
      obtain ⟨next, hstep, hrest⟩ := exists_next h hentered hleft (Nat.succ_pos 0)
      have hinstr : machine.program.code[entered.pc]? = some (a.instr here) := hentered ▸ hcode.1
      suffices hlt : entered.offset < next.offset from Nat.lt_of_lt_of_le hlt hrest.offset_le
      cases a with
      | byte value => exact Machine.offset_lt_of_consumeIf hinstr rfl hstep
      | set members => exact Machine.offset_lt_of_consumeIf hinstr rfl hstep
      | any => exact Machine.offset_lt_of_consumeIf hinstr rfl hstep
      | backref number => cases hnullable
      | anchor kind => cases hnullable
  | group position index body ih =>
      cases index with
      | none => exact ih hcode hnullable h hentered hleft
      | some index =>
          obtain ⟨next, hstep, hrest⟩ := exists_next h hentered hleft (Nat.succ_pos _)
          obtain ⟨instr, hinstr, hpc⟩ := Machine.pc_of_goesOn hstep
          rw [hentered] at hinstr hpc
          cases hcode.1.symm.trans hinstr
          have hnext : next.pc = (here.skip 1).pc := hpc.resolve_right (fun hmem => nomatch hmem)
          have hout : left.pc < (here.skip 1).pc ∨ ((here.skip 1).after body).pc ≤ left.pc := by
            simp only [Place.after, Place.skip, codeSize, Option.isSome_some, if_true] at hleft ⊢
            omega
          have hlt := ih (laidAt_append.mp hcode.2).1 hnullable hrest hnext hout
          exact Nat.lt_of_le_of_lt (Machine.offset_le_of_goesOn hstep) hlt
  | cat first rest ihf ihr =>
      obtain ⟨hfirst, hrest⟩ := laidAt_append.mp hcode
      rw [length_code] at hrest
      simp only [nullable, Bool.and_eq_false_iff] at hnullable
      have hout : left.pc < here.pc ∨ (here.after first).pc ≤ left.pc := by
        simp only [Place.after, codeSize] at hleft ⊢
        omega
      rcases hnullable with hnullable | hnullable
      · exact ihf hfirst hnullable h hentered hout
      · obtain ⟨exit, hexit, hbefore, hbehind⟩ := exists_exit hfirst h hentered hout
        have hlt := ihr hrest hnullable hbehind hexit (by
          simp only [Place.after, codeSize] at hleft ⊢
          omega)
        exact Nat.lt_of_le_of_lt hbefore.offset_le hlt
  | alt first rest ihf ihr =>
      obtain ⟨next, hstep, hrest⟩ := exists_next h hentered hleft (by simp only [codeSize]; omega)
      obtain ⟨instr, hinstr, hpc⟩ := Machine.pc_of_goesOn hstep
      obtain ⟨hfirst, hbehind⟩ := laidAt_append.mp hcode.2
      rw [length_code] at hbehind
      rw [hentered] at hinstr hpc
      cases hcode.1.symm.trans hinstr
      simp only [nullable, Bool.or_eq_false_iff] at hnullable
      simp only [Place.after, codeSize] at hleft
      refine Nat.lt_of_le_of_lt (Machine.offset_le_of_goesOn hstep) ?_
      have hbranch : next.pc = (here.skip 1).pc ∨
          next.pc = (((here.skip 1).after first).skip 1).pc := by
        simp only [Instr.targets, List.mem_cons, List.not_mem_nil, or_false] at hpc
        rcases hpc with hpc | hpc | hpc
        · exact .inl hpc
        · exact .inl hpc
        · exact .inr hpc
      rcases hbranch with hnext | hnext
      · apply ihf hfirst hnullable.1 hrest hnext
        simp only [Place.after, Place.skip]
        omega
      · apply ihr hbehind.2 hnullable.2 hrest hnext
        simp only [Place.after, Place.skip]
        omega
  | rep body times ih =>
      simp only [nullable, Bool.or_eq_false_iff, beq_eq_false_iff_ne] at hnullable
      obtain ⟨rest, hrest⟩ := exists_code_rep hnullable.1 hnullable.2 here
      have hsize := (rep body times).length_code here
      rw [hrest, List.length_append, body.length_code] at hsize
      rw [hrest] at hcode
      apply ih (laidAt_append.mp hcode).1 hnullable.2 h hentered
      simp only [Place.after, ← hsize] at hleft ⊢
      omega

end Tree

/-! ### Rounds of loops -/

namespace HasRound

variable {machine : Machine} {body : Tree} {place : Place} {loop : Loop}

/-- In the midst of a round a thread has come from the midst of it or from its beginning. -/
theorem of_goesOn {thread next : Thread}
    (hround : HasRound body 0 machine.program.code.toList place loop)
    (h : machine.GoesOn thread next) (hinside : loop.first < next.pc ∧ next.pc ≤ loop.last) :
    loop.first ≤ thread.pc ∧ thread.pc < loop.last := by
  obtain ⟨round, hstands, -, hinstrs⟩ := hround
  obtain ⟨inner, final, rfl, hlast, hfinal⟩ := hinstrs.exists_last
  obtain ⟨instr, hinstr, hpc⟩ := Machine.pc_of_goesOn h
  rcases hpc with hpc | htarget
  · omega
  · have hlength : loop.first + (inner ++ [final]).length = loop.last + 1 := by
      rw [List.length_append, hlast]
      rfl
    have hin := hstands.inside hinstr htarget (by omega)
    refine ⟨hin.1, Nat.lt_of_le_of_ne (by omega) ?_⟩
    intro hend
    obtain ⟨-, hlaid, -⟩ := laidAt_append.mp hstands.laid
    rw [← hlast, ← hend] at hlaid
    cases hlaid.symm.trans hinstr
    have := hfinal _ List.mem_cons_self _ htarget
    omega

/-- Whoever comes to the end of a round from outside has gone through all of it. -/
theorem exists_begun {entered back : Thread}
    (hround : HasRound body 0 machine.program.code.toList place loop)
    (h : machine.ComesTo entered back) (hentered : entered.pc ≤ loop.first)
    (hinside : loop.first < back.pc ∧ back.pc ≤ loop.last) :
    ∃ begun : Thread, begun.pc = loop.first ∧ machine.ComesTo entered begun ∧
      machine.ComesTo begun back := by
  induction h with
  | refl => omega
  | @tail thread next hcomes hstep ih =>
      have hthread := hround.of_goesOn hstep hinside
      rcases Nat.eq_or_lt_of_le hthread.1 with hfirst | hlt
      · exact ⟨thread, hfirst.symm, hcomes, .single hstep⟩
      · obtain ⟨begun, hbegun, hbefore, hbehind⟩ := ih ⟨hlt, hthread.2.le⟩
        exact ⟨begun, hbegun, hbefore, hbehind.tail hstep⟩

/-- A round of a loop without a mark consumes something. -/
theorem offset_lt_of_comesTo {entered back : Thread}
    (hround : HasRound body 0 machine.program.code.toList place loop) (hslot : loop.slot = none)
    (h : machine.ComesTo entered back) (hentered : entered.pc ≤ loop.first)
    (hback : back.pc = loop.last) : entered.offset < back.offset := by
  have hcode : LaidAt machine.program.code place.pc (body.code place) := hround.stands.laid
  have hhas := hround
  obtain ⟨round, -, -, hinstrs⟩ := hround
  cases hinstrs with
  | guarded => cases hslot
  | bare hnullable hbranch =>
      have hout : (place.after body).pc ≤ back.pc := Nat.le_of_eq hback.symm
      have hsize : place.pc < back.pc := by
        rw [hback]
        refine Nat.lt_add_of_pos_right (Nat.pos_of_ne_zero fun hzero => ?_)
        -- A body without code would be left as soon as it is entered.
        have hat : back.pc = place.pc := by
          rw [hback, hzero]
          rfl
        have hstay := Tree.offset_lt_of_comesTo hcode hnullable .refl hat (.inr hout)
        exact Nat.lt_irrefl _ hstay
      obtain ⟨begun, hbegun, hbefore, hbehind⟩ :=
        hhas.exists_begun h hentered ⟨hsize, Nat.le_of_eq hback⟩
      have hlt := Tree.offset_lt_of_comesTo hcode hnullable hbehind hbegun (.inr hout)
      exact Nat.lt_of_le_of_lt hbefore.offset_le hlt

end HasRound

/-- A branch back in a program that does not stand behind a check ends the rounds of a loop without
a mark. -/
theorem exists_bare_of_back {tree : Tree} {groups pc target : Nat} {instr : Instr}
    (hinstr : (Program.ofTree tree groups).code[pc]? = some instr)
    (htarget : target ∈ instr.targets) (hback : target ≤ pc)
    (hcheck : ∀ slot, (Program.ofTree tree groups).code[pc - 1]? ≠ some (.check slot)) :
    ∃ body place loop, HasRound body 0 (Program.ofTree tree groups).code.toList place loop ∧
      loop.slot = none ∧ target ≤ loop.first ∧ loop.last = pc := by
  rw [← Array.getElem?_toList] at hinstr
  obtain ⟨loop, hloop, hfirst, hpc⟩ :=
    returns_ofTree tree groups pc instr hinstr target htarget (by omega)
  obtain ⟨body, place, hround⟩ := Tree.hasRound_of_mem_loops hloop
  have hwhole := hround.of_stands (stands_ofTree tree groups)
  rw [Nat.zero_add] at hpc
  obtain ⟨round, hstands, -, hinstrs⟩ := id hwhole
  cases hinstrs with
  | bare => exact ⟨body, place, _, hwhole, rfl, hfirst, hpc⟩
  | @guarded slot first middle =>
      obtain ⟨-, hlaid, -⟩ := laidAt_append.mp hstands.laid
      subst hpc
      exact absurd hlaid (hcheck slot)

/-- The code of every part of a pattern that may not match the empty text, wherever the part is laid
out, is entered at its first instruction and left at its end, and no thread gets through it without
consuming something. Between a target and a branch back to it, too, something is consumed, unless
the branch stands behind a check. So do all threads of an attempt, since they have come about on
paths. -/
theorem nonnullable_code_consumes {maxUnroll groups : Nat} {tree : Tree} {program : Program}
    (hlower : Program.lower maxUnroll tree groups = .ok program) (text : Text)
    (anchoredEnd : Bool) :
    let machine : Machine := ⟨program, text, anchoredEnd⟩
    (∀ part place, (part, place) ∈ tree.parts ⟨1, 0, 0⟩ → part.nullable = false →
      LaidAt program.code place.pc (part.code place) ∧
      (∀ thread next, machine.GoesOn thread next →
        thread.pc < place.pc ∨ (place.after part).pc ≤ thread.pc →
        place.pc ≤ next.pc ∧ next.pc < (place.after part).pc → next.pc = place.pc) ∧
      ∀ entered left, machine.ComesTo entered left → entered.pc = place.pc →
        left.pc < place.pc ∨ (place.after part).pc ≤ left.pc →
        ∃ exit, exit.pc = (place.after part).pc ∧ machine.ComesTo entered exit ∧
          machine.ComesTo exit left ∧ entered.offset < exit.offset) ∧
    (∀ pc instr target, program.code[pc]? = some instr → target ∈ instr.targets → target ≤ pc →
      (∀ slot, program.code[pc - 1]? ≠ some (.check slot)) →
      ∀ entered back, machine.ComesTo entered back → entered.pc = target → back.pc = pc →
        entered.offset < back.offset) ∧
    ∀ start steps config, machine.run steps (machine.initial start) = .paused config →
      ∀ entered ∈ machine.wayAfter start steps, machine.ComesTo entered config.thread := by
  intro machine
  cases ofTree_of_lower hlower
  refine ⟨?_, ?_, ?_⟩
  · intro part place hpart hnullable
    have hstands := (stands_ofTree tree groups).trans (Tree.stands_of_mem_parts hpart)
    have hcode : LaidAt machine.program.code place.pc (part.code place) := hstands.laid
    refine ⟨hcode, ?_, ?_⟩
    · intro thread next h hthread hnext
      exact Tree.pc_eq_of_goesOn hstands h hthread hnext
    · intro entered left h hentered hleft
      obtain ⟨exit, hexit, hbefore, hbehind⟩ := Tree.exists_exit hcode h hentered hleft
      have hlt := Tree.offset_lt_of_comesTo hcode hnullable hbefore hentered (.inr hexit.ge)
      exact ⟨exit, hexit, hbefore, hbehind, hlt⟩
  · intro pc instr target hinstr htarget hback hcheck entered back h hentered hpc
    obtain ⟨body, place, loop, hround, hslot, hfirst, hlast⟩ :=
      exists_bare_of_back hinstr htarget hback hcheck
    have hbody : HasRound body 0 machine.program.code.toList place loop := hround
    exact hbody.offset_lt_of_comesTo hslot h (hentered ▸ hfirst) (hlast ▸ hpc)
  · intro start steps config hrun
    exact (Machine.path_of_run hrun).comesTo

/-- On the text `b` the body of `(?:a?b)*` is got through after turning back from its first branch,
and nobody comes to the end of the loop with nothing consumed. -/
theorem nonnullable_code_consumes_of_optional_byte :
    let body : Tree :=
      .group 0 none (.cat (.rep (.atom 3 (.byte 97)) ⟨0, some 1, true⟩) (.atom 5 (.byte 98)))
    let tree : Tree := .rep body ⟨0, none, true⟩
    let program := Program.ofTree tree 0
    let machine : Machine := ⟨program, #[98], false⟩
    let entered : Thread := ⟨2, 0, #[none, none], #[some 0], #[]⟩
    let left : Thread := ⟨5, 1, #[none, none], #[some 0], #[]⟩
    Program.lower 2000 tree 0 = .ok program ∧ entered ∈ machine.wayAfter 0 6 ∧
      (∃ exit, exit.pc = 5 ∧ machine.ComesTo entered exit ∧ machine.ComesTo exit left ∧
        entered.offset < exit.offset) ∧
      ∀ first back, machine.ComesTo first back → first.pc = 1 → back.pc = 5 →
        first.offset < back.offset := by
  intro body tree program machine entered left
  have hlower : Program.lower 2000 tree 0 = .ok program := rfl
  obtain ⟨hparts, hbranches, hway⟩ := nonnullable_code_consumes hlower #[98] false
  have hentered : entered ∈ machine.wayAfter 0 6 := by decide
  have hcomes : machine.ComesTo entered left :=
    hway 0 6 (.running left [.branch 6 0, .opened 0 none]) rfl entered hentered
  obtain ⟨-, -, hconsumes⟩ := hparts body ⟨2, 0, 0⟩ (.tail _ (.head _)) rfl
  have hback : ∀ slot, program.code[5 - 1]? ≠ some (.check slot) := nofun
  exact ⟨hlower, hentered, hconsumes entered left hcomes rfl (.inr (Nat.le_refl 5)),
    hbranches 5 (.jump 1) 1 rfl (.head _) (by decide) hback⟩

end RegexSearch
