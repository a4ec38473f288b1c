import RegexSearch.Proofs.Machine.Reaches
import RegexSearch.Proofs.Pattern.Outcomes
import RegexSearch.Proofs.Program.Placement

/-!
What a stretch of a program means. A stretch between two positions implements a function from
places to lists of places if every thread that enters it reaches, at its exit, the places that the
function lists, in this order, and no others. Stretches are composed by the rules below, one for
each way in which the code of a pattern is put together.

A thread brings more along than its place: the offsets at which groups were opened and the marks of
loops. A stretch writes only those that lie in its scope, so the code around it finds its own as it
left them.
-/

namespace RegexSearch

namespace Thread

/-- The place that a thread has come to. -/
def outcome (thread : Thread) : Outcome :=
  ⟨thread.offset, thread.capture⟩

/-- The tables of the thread have the sizes that the program asks for, and it has not left the
text. -/
structure Ready (machine : Machine) (thread : Thread) : Prop where
  registers : thread.registers.size = machine.program.registerCount
  opens : thread.opens.size = machine.program.groups + 1
  marks : thread.marks.size = machine.program.loops
  within : thread.outcome.Within machine.text

@[simp] theorem outcome_offset (thread : Thread) : thread.outcome.offset = thread.offset := rfl

@[simp] theorem outcome_captures (thread : Thread) : thread.outcome.captures = thread.capture := rfl

theorem openedAt_setOpened_self (thread : Thread) {group : Nat}
    (hgroup : group < thread.opens.size) (noted : Option Nat) :
    (thread.setOpened group noted).openedAt group = noted := by
  simp [openedAt, setOpened, hgroup]

theorem openedAt_setOpened_of_ne (thread : Thread) {group other : Nat} (hne : other ≠ group)
    (noted : Option Nat) :
    (thread.setOpened group noted).openedAt other = thread.openedAt other := by
  simp [openedAt, setOpened, hne.symm]

theorem markedAt_setMark_self (thread : Thread) {slot : Nat} (hslot : slot < thread.marks.size)
    (noted : Option Nat) : (thread.setMark slot noted).markedAt slot = noted := by
  simp [markedAt, setMark, hslot]

theorem markedAt_setMark_of_ne (thread : Thread) {slot other : Nat} (hne : other ≠ slot)
    (noted : Option Nat) : (thread.setMark slot noted).markedAt other = thread.markedAt other := by
  simp [markedAt, setMark, hne.symm]

namespace Ready

variable {machine : Machine} {thread : Thread}

theorem next (h : thread.Ready machine) : thread.next.Ready machine :=
  ⟨h.registers, h.opens, h.marks, h.within⟩

theorem goto (h : thread.Ready machine) (pc : Nat) : (thread.goto pc).Ready machine :=
  ⟨h.registers, h.opens, h.marks, h.within⟩

theorem consume (h : thread.Ready machine) {count : Nat}
    (hwithin : (thread.outcome.advance count).Within machine.text) :
    (thread.consume count).Ready machine :=
  ⟨h.registers, h.opens, h.marks, hwithin⟩

theorem setOpened (h : thread.Ready machine) (group : Nat) (noted : Option Nat) :
    (thread.setOpened group noted).Ready machine :=
  ⟨h.registers, by simpa [Thread.setOpened] using h.opens, h.marks, h.within⟩

theorem setMark (h : thread.Ready machine) (slot : Nat) (noted : Option Nat) :
    (thread.setMark slot noted).Ready machine :=
  ⟨h.registers, h.opens, by simpa [Thread.setMark] using h.marks, h.within⟩

theorem outcome_close (h : thread.Ready machine) {group start : Nat}
    (hgroup : group ≤ machine.program.groups) (hstart : thread.openedAt group = some start) :
    (thread.close group).outcome = thread.outcome.close group start := by
  have hcapture : (thread.close group).capture =
      Function.update thread.capture group (some ⟨start, thread.offset⟩) := by
    have hsize : 2 * group + 1 < thread.registers.size := by
      rw [h.registers, Program.registerCount]
      omega
    apply Function.eq_update_iff.mpr
    rw [capture_close hsize, hstart]
    exact ⟨rfl, fun _ hother => capture_close_of_ne hother⟩
  rw [outcome, hcapture]
  rfl

theorem close (h : thread.Ready machine) {group start : Nat}
    (hgroup : group ≤ machine.program.groups) (hstart : thread.openedAt group = some start) :
    (thread.close group).Ready machine where
  registers := (thread.size_registers_close group).trans h.registers
  opens := h.opens
  marks := h.marks
  within := by
    rw [h.outcome_close hgroup hstart]
    exact h.within.close group start

end Ready

end Thread

/-- The groups and the loop slots that a stretch of a program may write. -/
structure Scope where
  groups : List Nat
  low : Nat
  high : Nat

/-- Everything in the first scope is in the second one. -/
structure Scope.Inside (inner outer : Scope) : Prop where
  groups : inner.groups ⊆ outer.groups
  low : outer.low ≤ inner.low
  high : inner.high ≤ outer.high

/-- Outside of the scope the second thread has the openings and the marks of the first one. -/
structure Thread.Keeps (scope : Scope) (thread later : Thread) : Prop where
  opened : ∀ group, group ∉ scope.groups → later.openedAt group = thread.openedAt group
  marked : ∀ slot, slot < scope.low ∨ scope.high ≤ slot →
    later.markedAt slot = thread.markedAt slot

namespace Thread.Keeps

variable {scope : Scope} {thread later : Thread}

theorem refl (scope : Scope) (thread : Thread) : thread.Keeps scope thread :=
  ⟨fun _ _ => rfl, fun _ _ => rfl⟩

theorem goto (pc : Nat) : thread.Keeps scope (thread.goto pc) := ⟨fun _ _ => rfl, fun _ _ => rfl⟩

theorem consume (count : Nat) : thread.Keeps scope (thread.consume count) :=
  ⟨fun _ _ => rfl, fun _ _ => rfl⟩

theorem trans {last : Thread} (h : thread.Keeps scope later) (h' : later.Keeps scope last) :
    thread.Keeps scope last where
  opened := by
    intro group hgroup
    rw [h'.opened group hgroup, h.opened group hgroup]
  marked := by
    intro slot hslot
    rw [h'.marked slot hslot, h.marked slot hslot]

theorem mono {outer : Scope} (h : thread.Keeps scope later) (hinside : scope.Inside outer) :
    thread.Keeps outer later where
  opened := fun group hgroup => h.opened group fun hmem => hgroup (hinside.groups hmem)
  marked := by
    intro slot hslot
    have hlow := hinside.low
    have hhigh := hinside.high
    exact h.marked slot (by omega)

theorem setOpened {group : Nat} (hgroup : group ∈ scope.groups) (noted : Option Nat) :
    thread.Keeps scope (thread.setOpened group noted) where
  opened := by
    intro other hother
    apply openedAt_setOpened_of_ne
    rintro rfl
    exact hother hgroup
  marked := fun _ _ => rfl

theorem setMark {slot : Nat} (hlow : scope.low ≤ slot) (hhigh : slot < scope.high)
    (noted : Option Nat) : thread.Keeps scope (thread.setMark slot noted) where
  opened := fun _ _ => rfl
  marked := by
    intro other hother
    apply markedAt_setMark_of_ne
    omega

end Thread.Keeps

namespace Machine

/-- A thread that entered a stretch has come to its exit, at this place. -/
structure Arrives (machine : Machine) (scope : Scope) (thread : Thread) (exit : Nat)
    (out : Outcome) (leaf : Thread) : Prop where
  pc : leaf.pc = exit
  outcome : leaf.outcome = out
  ready : leaf.Ready machine
  keeps : thread.Keeps scope leaf

/-- Threads that enter the program at `entry` reach `exit` at the places that `meaning` lists. -/
def Implements (machine : Machine) (scope : Scope) (entry exit : Nat)
    (meaning : Outcome → List Outcome) : Prop :=
  ∀ thread : Thread, thread.Ready machine → thread.pc = entry →
    machine.Reaches thread (machine.Arrives scope thread exit) (meaning thread.outcome)

variable {machine : Machine} {scope : Scope}

variable {entry exit pc : Nat} {thread : Thread}

theorem Reaches.of_later {later : Thread} {outcomes : List Outcome}
    (h : machine.Reaches later (machine.Arrives scope later exit) outcomes)
    (hkeeps : thread.Keeps scope later) :
    machine.Reaches later (machine.Arrives scope thread exit) outcomes := by
  apply h.mono
  intro out leaf harrives
  exact ⟨harrives.pc, harrives.outcome, harrives.ready, hkeeps.trans harrives.keeps⟩

/-- Going on from everything that has been reached so far. -/
theorem Reaches.then {outcomes : List Outcome} {meaning : Outcome → List Outcome} {middle : Nat}
    (h : machine.Reaches thread (machine.Arrives scope thread middle) outcomes)
    (hmeaning : machine.Implements scope middle exit meaning) :
    machine.Reaches thread (machine.Arrives scope thread exit) (outcomes.flatMap meaning) := by
  apply h.bind
  intro out _ leaf hleaf
  have hrest := hmeaning leaf hleaf.ready hleaf.pc
  rw [hleaf.outcome] at hrest
  exact hrest.of_later hleaf.keeps

/-- The split in front of an optional stretch, or behind a round of a loop. -/
theorem Reaches.prefer {greedy : Bool} {body : Nat} {further : List Outcome}
    (hcode : machine.program.code[thread.pc]? = some (.loopSplit greedy body exit))
    (hready : thread.Ready machine)
    (hfurther : machine.Reaches (thread.goto body) (machine.Arrives scope thread exit) further) :
    machine.Reaches thread (machine.Arrives scope thread exit)
      (prefer greedy further thread.outcome) := by
  have hleave : machine.Reaches (thread.goto exit) (machine.Arrives scope thread exit)
      [thread.outcome] :=
    .here ⟨rfl, rfl, hready.goto exit, .goto exit⟩
  cases greedy with
  | true => exact .split (branches_split hcode) hfurther hleave
  | false => exact .split (branches_split hcode) hleave hfurther

theorem Reaches.of_fail {instr : Instr} {P : Outcome → Thread → Prop}
    (hcode : machine.program.code[thread.pc]? = some instr)
    (heffect : machine.effect thread instr = .fail) : machine.Reaches thread P [] := by
  apply Reaches.fail
  simp only [branches, hcode, heffect]

theorem Reaches.of_proceed {instr : Instr} {next : Thread} {out : Outcome}
    {P : Outcome → Thread → Prop} (hcode : machine.program.code[thread.pc]? = some instr)
    (heffect : machine.effect thread instr = .proceed next []) (hnext : P out next) :
    machine.Reaches thread P [out] :=
  .step (branches_of_effect hcode heffect) (.here hnext)

namespace Implements

variable {meaning first rest : Outcome → List Outcome}

theorem skip : machine.Implements scope pc pc fun here => [here] :=
  fun _ hready hpc => .here ⟨hpc, rfl, hready, .refl _ _⟩

theorem mono {inner : Scope} (h : machine.Implements inner entry exit meaning)
    (hinside : inner.Inside scope) : machine.Implements scope entry exit meaning := by
  intro thread hready hpc
  apply (h thread hready hpc).mono
  intro out leaf harrives
  exact ⟨harrives.pc, harrives.outcome, harrives.ready, harrives.keeps.mono hinside⟩

theorem seq {middle : Nat} (hfirst : machine.Implements scope entry middle first)
    (hrest : machine.Implements scope middle exit rest) :
    machine.Implements scope entry exit fun here => (first here).flatMap rest :=
  fun thread hready hpc => (hfirst thread hready hpc).then hrest

theorem jump {target : Nat} (h : machine.Implements scope entry pc meaning)
    (hcode : machine.program.code[pc]? = some (.jump target)) :
    machine.Implements scope entry target meaning := by
  have hjump : machine.Implements scope pc target fun here => [here] := by
    intro thread hready hpc
    subst hpc
    exact .step (branches_jump hcode) (.here ⟨rfl, rfl, hready.goto target, .goto target⟩)
  intro thread hready hpc
  have hreaches := (h thread hready hpc).then hjump
  rwa [List.flatMap_singleton'] at hreaches

theorem alternatives {left right : Nat}
    (hcode : machine.program.code[pc]? = some (.split left right))
    (hfirst : machine.Implements scope left exit first)
    (hrest : machine.Implements scope right exit rest) :
    machine.Implements scope pc exit fun here => first here ++ rest here := by
  intro thread hready hpc
  subst hpc
  have hleft := hfirst (thread.goto left) (hready.goto left) rfl
  have hright := hrest (thread.goto right) (hready.goto right) rfl
  exact .split (branches_split hcode) (hleft.of_later (.goto left)) (hright.of_later (.goto right))

theorem optional {greedy : Bool} {body : Nat}
    (hcode : machine.program.code[pc]? = some (.loopSplit greedy body exit))
    (hbody : machine.Implements scope body exit meaning) :
    machine.Implements scope pc exit fun here => prefer greedy (meaning here) here := by
  intro thread hready hpc
  subst hpc
  have hfurther := hbody (thread.goto body) (hready.goto body) rfl
  exact .prefer hcode hready (hfurther.of_later (.goto body))

/-! ### Atoms -/

theorem consumes {instr : Instr} {condition : Byte → Bool}
    (hcode : machine.program.code[pc]? = some instr)
    (heffect : ∀ thread, machine.effect thread instr = machine.consumeIf thread condition) :
    machine.Implements scope pc (pc + 1) (·.consumeIf machine.text condition) := by
  intro thread hready hpc
  subst hpc
  simp only [Outcome.consumeIf, Thread.outcome_offset]
  cases hbyte : machine.text[thread.offset]? with
  | none =>
      apply Reaches.of_fail hcode
      simp [heffect, consumeIf, hbyte]
  | some b =>
      have hnext : thread.offset + 1 ≤ machine.text.size := (Array.getElem?_eq_some_iff.mp hbyte).1
      dsimp only
      split
      · rename_i hb
        have hproceed : machine.effect thread instr = .proceed (thread.consume 1) [] := by
          simp [heffect, consumeIf, hbyte, hb]
        have hconsume := hready.consume (hready.within.advance hnext)
        exact .of_proceed hcode hproceed ⟨rfl, rfl, hconsume, .consume 1⟩
      · rename_i hb
        apply Reaches.of_fail hcode
        simp [heffect, consumeIf, hbyte, hb]

theorem holds {anchor : Anchor} (hcode : machine.program.code[pc]? = some (.assert anchor)) :
    machine.Implements scope pc (pc + 1) fun here =>
      if anchor.holds machine.text here.offset then [here] else [] := by
  intro thread hready hpc
  subst hpc
  change machine.Reaches thread _
    (if anchor.holds machine.text thread.offset then [thread.outcome] else [])
  split
  · rename_i hanchor
    have hproceed : machine.effect thread (.assert anchor) = .proceed thread.next [] := by
      simp [effect, hanchor]
    exact .of_proceed hcode hproceed ⟨rfl, rfl, hready.next, .consume 0⟩
  · rename_i hanchor
    apply Reaches.of_fail hcode
    simp [effect, hanchor]

theorem repeats {group : Nat} (hcode : machine.program.code[pc]? = some (.backref group)) :
    machine.Implements scope pc (pc + 1) fun here =>
      (here.captures group).elim [] (here.consumeCopy machine.text) := by
  intro thread hready hpc
  subst hpc
  simp only [Thread.outcome_captures]
  cases hspan : thread.capture group with
  | none =>
      apply Reaches.of_fail hcode
      simp [effect, hspan]
  | some span =>
      change machine.Reaches thread _
        (if Span.bytes ⟨thread.offset, thread.offset + span.length⟩ machine.text ==
          span.bytes machine.text then [thread.outcome.advance span.length] else [])
      split
      · rename_i hcopy
        have hproceed : machine.effect thread (.backref group) =
            .proceed (thread.consume span.length) [] := by
          simp [effect, hspan, repeatsAt, hcopy]
        have hwithin := hready.within.copy hspan (beq_iff_eq.mp hcopy)
        exact .of_proceed hcode hproceed ⟨rfl, rfl, hready.consume hwithin, .consume _⟩
      · rename_i hcopy
        apply Reaches.of_fail hcode
        simp [effect, hspan, repeatsAt, hcopy]

theorem atom {here : Place} {a : Atom}
    (hcode : machine.program.code[here.pc]? = some (a.instr here))
    (hset : ∀ members, a = .set members → machine.program.sets[here.set]? = some members) :
    machine.Implements scope here.pc (here.pc + 1) fun out => a.outcomes machine.text out := by
  cases a with
  | byte value => exact consumes hcode fun _ => rfl
  | set members =>
      refine consumes hcode fun thread => ?_
      simp only [Atom.instr, effect, hset members rfl, Option.any_some]
  | any => exact consumes hcode fun _ => rfl
  | backref group => exact repeats hcode
  | anchor kind => exact holds hcode

/-! ### Groups -/

theorem capturing {inner : Scope} {group : Nat}
    (hopen : machine.program.code[entry]? = some (.openGroup group))
    (hbody : machine.Implements inner (entry + 1) pc meaning)
    (hclose : machine.program.code[pc]? = some (.closeGroup group))
    (hgroup : group ≤ machine.program.groups) (hfresh : group ∉ inner.groups)
    (hmem : group ∈ scope.groups) (hinside : inner.Inside scope) :
    machine.Implements scope entry (pc + 1) fun here =>
      (meaning here).map fun there => there.close group here.offset := by
  intro thread hready hpc
  subst hpc
  let opened := thread.next.setOpened group (some thread.offset)
  have hopened : opened.Ready machine := hready.next.setOpened group _
  have hkeeps : thread.Keeps scope opened :=
    (Thread.Keeps.consume 0).trans (.setOpened hmem (some thread.offset))
  have hstart : opened.openedAt group = some thread.offset := by
    apply Thread.openedAt_setOpened_self
    have hsize := hready.opens
    change group < thread.opens.size
    omega
  apply Reaches.step (branches_openGroup hopen)
  change machine.Reaches opened _ ((meaning opened.outcome).map _)
  rw [List.map_eq_flatMap]
  apply (hbody opened hopened rfl).bind
  intro out hout leaf hleaf
  have hstart : leaf.next.openedAt group = some thread.offset :=
    (hleaf.keeps.opened group hfresh).trans hstart
  apply Reaches.step (branches_closeGroup (hleaf.pc ▸ hclose))
  have hready := hleaf.ready.next
  refine .here ⟨?_, ?_, hready.close hgroup hstart, ?_⟩
  · rw [← hleaf.pc]
    rfl
  · rw [← hleaf.outcome]
    exact hready.outcome_close hgroup hstart
  · exact hkeeps.trans ((hleaf.keeps.mono hinside).trans ⟨fun _ _ => rfl, fun _ _ => rfl⟩)

end Implements

/-! ### Loops -/

/-- The check at the end of a round lets the loop go on only if the round has consumed something. -/
theorem Reaches.check {slot start target : Nat} {P : Outcome → Thread → Prop}
    {outcomes : List Outcome}
    (hcheck : machine.program.code[thread.pc]? = some (.check slot))
    (hjump : machine.program.code[thread.pc + 1]? = some (.jump target))
    (hmark : thread.markedAt slot = some start) (hle : start ≤ thread.offset)
    (hagain : start < thread.offset → machine.Reaches (thread.goto target) P outcomes) :
    machine.Reaches thread P (if start < thread.offset then outcomes else []) := by
  have hbranches := branches_check hcheck
  rw [hmark] at hbranches
  split
  · rename_i hlt
    rw [if_neg (by simpa using Nat.ne_of_lt hlt)] at hbranches
    have hnext : machine.branches thread.next = some [thread.goto target] := branches_jump hjump
    exact .step hbranches (.step hnext (hagain hlt))
  · rename_i hlt
    rw [if_pos (by simpa using (by omega : start = thread.offset))] at hbranches
    exact .fail hbranches

/-- A round of a loop. It finds what `step` makes of the rounds after it, provided that a thread
which comes back to the beginning with less of the text before it finds what `again` lists. -/
def Repeats (machine : Machine) (scope : Scope) (entry exit : Nat)
    (step : (Outcome → List Outcome) → Outcome → List Outcome) : Prop :=
  ∀ (again : Outcome → List Outcome) (thread : Thread),
    thread.Ready machine → thread.pc = entry →
    (∀ later : Thread, later.Ready machine → later.pc = entry → thread.offset < later.offset →
      machine.Reaches later (machine.Arrives scope later exit) (again later.outcome)) →
    machine.Reaches thread (machine.Arrives scope thread exit) (step again thread.outcome)

/-- A loop all of whose rounds but the last consume something. -/
theorem Repeats.implements {step : (Outcome → List Outcome) → Outcome → List Outcome}
    (h : machine.Repeats scope entry exit step) {meaning : Nat → Outcome → List Outcome}
    (hzero : ∀ here, meaning 0 here = step (fun _ => []) here)
    (hsucc : ∀ left here, meaning (left + 1) here = step (meaning left) here) :
    machine.Implements scope entry exit fun here =>
      meaning (machine.text.size - here.offset) here := by
  intro thread hready hpc
  suffices hloop : ∀ later : Thread, later.outcome = thread.outcome → later.Ready machine →
      later.pc = entry → machine.Reaches later (machine.Arrives scope later exit)
        (meaning (machine.text.size - thread.outcome.offset) thread.outcome) from
    hloop thread rfl hready hpc
  apply loop_induction (fun _ hsize => hsize) hzero hsucc ?_ hready.within.offset (Nat.le_refl _)
    (P := fun here outcomes => ∀ later : Thread, later.outcome = here → later.Ready machine →
      later.pc = entry → machine.Reaches later (machine.Arrives scope later exit) outcomes)
  rintro again _ - hagain later rfl hlater hpcLater
  apply h again later hlater hpcLater
  intro last hlast hpcLast hlt
  exact hagain last.outcome hlast.within.offset hlt last rfl hlast hpcLast

end Machine

end RegexSearch
