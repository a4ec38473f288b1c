import RegexSearch.Proofs.Program.Framed

/-!
What an attempt can see of the text in front of it. If something is put in front of a text, a thread
that is moved along with the text does what it did before: its registers, openings and marks hold
offsets, which are moved too, and whatever it compares or consumes lies where it did, counted from
the thread. Only some anchors notice the difference, and only where the text began before, for they
look at no more than the byte before the thread. So an attempt depends on nothing in front of that
byte, and on the byte only if the program has such an anchor.
-/

namespace RegexSearch

/-! ### Moving along -/

/-- The span so many bytes further on. -/
def Span.shift (distance : Nat) (span : Span) : Span :=
  ⟨span.start + distance, span.stop + distance⟩

namespace Thread

/-- The thread so many bytes further on, with all that it remembers. -/
def shift (distance : Nat) (thread : Thread) : Thread where
  pc := thread.pc
  offset := thread.offset + distance
  registers := thread.registers.map (·.map (· + distance))
  opens := thread.opens.map (·.map (· + distance))
  marks := thread.marks.map (·.map (· + distance))

variable (distance : Nat) (thread : Thread)

theorem shift_next : (thread.shift distance).next = thread.next.shift distance := rfl

theorem shift_consume (count : Nat) :
    (thread.shift distance).consume count = (thread.consume count).shift distance := by
  simp only [consume, shift, Nat.add_right_comm]

theorem register_shift (index : Nat) :
    (thread.shift distance).register index = (thread.register index).map (· + distance) := by
  simp only [register, shift, Array.getD_eq_getD_getElem?, Array.getElem?_map]
  cases thread.registers[index]? <;> rfl

theorem between?_shift (start stop : Option Nat) :
    Span.between? (start.map (· + distance)) (stop.map (· + distance)) =
      (Span.between? start stop).map (Span.shift distance) := by
  cases start <;> cases stop <;> rfl

theorem capture_shift (group : Nat) :
    (thread.shift distance).capture group =
      (thread.capture group).map (Span.shift distance) := by
  rw [capture, register_shift, register_shift, between?_shift, capture]

theorem openedAt_shift (group : Nat) :
    (thread.shift distance).openedAt group = (thread.openedAt group).map (· + distance) := by
  simp only [openedAt, shift, Array.getD_eq_getD_getElem?, Array.getElem?_map]
  cases thread.opens[group]? <;> rfl

theorem markedAt_shift (slot : Nat) :
    (thread.shift distance).markedAt slot = (thread.markedAt slot).map (· + distance) := by
  simp only [markedAt, shift, Array.getD_eq_getD_getElem?, Array.getElem?_map]
  cases thread.marks[slot]? <;> rfl

theorem setRegister_shift (index : Nat) (noted : Option Nat) :
    (thread.shift distance).setRegister index (noted.map (· + distance)) =
      (thread.setRegister index noted).shift distance := by
  simp only [setRegister, shift, Array.map_setIfInBounds]

theorem close_shift (group : Nat) :
    (thread.shift distance).close group = (thread.close group).shift distance := by
  rw [close, openedAt_shift, setRegister_shift]
  exact setRegister_shift distance _ _ (some thread.offset)

theorem setOpened_shift (group : Nat) (noted : Option Nat) :
    (thread.shift distance).setOpened group (noted.map (· + distance)) =
      (thread.setOpened group noted).shift distance := by
  simp only [setOpened, shift, Array.map_setIfInBounds]

theorem setMark_shift (slot : Nat) (noted : Option Nat) :
    (thread.shift distance).setMark slot (noted.map (· + distance)) =
      (thread.setMark slot noted).shift distance := by
  simp only [setMark, shift, Array.map_setIfInBounds]

theorem groups_toMatch_shift :
    (thread.shift distance).toMatch.groups =
      thread.toMatch.groups.map (·.map (Span.shift distance)) := by
  have hspans (registers : List (Option Nat)) :
      spans (registers.map (·.map (· + distance))) =
        (spans registers).map (·.map (Span.shift distance)) := by
    fun_induction spans registers with
    | case1 start stop rest ih =>
        simp only [List.map_cons, spans, between?_shift, ih]
    | case2 registers hshort =>
        rcases registers with _ | ⟨start, _ | ⟨stop, rest⟩⟩
        · rfl
        · rfl
        · exact absurd rfl (hshort start stop rest)
  simp only [toMatch, shift, Array.toList_map, hspans]

theorem start_shift (program : Program) (offset : Nat) :
    (start program offset).shift distance = start program (offset + distance) := by
  simp [start, shift]

end Thread

def Record.shift (distance : Nat) : Record → Record
  | branch pc offset => branch pc (offset + distance)
  | register index before => register index (before.map (· + distance))
  | opened group before => opened group (before.map (· + distance))
  | mark slot before => mark slot (before.map (· + distance))

def Effect.shift (distance : Nat) : Effect → Effect
  | proceed thread records => proceed (thread.shift distance) (records.map (·.shift distance))
  | fail => fail
  | accept => accept

def Config.shift (distance : Nat) : Config → Config
  | running thread log => running (thread.shift distance) (log.map (·.shift distance))
  | resuming thread log => resuming (thread.shift distance) (log.map (·.shift distance))

/-! ### The text behind what is put in front -/

theorem getElem?_append_size {α : Type} (before text : Array α) (offset : Nat) :
    (before ++ text)[offset + before.size]? = text[offset]? := by
  rw [Array.getElem?_append_right (Nat.le_add_left _ _), Nat.add_sub_cancel]

theorem Span.bytes_shift (before text : Text) (span : Span) :
    (span.shift before.size).bytes (before ++ text) = span.bytes text := by
  have hfront : before.extract (span.start + before.size) (span.stop + before.size) = #[] :=
    Array.extract_empty_of_size_le_start (Nat.le_add_left _ _)
  simp only [bytes, shift, Array.extract_append, hfront, Nat.add_sub_cancel, Array.empty_append]

/-- Whether an instruction looks at what stands in front of a thread. -/
def Instr.looksBack : Instr → Bool
  | assert .textBegin => true
  | assert .wordBoundary => true
  | assert .nonWordBoundary => true
  | _ => false

/-- The byte before an offset is the same if there is one. -/
theorem Text.wordBefore_append (before text : Text) {offset : Nat} (hpositive : 0 < offset) :
    Text.wordBefore (before ++ text) (offset + before.size) = Text.wordBefore text offset := by
  obtain ⟨earlier, rfl⟩ := Nat.exists_eq_succ_of_ne_zero hpositive.ne'
  have hearlier : earlier + 1 + before.size - 1 = earlier + before.size := by omega
  have hmoved : 0 < earlier + 1 + before.size := by omega
  simp only [Text.wordBefore, hearlier, getElem?_append_size, hpositive, hmoved,
    Nat.succ_eq_add_one, Nat.add_sub_cancel]

theorem Text.wordAfter_append (before text : Text) (offset : Nat) :
    Text.wordAfter (before ++ text) (offset + before.size) = Text.wordAfter text offset := by
  rw [Text.wordAfter, getElem?_append_size, Text.wordAfter]

theorem Anchor.holds_append {anchor : Anchor} (before text : Text) {offset : Nat}
    (h : 0 < offset ∨ (Instr.assert anchor).looksBack = false) :
    anchor.holds (before ++ text) (offset + before.size) = anchor.holds text offset := by
  cases anchor with
  | textEnd =>
      have hend : offset + before.size = (before ++ text).size ↔ offset = text.size := by
        rw [Array.size_append]
        omega
      rw [Anchor.holds, Anchor.holds, Bool.eq_iff_iff, beq_iff_eq, beq_iff_eq, hend]
  | textBegin =>
      have hpositive := h.resolve_right Bool.noConfusion
      have hmoved : offset + before.size ≠ 0 := by omega
      rw [Anchor.holds, Anchor.holds, beq_false_of_ne hpositive.ne', beq_false_of_ne hmoved]
  | wordBoundary =>
      have hpositive := h.resolve_right Bool.noConfusion
      simp only [Anchor.holds, Text.wordBefore_append before text hpositive,
        Text.wordAfter_append]
  | nonWordBoundary =>
      have hpositive := h.resolve_right Bool.noConfusion
      simp only [Anchor.holds, Text.wordBefore_append before text hpositive,
        Text.wordAfter_append]

namespace Machine

variable {machine : Machine}

/-- The machine on a text that has something in front. -/
def behind (before : Text) (machine : Machine) : Machine :=
  { machine with text := before ++ machine.text }

/-- A thread that does not notice what is put in front of the text: there is a byte of the text in
front of the thread, or no instruction ever looks for one. -/
def Screened (machine : Machine) (thread : Thread) : Prop :=
  0 < thread.offset ∨ ∀ instr ∈ machine.program.code, instr.looksBack = false

theorem inherited_screened : machine.Inherited machine.Screened := by
  apply inherited_of_effect
  intro thread next instr records h hinstr heffect
  rcases h with hpositive | hblind
  · rcases effect_proceed heffect with ⟨pc, offset, -, hpasses, rfl, rfl⟩ |
      ⟨preferred, other, -, rfl, rfl⟩ | ⟨group, -, rfl, rfl⟩ | ⟨group, -, rfl, rfl⟩ |
      ⟨slot, -, rfl, rfl⟩
    · have hle := hpasses.le
      simp only [pending, List.mem_singleton, forall_eq]
      exact .inl (Nat.lt_of_lt_of_le hpositive hle)
    · simp only [pending, List.mem_cons, List.not_mem_nil, or_false, forall_eq_or_imp, forall_eq]
      exact ⟨.inl hpositive, .inl hpositive⟩
    all_goals
      simp only [pending, List.mem_singleton, forall_eq]
      exact .inl hpositive
  · exact fun _ _ => .inr hblind

/-! ### Steps and runs -/

variable (before : Text)

theorem consumeIf_shift (thread : Thread) (condition : Byte → Bool) :
    (machine.behind before).consumeIf (thread.shift before.size) condition =
      (machine.consumeIf thread condition).shift before.size := by
  have hbyte : (machine.behind before).text[(thread.shift before.size).offset]? =
      machine.text[thread.offset]? := getElem?_append_size before machine.text thread.offset
  simp only [consumeIf, hbyte]
  cases machine.text[thread.offset]? with
  | none => rfl
  | some b =>
      dsimp only
      cases condition b with
      | true =>
          rw [if_pos rfl, if_pos rfl, Thread.shift_consume]
          rfl
      | false => rfl

theorem repeatsAt_shift (span : Span) (offset : Nat) :
    (machine.behind before).repeatsAt (span.shift before.size) (offset + before.size) =
      machine.repeatsAt span offset := by
  have hlength : (span.shift before.size).length = span.length := by
    simp only [Span.length, Span.shift]
    omega
  have hthere : Span.mk (offset + before.size) (offset + before.size + span.length) =
      Span.shift before.size ⟨offset, offset + span.length⟩ := by
    simp only [Span.shift, Nat.add_right_comm]
  rw [repeatsAt, hlength, hthere, behind, Span.bytes_shift, Span.bytes_shift, repeatsAt]

theorem effect_shift {thread : Thread} {instr : Instr} (hscreened : machine.Screened thread)
    (hinstr : machine.program.code[thread.pc]? = some instr) :
    (machine.behind before).effect (thread.shift before.size) instr =
      (machine.effect thread instr).shift before.size := by
  cases instr with
  | byte value => exact consumeIf_shift before thread _
  | set index => exact consumeIf_shift before thread _
  | any => exact consumeIf_shift before thread _
  | split preferred other => rfl
  | jump target => rfl
  | openGroup group =>
      have hopened := Thread.setOpened_shift before.size thread.next group (some thread.offset)
      simp only [effect, Thread.shift_next, Thread.openedAt_shift]
      exact congrArg (Effect.proceed · _) hopened
  | closeGroup group =>
      simp only [effect, Thread.shift_next, Thread.register_shift, Thread.close_shift]
      rfl
  | mark slot =>
      have hmarked := Thread.setMark_shift before.size thread.next slot (some thread.offset)
      simp only [effect, Thread.shift_next, Thread.markedAt_shift]
      exact congrArg (Effect.proceed · _) hmarked
  | backref group =>
      simp only [effect, Thread.capture_shift]
      cases thread.capture group with
      | none => rfl
      | some span =>
          have hrepeats : (machine.behind before).repeatsAt (span.shift before.size)
              (thread.offset + before.size) = machine.repeatsAt span thread.offset :=
            repeatsAt_shift before span thread.offset
          have hlength : (span.shift before.size).length = span.length :=
            Nat.add_sub_add_right span.stop before.size span.start
          simp only [Option.map_some, Thread.shift, hrepeats]
          split
          · rw [hlength]
            exact congrArg (Effect.proceed · []) (Thread.shift_consume before.size thread _)
          · rfl
  | assert anchor =>
      have hmem : Instr.assert anchor ∈ machine.program.code := Array.mem_of_getElem? hinstr
      have hholds : anchor.holds (machine.behind before).text (thread.shift before.size).offset =
          anchor.holds machine.text thread.offset :=
        Anchor.holds_append before machine.text (hscreened.imp_right fun hblind => hblind _ hmem)
      simp only [effect, hholds]
      split <;> rfl
  | check slot =>
      have hsame : ((thread.markedAt slot).map (· + before.size) ==
          some (thread.offset + before.size)) = (thread.markedAt slot == some thread.offset) := by
        cases thread.markedAt slot with
        | none => rfl
        | some noted => simp
      simp only [effect, Thread.markedAt_shift]
      rw [Thread.shift, hsame]
      split <;> rfl
  | accept =>
      have hend : ((thread.shift before.size).offset != (machine.behind before).text.size) =
          (thread.offset != machine.text.size) := by
        simp only [Thread.shift, behind, Array.size_append, bne]
        rw [Nat.add_comm before.size]
        simp
      have hanchored : (machine.behind before).anchoredEnd = machine.anchoredEnd := rfl
      simp only [effect, hanchored, hend]
      split <;> rfl

theorem unwind_shift (distance : Nat) (thread : Thread) (log : List Record) :
    unwind (thread.shift distance) (log.map (·.shift distance)) =
      (unwind thread log).map fun found =>
        (found.1.shift distance, found.2.map (·.shift distance)) := by
  induction log generalizing thread with
  | nil => rfl
  | cons record log ih =>
      cases record with
      | branch pc offset => rfl
      | register index noted =>
          have hrest := ih (thread.setRegister index noted)
          rw [← Thread.setRegister_shift] at hrest
          exact hrest
      | opened group noted =>
          have hrest := ih (thread.setOpened group noted)
          rw [← Thread.setOpened_shift] at hrest
          exact hrest
      | mark slot noted =>
          have hrest := ih (thread.setMark slot noted)
          rw [← Thread.setMark_shift] at hrest
          exact hrest

theorem backtrack_shift (thread : Thread) (log : List Record) :
    (∃ next, backtrack thread log = .continues next ∧ ∀ before : Text,
      backtrack (thread.shift before.size) (log.map (·.shift before.size)) =
        .continues (next.shift before.size)) ∨
    ∃ accepted : Option Thread, backtrack thread log = .halts (accepted.map Thread.toMatch) ∧
      ∀ before : Text, backtrack (thread.shift before.size) (log.map (·.shift before.size)) =
        .halts (accepted.map fun thread => (thread.shift before.size).toMatch) := by
  simp only [backtrack, unwind_shift]
  cases unwind thread log with
  | none => exact .inr ⟨none, rfl, fun _ => rfl⟩
  | some found => exact .inl ⟨_, rfl, fun _ => rfl⟩

/-- A step is the same behind something else, if the thread does not notice it. It leads to the
state moved along, or it halts with the match of a thread moved along, if there is a match. -/
theorem step_shift {config : Config}
    (hscreened : ∀ thread ∈ config.threads, machine.Screened thread) :
    (∃ next, machine.step config = .continues next ∧ ∀ before : Text,
      (machine.behind before).step (config.shift before.size) =
        .continues (next.shift before.size)) ∨
    ∃ accepted : Option Thread, machine.step config = .halts (accepted.map Thread.toMatch) ∧
      ∀ before : Text, (machine.behind before).step (config.shift before.size) =
        .halts (accepted.map fun thread => (thread.shift before.size).toMatch) := by
  cases config with
  | resuming thread log => exact .inl ⟨_, rfl, fun _ => rfl⟩
  | running thread log =>
      have hthread := hscreened thread List.mem_cons_self
      have hgivenUp := backtrack_shift thread log
      have hcode (before : Text) : (machine.behind before).program.code[
          (thread.shift before.size).pc]? = machine.program.code[thread.pc]? := rfl
      simp only [Config.shift, step, hcode]
      cases hinstr : machine.program.code[thread.pc]? with
      | none => exact hgivenUp
      | some instr =>
          simp only [effect_shift _ hthread hinstr]
          cases machine.effect thread instr with
          | proceed next records =>
              refine .inl ⟨_, rfl, fun before => ?_⟩
              simp only [Effect.shift, List.map_append]
          | fail => exact hgivenUp
          | accept => exact .inr ⟨some thread, rfl, fun _ => rfl⟩

theorem run_shift (steps : Nat) {config : Config}
    (hscreened : ∀ thread ∈ config.threads, machine.Screened thread) :
    (∃ stopped, machine.run steps config = .paused stopped ∧ ∀ before : Text,
      (machine.behind before).run steps (config.shift before.size) =
        .paused (stopped.shift before.size)) ∨
    ∃ (accepted : Option Thread) (left : Nat),
      machine.run steps config = .halted (accepted.map Thread.toMatch) left ∧
      ∀ before : Text, (machine.behind before).run steps (config.shift before.size) =
        .halted (accepted.map fun thread => (thread.shift before.size).toMatch) left := by
  induction steps generalizing config with
  | zero => exact .inl ⟨config, rfl, fun _ => rfl⟩
  | succ steps ih =>
      simp only [run]
      rcases step_shift hscreened with ⟨next, hnext, hmoved⟩ | ⟨accepted, hhalts, hmoved⟩
      · simp only [hnext, hmoved]
        exact ih (inherited_screened.step hscreened hnext)
      · simp only [hhalts, hmoved]
        exact .inr ⟨accepted, steps, rfl, fun _ => rfl⟩

theorem run_initial_shift (steps : Nat) {start : Nat}
    (hscreened : machine.Screened (.start machine.program start)) :
    (∃ stopped, machine.run steps (machine.initial start) = .paused stopped ∧ ∀ before : Text,
      (machine.behind before).run steps ((machine.behind before).initial (start + before.size)) =
        .paused (stopped.shift before.size)) ∨
    ∃ (accepted : Option Thread) (left : Nat),
      machine.run steps (machine.initial start) =
        .halted (accepted.map Thread.toMatch) left ∧ ∀ before : Text,
      (machine.behind before).run steps ((machine.behind before).initial (start + before.size)) =
        .halted (accepted.map fun thread => (thread.shift before.size).toMatch) left := by
  have hinitial (before : Text) : (machine.behind before).initial (start + before.size) =
      (machine.initial start).shift before.size :=
    congrArg (Config.running · []) (Thread.start_shift before.size machine.program start).symm
  simp only [hinitial]
  exact run_shift steps (List.forall_mem_singleton.mpr hscreened)

end Machine

/-! ### Attempts -/

section Attempts

variable {program : Program} {text : Text} {anchoredEnd : Bool} {start : Nat}

/-- An attempt whose run never halts reaches its limit. -/
theorem attempt_eq_timeout (hstart : start ≤ text.size)
    (hnever : ¬ ∃ steps answer left, (⟨program, text, anchoredEnd⟩ : Machine).run steps
      (Machine.initial ⟨program, text, anchoredEnd⟩ start) = .halted answer left)
    (limit : StepLimit) : attempt program text limit anchoredEnd start = .error .timeout := by
  let machine : Machine := ⟨program, text, anchoredEnd⟩
  have hsize : start ≤ machine.text.size := hstart
  cases hanswer : attempt program text limit anchoredEnd start with
  | error error => rw [eq_timeout_of_attempt hanswer]
  | ok answer =>
      obtain ⟨steps, left, hrun⟩ := Machine.exists_halted_of_answer hsize hanswer
      exact absurd ⟨steps, answer, left, hrun⟩ hnever

/-- Attempts behind whatever else give the same answer, the match of one thread moved along, or all
of them reach the limit. -/
theorem attempt_shift (hstart : start ≤ text.size)
    (hscreened : (⟨program, text, anchoredEnd⟩ : Machine).Screened (.start program start))
    (limit : StepLimit) :
    (∀ before : Text, attempt program (before ++ text) limit anchoredEnd (start + before.size) =
      .error .timeout) ∨
    ∃ accepted : Option Thread, ∀ before : Text,
      attempt program (before ++ text) limit anchoredEnd (start + before.size) =
        .ok (accepted.map fun thread => (thread.shift before.size).toMatch) := by
  let machine : Machine := ⟨program, text, anchoredEnd⟩
  have hmoved (before : Text) : start + before.size ≤ (before ++ text).size := by
    rw [Array.size_append]
    omega
  have hmachine : machine.Screened (.start program start) := hscreened
  have hruns (steps : Nat) := Machine.run_initial_shift steps hmachine
  by_cases hhalts : ∃ steps answer left,
      machine.run steps (machine.initial start) = .halted answer left
  · obtain ⟨steps, answer, left, hrun⟩ := hhalts
    rcases hruns steps with ⟨stopped, hpaused, -⟩ | ⟨accepted, left', hhalted, hbehind⟩
    · cases hrun.symm.trans hpaused
    · obtain ⟨taken, -, hsum, -, -⟩ := exists_steps_of_halted hstart hhalted
      by_cases hallows : limit.Allows taken
      · refine .inr ⟨accepted, fun before => ?_⟩
        obtain ⟨taken', -, hsum', hanswer, -⟩ :=
          exists_steps_of_halted (hmoved before) (hbehind before)
        obtain rfl : taken' = taken := by omega
        exact hanswer limit hallows
      · refine .inl fun before => ?_
        obtain ⟨taken', -, hsum', -, hcut⟩ :=
          exists_steps_of_halted (hmoved before) (hbehind before)
        obtain rfl : taken' = taken := by omega
        exact hcut limit hallows
  · refine .inl fun before => attempt_eq_timeout (hmoved before) ?_ limit
    rintro ⟨steps, answer, left, hrun⟩
    rcases hruns steps with ⟨stopped, -, hpaused⟩ | ⟨accepted, left', hhalted, -⟩
    · cases hrun.symm.trans (hpaused before)
    · exact hhalts ⟨steps, _, left', hhalted⟩

/-- They take as many steps, too. -/
theorem stepsWithin?_shift
    (hscreened : (⟨program, text, anchoredEnd⟩ : Machine).Screened (.start program start))
    (bound : Nat) :
    (∀ before : Text, stepsWithin? bound program (before ++ text) anchoredEnd
      (start + before.size) = none) ∨
    ∃ (steps : Nat) (accepted : Option Thread), ∀ before : Text,
      stepsWithin? bound program (before ++ text) anchoredEnd (start + before.size) =
        some (steps, accepted.map fun thread => (thread.shift before.size).toMatch) := by
  let machine : Machine := ⟨program, text, anchoredEnd⟩
  have hmachine : machine.Screened (.start program start) := hscreened
  rcases Machine.run_initial_shift bound hmachine with
    ⟨stopped, -, hbehind⟩ | ⟨accepted, left, -, hbehind⟩
  · refine .inl fun before => ?_
    have hrun : Machine.run ⟨program, before ++ text, anchoredEnd⟩ bound
        (Machine.initial ⟨program, before ++ text, anchoredEnd⟩ (start + before.size)) = _ :=
      hbehind before
    simp only [stepsWithin?, hrun]
  · refine .inr ⟨bound - left, accepted, fun before => ?_⟩
    have hrun : Machine.run ⟨program, before ++ text, anchoredEnd⟩ bound
        (Machine.initial ⟨program, before ++ text, anchoredEnd⟩ (start + before.size)) = _ :=
      hbehind before
    simp only [stepsWithin?, hrun]

end Attempts

/-! ### Two texts with the same end -/

/-- The same span, if one is counted from `origin` and the other from `origin'`. -/
structure Span.Moved (origin origin' : Nat) (span span' : Span) : Prop where
  start : span'.start + origin = span.start + origin'
  stop : span'.stop + origin = span.stop + origin'

/-- The same offset, if one is counted from `origin` and the other from `origin'`, or none at
all. -/
def EndMoved (origin origin' stop stop' : Nat) : Prop :=
  stop' + origin = stop + origin' ∨ stop = Thread.unset ∧ stop' = Thread.unset

/-- The same match with the same groups, if one is counted from `origin` and the other from
`origin'`. If the whole match has been captured, both its ends are there. -/
structure Match.Moved (origin origin' : Nat) (found found' : Match) : Prop where
  start : EndMoved origin origin' found.span.start found'.span.start
  stop : EndMoved origin origin' found.span.stop found'.span.stop
  span : ∀ whole, found.groups.head? = some (some whole) →
    found.span.Moved origin origin' found'.span
  groups : List.Forall₂ (Option.Rel (Span.Moved origin origin')) found.groups found'.groups

section

variable {distance distance' origin origin' : Nat}

theorem Span.moved_shift (span : Span) (h : distance' + origin = distance + origin') :
    (span.shift distance).Moved origin origin' (span.shift distance') := by
  constructor <;> simp only [Span.shift] <;> omega

theorem Thread.endMoved_register (thread : Thread) (h : distance' + origin = distance + origin')
    (index : Nat) :
    EndMoved origin origin' (((thread.shift distance).register index).getD unset)
      (((thread.shift distance').register index).getD unset) := by
  rw [register_shift, register_shift]
  cases thread.register index with
  | none => exact .inr ⟨rfl, rfl⟩
  | some offset =>
      left
      simp only [Option.map_some, Option.getD_some]
      omega

theorem Thread.moved_toMatch (thread : Thread) (h : distance' + origin = distance + origin') :
    (thread.shift distance).toMatch.Moved origin origin' (thread.shift distance').toMatch where
  start := thread.endMoved_register h 0
  stop := thread.endMoved_register h 1
  span := by
    intro whole hwhole
    rw [head?_groups_toMatch, capture_shift] at hwhole
    obtain ⟨span, hspan, rfl⟩ := Option.map_eq_some_iff.mp hwhole
    have hmatch (distance : Nat) : (thread.shift distance).toMatch.span = span.shift distance := by
      apply span_toMatch
      rw [capture_shift, hspan]
      rfl
    rw [hmatch, hmatch]
    exact span.moved_shift h
  groups := by
    rw [groups_toMatch_shift, groups_toMatch_shift]
    apply List.forall₂_map_left_iff.mpr
    apply List.forall₂_map_right_iff.mpr
    apply List.forall₂_same.mpr
    intro group _
    cases group with
    | none => exact .none
    | some span => exact .some (span.moved_shift h)

theorem Option.rel_moved_toMatch (accepted : Option Thread)
    (h : distance' + origin = distance + origin') :
    Option.Rel (Match.Moved origin origin')
      (accepted.map fun thread => (thread.shift distance).toMatch)
      (accepted.map fun thread => (thread.shift distance').toMatch) := by
  cases accepted with
  | none => exact .none
  | some thread => exact .some (thread.moved_toMatch h)

end

/-- Attempts at two offsets of two texts come to the same: under every limit both reach it, or both
fail, or both find the same match, counted from the offset of the attempt; and if they halt, they
take the same number of steps. -/
structure Program.SameAttempts (program : Program) (anchoredEnd : Bool) (text : Text) (start : Nat)
    (text' : Text) (start' : Nat) : Prop where
  answers : ∀ limit,
    (attempt program text limit anchoredEnd start = .error .timeout ∧
      attempt program text' limit anchoredEnd start' = .error .timeout) ∨
    ∃ answer answer', attempt program text limit anchoredEnd start = .ok answer ∧
      attempt program text' limit anchoredEnd start' = .ok answer' ∧
      Option.Rel (Match.Moved start start') answer answer'
  steps : ∀ bound,
    Option.Rel
      (fun taken taken' => taken.1 = taken'.1 ∧
        Option.Rel (Match.Moved start start') taken.2 taken'.2)
      (stepsWithin? bound program text anchoredEnd start)
      (stepsWithin? bound program text' anchoredEnd start')

/-- What stands in front of a screened attempt may be exchanged. -/
theorem Program.sameAttempts_of_screened {program : Program} {text : Text} {anchoredEnd : Bool}
    {start : Nat} (hstart : start ≤ text.size)
    (hscreened : (⟨program, text, anchoredEnd⟩ : Machine).Screened (.start program start))
    (before before' : Text) :
    program.SameAttempts anchoredEnd (before ++ text) (start + before.size)
      (before' ++ text) (start + before'.size) := by
  have hdistance : before'.size + (start + before.size) = before.size + (start + before'.size) := by
    omega
  constructor
  · intro limit
    rcases attempt_shift hstart hscreened limit with hcut | ⟨accepted, hanswer⟩
    · exact .inl ⟨hcut before, hcut before'⟩
    · exact .inr ⟨_, _, hanswer before, hanswer before',
        Option.rel_moved_toMatch accepted hdistance⟩
  · intro bound
    rcases stepsWithin?_shift hscreened bound with hmore | ⟨steps, accepted, htaken⟩
    · rw [hmore, hmore]
      exact .none
    · rw [htaken, htaken]
      exact .some ⟨rfl, Option.rel_moved_toMatch accepted hdistance⟩

/-- An attempt sees at most one byte of what is in front of it. If that byte and all that follows
are the same in two texts, so is what the attempts come to, whatever the texts begin with. A program
without the anchors that look back does not even see that byte, which may be another one or
missing. A match of a compiled program has both its ends, for it is its own first group. -/
theorem attempt_sees_one_byte_back (program : Program) (anchoredEnd : Bool)
    (before before' rest : Text) :
    (∀ seen : Byte,
      program.SameAttempts anchoredEnd (before ++ #[seen] ++ rest) (before.size + 1)
        (before' ++ #[seen] ++ rest) (before'.size + 1)) ∧
    ((∀ instr ∈ program.code, instr.looksBack = false) →
      program.SameAttempts anchoredEnd (before ++ rest) before.size
        (before' ++ rest) before'.size) ∧
    ∀ maxUnroll pattern, (compilePattern maxUnroll pattern).program = .ok program →
      ∀ text limit start found, start ≤ text.size →
        attempt program text limit anchoredEnd start = .ok (some found) →
        found.groups.head? = some (some found.span) := by
  refine ⟨?_, ?_, ?_⟩
  · intro seen
    have hstart : 1 ≤ (#[seen] ++ rest).size := by
      rw [Array.size_append]
      exact Nat.le_add_right 1 _
    have hscreened : (⟨program, #[seen] ++ rest, anchoredEnd⟩ : Machine).Screened
        (.start program 1) := .inl Nat.one_pos
    have hsame := Program.sameAttempts_of_screened hstart hscreened before before'
    simpa only [Array.append_assoc, Nat.add_comm 1] using hsame
  · intro hblind
    have hscreened : (⟨program, rest, anchoredEnd⟩ : Machine).Screened (.start program 0) :=
      .inr hblind
    have hsame := Program.sameAttempts_of_screened (Nat.zero_le _) hscreened before before'
    simpa only [Nat.zero_add] using hsame
  · intro maxUnroll pattern hcompile text limit start found hstart hfound
    exact head?_groups_of_attempt (framed_of_compilePattern hcompile) hstart hfound

/-- The anchor of `\b(a)\1` looks at the blank in front of `aa`, and not at what is in front of
that. The program of `(a)\1$` finds the same match where there is another byte in front, or none. -/
theorem attempt_sees_one_byte_back_of_boundary :
    let doubled := Tree.cat (.group 2 (some 1) (.atom 3 (.byte 97))) (.atom 5 (.backref 1))
    let bounded := Program.ofTree (.cat (.atom 0 (.anchor .wordBoundary)) doubled) 1
    let ending := Program.ofTree (.cat doubled (.atom 7 (.anchor .textEnd))) 1
    (compilePattern 2000 (ascii "\\b(a)\\1")).program = .ok bounded ∧
    (compilePattern 2000 (ascii "(a)\\1$")).program = .ok ending ∧
    (∃ found found', found.Moved 3 1 found' ∧
      attempt bounded #[120, 121, 32, 97, 97] (.atMost 20) false 3 = .ok (some found) ∧
      attempt bounded #[32, 97, 97] (.atMost 20) false 1 = .ok (some found')) ∧
    (∀ instr ∈ ending.code, instr.looksBack = false) ∧
    ending.SameAttempts false #[97, 97, 97] 1 #[97, 97] 0 := by
  intro doubled bounded ending
  have hblind : ∀ instr ∈ ending.code, instr.looksBack = false := by decide
  obtain ⟨hseen, -⟩ := attempt_sees_one_byte_back bounded false #[120, 121] #[] #[97, 97]
  obtain ⟨-, hmissing, -⟩ := attempt_sees_one_byte_back ending false #[97] #[] #[97, 97]
  refine ⟨rfl, rfl, ?_, hblind, hmissing hblind⟩
  have hanswer : attempt bounded #[32, 97, 97] (.atMost 20) false 1 =
      .ok (some ⟨⟨1, 3⟩, [some ⟨1, 3⟩, some ⟨1, 2⟩]⟩) := rfl
  rcases (hseen 32).answers (.atMost 20) with ⟨-, htimeout⟩ |
    ⟨answer, answer', hfirst, hsecond, hrel⟩
  · cases hanswer.symm.trans htimeout
  · obtain rfl := Except.ok.inj (hanswer.symm.trans hsecond)
    cases hrel with
    | some hmoved => exact ⟨_, _, hmoved, hfirst, hsecond⟩

end RegexSearch
