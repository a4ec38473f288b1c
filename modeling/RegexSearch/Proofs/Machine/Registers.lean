import RegexSearch.Machine.Basic

/-!
The registers of a thread. A group has captured something if both its registers are set; closing
the group sets them to the place where it was opened and to where the thread is, and leaves the
registers of all other groups as they are. What a log holds of the two puts them back.
-/

namespace RegexSearch

/-- Writing back what an entry held before undoes a write to it, inside the bounds and outside. -/
@[simp] theorem setIfInBounds_getElem?_getD {α : Type} (table : Array (Option α)) (index : Nat) :
    table.setIfInBounds index (table[index]?.getD none) = table := by
  apply Array.ext_getElem?
  intro i
  rw [Array.getElem?_setIfInBounds]
  by_cases h : index = i
  · subst h
    by_cases hi : index < table.size <;> simp [hi]
  · simp [h]

namespace Thread

variable {thread : Thread} {group index other : Nat} {span : Span}

/-! ### Single registers -/

@[simp] theorem register_start (program : Program) (offset index : Nat) :
    (start program offset).register index = none := by
  simp only [start, register, Array.getD_eq_getD_getElem?, Array.getElem?_replicate]
  split <;> rfl

theorem register_setRegister (h : index < thread.registers.size) (offset : Option Nat) :
    (thread.setRegister index offset).register index = offset := by
  simp [register, setRegister, h]

theorem register_setRegister_of_ne (h : index ≠ other) (offset : Option Nat) :
    (thread.setRegister index offset).register other = thread.register other := by
  simp [register, setRegister, h]

/-! ### Captures -/

theorem capture_eq_some_iff :
    thread.capture group = some span ↔
      thread.register (2 * group) = some span.start ∧
        thread.register (2 * group + 1) = some span.stop := by
  obtain ⟨start, stop⟩ := span
  unfold capture Span.between?
  cases thread.register (2 * group) <;> cases thread.register (2 * group + 1) <;> simp

@[simp] theorem capture_start (program : Program) (offset group : Nat) :
    (start program offset).capture group = none := by
  simp [capture, Span.between?]

/-- What a group has captured is read in the registers alone. -/
theorem capture_congr {thread' : Thread} (h : thread'.registers = thread.registers) :
    thread'.capture = thread.capture := by
  funext group
  rw [capture, register, register, h]
  rfl

@[simp] theorem size_registers_close (thread : Thread) (group : Nat) :
    (thread.close group).registers.size = thread.registers.size := by
  simp [close, setRegister]

/-- A group that closes has captured the text since it was opened. -/
theorem capture_close (h : 2 * group + 1 < thread.registers.size) :
    (thread.close group).capture group =
      (thread.openedAt group).map fun start => ⟨start, thread.offset⟩ := by
  let noted := thread.setRegister (2 * group) (thread.openedAt group)
  have hnoted : noted.registers.size = thread.registers.size := Array.size_setIfInBounds
  have hstart : (thread.close group).register (2 * group) = thread.openedAt group := by
    rw [close, register_setRegister_of_ne (by omega), register_setRegister (by omega)]
  have hbound : 2 * group + 1 < noted.registers.size := by omega
  have hstop : (thread.close group).register (2 * group + 1) = some thread.offset :=
    register_setRegister hbound (some thread.offset)
  rw [capture, hstart, hstop]
  cases thread.openedAt group <;> rfl

theorem capture_close_of_ne (h : other ≠ group) :
    (thread.close group).capture other = thread.capture other := by
  have hregister (index : Nat) (hstart : 2 * group ≠ index) (hstop : 2 * group + 1 ≠ index) :
      (thread.close group).register index = thread.register index := by
    rw [close, register_setRegister_of_ne hstop, register_setRegister_of_ne hstart]
  rw [capture, hregister _ (by omega) (by omega), hregister _ (by omega) (by omega), capture]

/-- The values that closing a group overwrites, put back in the reverse order. -/
theorem setRegister_close (thread : Thread) (group : Nat) :
    ((thread.close group).setRegister (2 * group + 1)
        (thread.register (2 * group + 1))).setRegister (2 * group)
      (thread.register (2 * group)) = thread := by
  have hne : 2 * group ≠ 2 * group + 1 := by omega
  simp only [close, setRegister, register, Array.getD_eq_getD_getElem?,
    Array.setIfInBounds_setIfInBounds]
  rw [Array.setIfInBounds_comm _ _ hne]
  simp

/-! ### The match of a thread -/

theorem spans_eq_map {registers : List (Option Nat)} {count : Nat}
    (h : registers.length = 2 * count) :
    spans registers = (List.range count).map fun group =>
      Span.between? (registers[2 * group]?.getD none) (registers[2 * group + 1]?.getD none) := by
  induction count generalizing registers with
  | zero =>
      rw [List.eq_nil_of_length_eq_zero h]
      rfl
  | succ count ih =>
      match registers, h with
      | start :: stop :: rest, h =>
          have hrest : rest.length = 2 * count := by
            simp only [List.length_cons] at h
            omega
          rw [spans, ih hrest, List.range_succ_eq_map, List.map_cons, List.map_map]
          rfl

/-- The groups of a match are what each group has captured. -/
theorem groups_toMatch {count : Nat} (h : thread.registers.size = 2 * count) :
    thread.toMatch.groups = (List.range count).map thread.capture := by
  rw [toMatch, spans_eq_map h]
  apply List.map_congr_left
  intro group _
  simp only [capture, register, Array.getD_eq_getD_getElem?, Array.getElem?_toList]

/-- The first group of a match is the whole match, as far as that has been captured. -/
theorem head?_groups_toMatch {whole : Span} :
    thread.toMatch.groups.head? = some (some whole) ↔ thread.capture 0 = some whole := by
  obtain ⟨registers, hregisters⟩ : ∃ registers : List (Option Nat),
      thread.registers = registers.toArray := ⟨_, Array.toArray_toList.symm⟩
  simp only [toMatch, capture, register, hregisters]
  match registers with
  | [] => simp [spans, Span.between?]
  | [start] => cases start <;> simp [spans, Span.between?]
  | start :: stop :: rest => simp [spans]

/-- If the whole match has been captured, the match that is found is that one. -/
theorem span_toMatch (h : thread.capture 0 = some span) : thread.toMatch.span = span := by
  obtain ⟨hstart, hstop⟩ := capture_eq_some_iff.mp h
  simp only [Nat.mul_zero, Nat.zero_add] at hstart hstop
  rw [toMatch, hstart, hstop]
  rfl

end Thread

end RegexSearch
