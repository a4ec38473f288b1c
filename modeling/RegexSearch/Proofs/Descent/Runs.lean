import RegexSearch.Proofs.Descent.Basic

/-!
What a part of a descent does, as rules. A part runs safely if it returns, if it looks only at bytes
of the pattern, if it moves the cursor forward and not beyond the end, and if each round of its
loops gets further. The rules take a part to pieces and say for each piece where it ends and with
which result; the trace does not show in them.
-/

namespace RegexSearch

namespace Event

/-- What must hold of each event. -/
def Safe (pattern : Bytes) : Event → Prop
  | look index => index < pattern.length
  | move start stop => start ≤ stop ∧ stop ≤ pattern.length
  | round start stop => start < stop

/-- Where the cursor is after the events of a trace. -/
def cursorAfter : List Event → Nat
  | [] => 0
  | move _ stop :: _ => stop
  | look _ :: earlier => cursorAfter earlier
  | round _ _ :: earlier => cursorAfter earlier

/-- The trace has all moves in it: each begins where the cursor is, and a round ends there. -/
def Connected : List Event → Prop
  | [] => True
  | look _ :: earlier => Connected earlier
  | move start _ :: earlier => start = cursorAfter earlier ∧ Connected earlier
  | round _ stop :: earlier => stop = cursorAfter earlier ∧ Connected earlier

theorem cursorAfter_le {pattern : Bytes} {trace : List Event}
    (h : ∀ event ∈ trace, event.Safe pattern) : cursorAfter trace ≤ pattern.length := by
  induction trace with
  | nil => exact Nat.zero_le _
  | cons event earlier ih =>
      obtain ⟨hevent, hearlier⟩ := List.forall_mem_cons.mp h
      cases event with
      | look index => exact ih hearlier
      | move start stop => exact hevent.2
      | round start stop => exact ih hearlier

end Event

namespace Standing

/-- So many bytes further on. -/
def forward (here : Standing) (count : Nat) : Standing :=
  { here with cursor := here.cursor + count }

/-- Here, with a reason to fail. -/
def failed (here : Standing) (error : Error) : Standing :=
  { here with failure := some error }

end Standing

/-! ### Safe runs -/

/-- The trace leads here, and all that has happened is safe. -/
structure Sound (pattern : Bytes) (here : Standing) (trace : List Event) : Prop where
  cursor : here.cursor = Event.cursorAfter trace
  safe : ∀ event ∈ trace, event.Safe pattern
  connected : Event.Connected trace

theorem Sound.start (pattern : Bytes) : Sound pattern ⟨0, 0, none⟩ [] :=
  ⟨rfl, List.forall_mem_nil _, trivial⟩

/-- From here, a part of a descent returns, runs safely and has this outcome. -/
def Runs (pattern : Bytes) {α : Type} (part : Descent α) (here : Standing)
    (outcome : Option α × Standing) : Prop :=
  ∀ trace, Sound pattern here trace →
    ∃ longer, part.run here trace = some (outcome, longer) ∧ Sound pattern outcome.2 longer

section Bytes

variable {pattern rest : Bytes} {position : Nat} {b : Byte}

theorem lt_length_of_drop (h : pattern.drop position = b :: rest) : position < pattern.length := by
  have hlength := congrArg List.length h
  rw [List.length_drop, List.length_cons] at hlength
  omega

theorem getElem?_of_drop (h : pattern.drop position = b :: rest) : pattern[position]? = some b := by
  rw [← List.head?_drop, h, List.head?_cons]

theorem drop_add_of_drop (h : pattern.drop position = rest) (count : Nat) :
    pattern.drop (position + count) = rest.drop count := by
  rw [← List.drop_drop, h]

theorem drop_behind_of_drop (h : pattern.drop position = b :: rest) (taken : Nat) :
    pattern.drop (position + 1 + taken) = rest.drop taken := by
  rw [Nat.add_assoc, drop_add_of_drop h, Nat.add_comm, List.drop_succ_cons]

end Bytes

namespace Runs

open Descent

variable {pattern : Bytes} {α β : Type} {here there : Standing} {b : Byte} {rest : Bytes}

theorem cursor_le {part : Descent α} {outcome : Option α × Standing}
    (h : Runs pattern part here outcome) (hhere : here.cursor ≤ pattern.length) :
    outcome.2.cursor ≤ pattern.length := by
  have hstart : Sound pattern here [.move 0 here.cursor] := by
    refine ⟨rfl, ?_, rfl, trivial⟩
    exact List.forall_mem_singleton.mpr ⟨Nat.zero_le _, hhere⟩
  obtain ⟨longer, -, hsound⟩ := h _ hstart
  rw [hsound.cursor]
  exact Event.cursorAfter_le hsound.safe

theorem pure (value : α) : Runs pattern (Pure.pure value : Descent α) here (some value, here) :=
  fun trace hsound => ⟨trace, rfl, hsound⟩

theorem failure : Runs pattern (Alternative.failure : Descent α) here (none, here) :=
  fun trace hsound => ⟨trace, rfl, hsound⟩

theorem bind {part : Descent α} {next : α → Descent β} {value : α} {outcome : Option β × Standing}
    (h : Runs pattern part here (some value, there))
    (hnext : Runs pattern (next value) there outcome) :
    Runs pattern (part >>= next) here outcome := by
  intro trace hsound
  obtain ⟨middle, hrun, hmiddle⟩ := h trace hsound
  obtain ⟨longer, hrest, hlonger⟩ := hnext middle hmiddle
  refine ⟨longer, ?_, hlonger⟩
  change (part.run here trace).bind _ = _
  rw [hrun]
  exact hrest

/-- What fails has no continuation. -/
theorem bind_none {part : Descent α} {next : α → Descent β}
    (h : Runs pattern part here (none, there)) :
    Runs pattern (part >>= next) here (none, there) := by
  intro trace hsound
  obtain ⟨middle, hrun, hmiddle⟩ := h trace hsound
  refine ⟨middle, ?_, hmiddle⟩
  change (part.run here trace).bind _ = _
  rw [hrun]
  rfl

theorem orElse_some {part other : Descent α} {value : α}
    (h : Runs pattern part here (some value, there)) :
    Runs pattern (part <|> other) here (some value, there) := by
  intro trace hsound
  obtain ⟨middle, hrun, hmiddle⟩ := h trace hsound
  refine ⟨middle, ?_, hmiddle⟩
  change (part.run here trace).bind _ = _
  rw [hrun]
  rfl

theorem orElse_none {part other : Descent α} {outcome : Option α × Standing}
    (h : Runs pattern part here (none, there)) (hother : Runs pattern other there outcome) :
    Runs pattern (part <|> other) here outcome := by
  intro trace hsound
  obtain ⟨middle, hrun, hmiddle⟩ := h trace hsound
  obtain ⟨longer, hrest, hlonger⟩ := hother middle hmiddle
  refine ⟨longer, ?_, hlonger⟩
  change (part.run here trace).bind _ = _
  rw [hrun]
  exact hrest

theorem get : Runs pattern (MonadState.get : Descent Standing) here (some here, here) :=
  fun trace hsound => ⟨trace, rfl, hsound⟩

theorem modify {f : Standing → Standing} (h : (f here).cursor = here.cursor) :
    Runs pattern (MonadState.modifyGet fun here => ((), f here) : Descent Unit) here
      (some (), f here) :=
  fun trace hsound => ⟨trace, rfl, h.trans hsound.cursor, hsound.safe, hsound.connected⟩

theorem cursor : Runs pattern Descent.cursor here (some here.cursor, here) :=
  fun trace hsound => ⟨trace, rfl, hsound⟩

theorem move {count : Nat} (h : here.cursor + count ≤ pattern.length) :
    Runs pattern (Descent.move count) here (some (), here.forward count) := by
  intro trace hsound
  refine ⟨_, rfl, rfl, ?_, hsound.cursor, hsound.connected⟩
  exact List.forall_mem_cons.mpr ⟨⟨Nat.le_add_right _ _, h⟩, hsound.safe⟩

theorem round {start : Nat} (h : start < here.cursor) :
    Runs pattern (Descent.round start) here (some (), here) := by
  intro trace hsound
  refine ⟨_, rfl, hsound.cursor, ?_, hsound.cursor, hsound.connected⟩
  exact List.forall_mem_cons.mpr ⟨h, hsound.safe⟩

theorem refuse (h : here.failure = none) (cause : Cause) (position : Nat) :
    Runs pattern (Descent.refuse cause position : Descent α) here
      (none, here.failed ⟨cause, position⟩) := by
  intro trace hsound
  refine ⟨trace, ?_, hsound.cursor, hsound.safe, hsound.connected⟩
  change some ((none, { here with failure := here.failure.or (some ⟨cause, position⟩) }), trace) = _
  rw [h]
  rfl

theorem look {index : Nat} (h : pattern[index]? = some b) :
    Runs pattern (Descent.look pattern index) here (some b, here) := by
  intro trace hsound
  refine ⟨.look index :: trace, ?_, hsound.cursor, ?_, hsound.connected⟩
  · change some ((some (pattern[index]?.getD 0), here), _) = _
    rw [h]
    rfl
  · exact List.forall_mem_cons.mpr ⟨(List.getElem?_eq_some_iff.mp h).1, hsound.safe⟩

theorem peek (h : pattern.drop here.cursor = b :: rest) :
    Runs pattern (Descent.peek pattern) here (some b, here) :=
  bind cursor (look (getElem?_of_drop h))

theorem take (h : pattern.drop here.cursor = b :: rest) :
    Runs pattern (Descent.take pattern) here (some b, here.forward 1) :=
  bind (peek h) (bind (move (lt_length_of_drop h)) (pure b))

/-- The cursor moves over the next byte. -/
theorem pass {position groups : Nat} {failure : Option Error}
    (h : pattern.drop position = b :: rest) :
    Runs pattern (Descent.move 1) ⟨position, groups, failure⟩
      (some (), ⟨position + 1, groups, failure⟩) :=
  move (lt_length_of_drop h)

theorem atEnd (h : pattern.drop here.cursor = rest) :
    Runs pattern (Descent.atEnd pattern) here (some rest.isEmpty, here) := by
  have hvalue : rest.isEmpty = decide (pattern.length ≤ here.cursor) := by
    rw [Bool.eq_iff_iff, List.isEmpty_iff, decide_eq_true_iff, ← h, List.drop_eq_nil_iff]
  rw [hvalue]
  exact bind cursor (pure _)

theorem ahead (h : pattern.drop here.cursor = rest) (condition : Byte → Bool) :
    Runs pattern (Descent.ahead pattern condition) here
      (some (rest.head?.any condition), here) := by
  refine bind (atEnd h) ?_
  cases rest with
  | nil => exact pure false
  | cons b rest => exact bind (peek h) (pure (condition b))

/-- Looking ahead at a condition is in vain, or finds a byte that satisfies it. -/
theorem ahead_cases (condition : Byte → Bool) :
    (Runs pattern (Descent.ahead pattern condition) here (some false, here) ∧
      ∀ b rest, pattern.drop here.cursor = b :: rest → condition b = false) ∨
    ∃ b rest, pattern.drop here.cursor = b :: rest ∧ condition b = true ∧
      Runs pattern (Descent.ahead pattern condition) here (some true, here) := by
  cases hrest : pattern.drop here.cursor with
  | nil => exact .inl ⟨ahead hrest condition, fun b rest hcons => by cases hcons⟩
  | cons b rest =>
      have hahead := ahead hrest condition
      rw [List.head?_cons, Option.any_some] at hahead
      cases hb : condition b with
      | false =>
          rw [hb] at hahead
          refine .inl ⟨hahead, fun b' rest' hcons => ?_⟩
          obtain ⟨rfl, -⟩ := List.cons.inj hcons
          exact hb
      | true =>
          rw [hb] at hahead
          exact .inr ⟨b, rest, rfl, hb, hahead⟩

theorem skip (h : pattern.drop here.cursor = rest) (condition : Byte → Bool) :
    Runs pattern (Descent.skip pattern condition) here
      (some (rest.head?.any condition), here.forward (rest.head?.any condition).toNat) := by
  refine bind (ahead h condition) ?_
  cases rest with
  | nil => exact pure false
  | cons b rest =>
      change Runs pattern (if condition b = true then _ else _) here
        (some (condition b), here.forward (condition b).toNat)
      cases condition b with
      | true => exact bind (move (lt_length_of_drop h)) (pure true)
      | false => exact pure false

end Runs

/-! ### Reading

A reading has a value and ends at some offset, or it fails, with or without a reason. -/

/-- From the offset `position`, a part of a descent runs safely and reads what is expected, while
so many groups are open. -/
def Yields (pattern : Bytes) {α : Type} (groups : Nat) (part : Descent α) (position : Nat) :
    Except (Option Error) (α × Nat) → Prop
  | .ok (value, stop) =>
    Runs pattern part ⟨position, groups, none⟩ (some value, ⟨stop, groups, none⟩)
  | .error reason =>
    ∃ stop, Runs pattern part ⟨position, groups, none⟩ (none, ⟨stop, groups, reason⟩)

/-- A reading from the offset `position` on that counts the bytes it takes, refused because of what
begins at the offset `start`. -/
def located {α : Type} (start position : Nat) :
    Except Cause (α × Nat) → Except (Option Error) (α × Nat)
  | .ok (value, taken) => .ok (value, position + taken)
  | .error cause => .error (some ⟨cause, start⟩)

/-- A reading from the offset `position` on that counts the bytes it takes, and fails for just this
reason. -/
def counted {α : Type} (reason : Option Error) (position : Nat) :
    Option (α × Nat) → Except (Option Error) (α × Nat)
  | some (value, taken) => .ok (value, position + taken)
  | none => .error reason

namespace Yields

open Descent

variable {pattern : Bytes} {α β : Type} {groups position middle : Nat}

theorem pure (value : α) (stop : Nat) :
    Yields pattern groups (Pure.pure value) stop (.ok (value, stop)) :=
  Runs.pure value

theorem refuse (cause : Cause) (start : Nat) :
    Yields pattern groups (Descent.refuse cause start : Descent α) position
      (.error (some ⟨cause, start⟩)) :=
  ⟨position, Runs.refuse rfl cause start⟩

theorem failure : Yields pattern groups (Alternative.failure : Descent α) position (.error none) :=
  ⟨position, Runs.failure⟩

theorem after {part : Descent α} {next : α → Descent β} {value : α}
    {expected : Except (Option Error) (β × Nat)}
    (h : Runs pattern part ⟨position, groups, none⟩ (some value, ⟨middle, groups, none⟩))
    (hnext : Yields pattern groups (next value) middle expected) :
    Yields pattern groups (part >>= next) position expected := by
  cases expected with
  | ok result => exact h.bind hnext
  | error reason =>
      obtain ⟨stop, hstop⟩ := hnext
      exact ⟨stop, h.bind hstop⟩

theorem stopped {part : Descent α} {next : α → Descent β} {reason : Option Error}
    (h : Yields pattern groups part position (.error reason)) :
    Yields pattern groups (part >>= next) position (.error reason) := by
  obtain ⟨stop, hstop⟩ := h
  exact ⟨stop, hstop.bind_none⟩

/-- What fails without a reason is given one. -/
theorem orElse {part other : Descent α} {start : Nat} {read : Option (α × Nat)}
    {reason : Option Error} (h : Yields pattern groups part position (counted none start read))
    (hother : ∀ stop, Yields pattern groups other stop (.error reason)) :
    Yields pattern groups (part <|> other) position (counted reason start read) := by
  cases read with
  | none =>
      obtain ⟨stop, hstop⟩ := h
      obtain ⟨last, hlast⟩ := hother stop
      exact ⟨last, hstop.orElse_none hlast⟩
  | some result => exact Runs.orElse_some h

end Yields

end RegexSearch
