import Mathlib.Data.List.Basic
import Mathlib.Logic.Function.Basic
import RegexSearch.Match
import RegexSearch.Pattern.Tree

/-!
What a pattern means. From a place in a text, with what the groups have captured so far, a pattern
has a list of outcomes, the places where it may end and what the groups have captured there, the
preferred outcome first. The list follows the tree alone; it knows of no program and no machine.

A round of an unbounded repetition that consumes nothing is not repeated. Behind the required
rounds of a repetition that asks for none it is given up altogether, and in a repetition that asks
for at least one it counts, as the last one.
-/

namespace RegexSearch

/-- Where a pattern has come to in a text, and what each group has captured by then. -/
structure Outcome where
  offset : Nat
  captures : Nat → Option Span

namespace Outcome

/-- A place where nothing has been captured. -/
def start (offset : Nat) : Outcome := ⟨offset, fun _ => none⟩

def advance (here : Outcome) (count : Nat) : Outcome :=
  { here with offset := here.offset + count }

/-- A group that began at the offset `start` ends here. -/
def close (here : Outcome) (group start : Nat) : Outcome :=
  { here with captures := Function.update here.captures group (some ⟨start, here.offset⟩) }

/-- Consumes the next byte if there is one and it satisfies a condition. -/
def consumeIf (here : Outcome) (text : Text) (condition : Byte → Bool) : List Outcome :=
  match text[here.offset]? with
  | some b => if condition b then [here.advance 1] else []
  | none => []

/-- Consumes what stands in a span of the text, if the same bytes stand here. -/
def consumeCopy (here : Outcome) (text : Text) (span : Span) : List Outcome :=
  if Span.bytes ⟨here.offset, here.offset + span.length⟩ text == span.bytes text then
    [here.advance span.length]
  else []

/-- The place lies in the text, and so does all that has been captured. -/
structure Within (text : Text) (here : Outcome) : Prop where
  offset : here.offset ≤ text.size
  spans : ∀ group span, here.captures group = some span → span.stop ≤ text.size

/-- The match that begins at the offset `start` and ends here, with the captures of so many
groups. -/
def toMatch (here : Outcome) (start groups : Nat) : Match where
  span := ⟨start, here.offset⟩
  groups := some ⟨start, here.offset⟩ :: (List.range groups).map fun g => here.captures (g + 1)

end Outcome

/-- The outcomes of an atom. A group that has captured nothing yet has no copy. -/
def Atom.outcomes (text : Text) (here : Outcome) : Atom → List Outcome
  | byte value => here.consumeIf text (· == value)
  | set members => here.consumeIf text members.contains
  | any => here.consumeIf text (!·.isNewline)
  | backref group => (here.captures group).elim [] (here.consumeCopy text)
  | anchor kind => if kind.holds text here.offset then [here] else []

/-! Repetitions of a pattern that has the outcomes `round` by itself. -/

section Repetition

variable (round : Outcome → List Outcome)

/-- So many rounds, one after the other. -/
def rounds : Nat → Outcome → List Outcome
  | 0, here => [here]
  | count + 1, here => (round here).flatMap (rounds count)

/-- Going on comes before leaving if the repetition is greedy, and behind it if it is lazy. -/
def prefer (greedy : Bool) (further : List Outcome) (here : Outcome) : List Outcome :=
  if greedy then further ++ [here] else here :: further

/-- Up to so many rounds, each of which may be the last. -/
def optionals (greedy : Bool) : Nat → Outcome → List Outcome
  | 0, here => [here]
  | count + 1, here => prefer greedy ((round here).flatMap (optionals greedy count)) here

/-- Any number of rounds, each of which consumes something, so that there are no more of them than
the bytes that are `left`. -/
def anyRounds (greedy : Bool) : Nat → Outcome → List Outcome
  | 0, here => [here]
  | left + 1, here =>
    prefer greedy ((round here).flatMap fun there =>
      if here.offset < there.offset then anyRounds greedy left there else []) here

/-- One round or more. Another round may follow as long as each consumes something. -/
def someRounds (greedy : Bool) : Nat → Outcome → List Outcome
  | 0, here => round here
  | left + 1, here =>
    (round here).flatMap fun there =>
      if here.offset < there.offset then prefer greedy (someRounds greedy left there) there
      else [there]

/-- The outcomes of a repetition. If it is unbounded, its last required round is the first one of
`someRounds`. -/
def Quantifier.outcomes (times : Quantifier) (text : Text) (here : Outcome) : List Outcome :=
  match times.max, times.min with
  | some max, min =>
    (rounds round min here).flatMap (optionals round times.greedy (max - min))
  | none, 0 => anyRounds round times.greedy (text.size - here.offset) here
  | none, before + 1 =>
    (rounds round before here).flatMap fun there =>
      someRounds round times.greedy (text.size - there.offset) there

end Repetition

namespace Tree

/-- The outcomes of a pattern. -/
def outcomes (text : Text) : Tree → Outcome → List Outcome
  | atom _ a, here => a.outcomes text here
  | group _ none body, here => body.outcomes text here
  | group _ (some index) body, here =>
    (body.outcomes text here).map fun there => there.close index here.offset
  | cat first rest, here => (first.outcomes text here).flatMap (rest.outcomes text)
  | alt first rest, here => first.outcomes text here ++ rest.outcomes text here
  | rep body times, here => times.outcomes (body.outcomes text) text here

end Tree

/-! ### Outcomes never go back -/

section Repetition

variable {round : Outcome → List Outcome}

@[simp] theorem prefer_nil (greedy : Bool) (here : Outcome) : prefer greedy [] here = [here] := by
  cases greedy <;> rfl

@[simp] theorem mem_prefer {greedy : Bool} {further : List Outcome} {here there : Outcome} :
    there ∈ prefer greedy further here ↔ there = here ∨ there ∈ further := by
  cases greedy <;> simp [prefer, or_comm]

/-- One round of a repetition that asks for none, where `again` goes on behind it. -/
def starRound (round : Outcome → List Outcome) (greedy : Bool) (again : Outcome → List Outcome)
    (here : Outcome) : List Outcome :=
  prefer greedy
    ((round here).flatMap fun there => if here.offset < there.offset then again there else []) here

/-- One round of a repetition that asks for at least one. -/
def plusRound (round : Outcome → List Outcome) (greedy : Bool) (again : Outcome → List Outcome)
    (here : Outcome) : List Outcome :=
  (round here).flatMap fun there =>
    prefer greedy (if here.offset < there.offset then again there else []) there

theorem anyRounds_zero (round : Outcome → List Outcome) (greedy : Bool) (here : Outcome) :
    anyRounds round greedy 0 here = starRound round greedy (fun _ => []) here := by
  have hnone : ((round here).flatMap fun there =>
      if here.offset < there.offset then ([] : List Outcome) else []) = [] := by
    simp
  rw [starRound, hnone, prefer_nil]
  rfl

theorem anyRounds_succ (round : Outcome → List Outcome) (greedy : Bool) (left : Nat)
    (here : Outcome) :
    anyRounds round greedy (left + 1) here =
      starRound round greedy (anyRounds round greedy left) here := rfl

theorem someRounds_zero (round : Outcome → List Outcome) (greedy : Bool) (here : Outcome) :
    someRounds round greedy 0 here = plusRound round greedy (fun _ => []) here := by
  simp [someRounds, plusRound]

theorem someRounds_succ (round : Outcome → List Outcome) (greedy : Bool) (left : Nat)
    (here : Outcome) :
    someRounds round greedy (left + 1) here =
      plusRound round greedy (someRounds round greedy left) here := by
  apply List.flatMap_congr
  intro there _
  split
  · rfl
  · rw [prefer_nil]

/-- Induction on the text that is left. What holds of a loop, if it holds of the rounds that begin
further on, holds at every place. -/
theorem loop_induction {text : Text} {valid : Outcome → Prop}
    (hvalid : ∀ here, valid here → here.offset ≤ text.size)
    {step : (Outcome → List Outcome) → Outcome → List Outcome}
    {meaning : Nat → Outcome → List Outcome}
    (hzero : ∀ here, meaning 0 here = step (fun _ => []) here)
    (hsucc : ∀ left here, meaning (left + 1) here = step (meaning left) here)
    {P : Outcome → List Outcome → Prop}
    (hstep : ∀ again here, valid here →
      (∀ there, valid there → here.offset < there.offset → P there (again there)) →
      P here (step again here))
    {left : Nat} {here : Outcome} (hhere : valid here) (hleft : text.size - here.offset ≤ left) :
    P here (meaning left here) := by
  induction left generalizing here with
  | zero =>
      rw [hzero]
      apply hstep _ here hhere
      intro there hthere hlt
      have hsize := hvalid there hthere
      omega
  | succ left ih =>
      rw [hsucc]
      apply hstep _ here hhere
      intro there hthere hlt
      have hsize := hvalid there hthere
      exact ih hthere (by omega)

variable (rel : Outcome → Outcome → Prop) (hrefl : ∀ here, rel here here)
  (htrans : ∀ a b c, rel a b → rel b c → rel a c)
  (hround : ∀ here, ∀ there ∈ round here, rel here there)

include htrans hround

theorem rel_of_mem_someRounds {greedy : Bool} {left : Nat} {here there : Outcome}
    (h : there ∈ someRounds round greedy left here) : rel here there := by
  induction left generalizing here with
  | zero => exact hround here there h
  | succ left ih =>
      obtain ⟨middle, hmiddle, hthere⟩ := List.mem_flatMap.mp h
      have hfirst := hround here middle hmiddle
      split at hthere
      · rcases mem_prefer.mp hthere with rfl | hthere
        · exact hfirst
        · exact htrans _ _ _ hfirst (ih hthere)
      · rw [List.mem_singleton.mp hthere]
        exact hfirst

include hrefl

theorem rel_of_mem_rounds {count : Nat} {here there : Outcome}
    (h : there ∈ rounds round count here) : rel here there := by
  induction count generalizing here with
  | zero =>
      rw [List.mem_singleton.mp h]
      exact hrefl here
  | succ count ih =>
      obtain ⟨middle, hmiddle, hthere⟩ := List.mem_flatMap.mp h
      exact htrans _ _ _ (hround here middle hmiddle) (ih hthere)

theorem rel_of_mem_optionals {greedy : Bool} {count : Nat} {here there : Outcome}
    (h : there ∈ optionals round greedy count here) : rel here there := by
  induction count generalizing here with
  | zero =>
      rw [List.mem_singleton.mp h]
      exact hrefl here
  | succ count ih =>
      rcases mem_prefer.mp h with rfl | h
      · exact hrefl there
      · obtain ⟨middle, hmiddle, hthere⟩ := List.mem_flatMap.mp h
        exact htrans _ _ _ (hround here middle hmiddle) (ih hthere)

theorem rel_of_mem_anyRounds {greedy : Bool} {left : Nat} {here there : Outcome}
    (h : there ∈ anyRounds round greedy left here) : rel here there := by
  induction left generalizing here with
  | zero =>
      rw [List.mem_singleton.mp h]
      exact hrefl here
  | succ left ih =>
      rcases mem_prefer.mp h with rfl | h
      · exact hrefl there
      · obtain ⟨middle, hmiddle, hthere⟩ := List.mem_flatMap.mp h
        split at hthere
        · exact htrans _ _ _ (hround here middle hmiddle) (ih hthere)
        · cases hthere

/-- What holds of a round and can be chained holds of a repetition. -/
theorem Quantifier.rel_of_mem_outcomes {times : Quantifier} {text : Text} {here there : Outcome}
    (h : there ∈ times.outcomes round text here) : rel here there := by
  unfold Quantifier.outcomes at h
  split at h
  · obtain ⟨middle, hmiddle, hthere⟩ := List.mem_flatMap.mp h
    exact htrans _ _ _ (rel_of_mem_rounds rel hrefl htrans hround hmiddle)
      (rel_of_mem_optionals rel hrefl htrans hround hthere)
  · exact rel_of_mem_anyRounds rel hrefl htrans hround h
  · obtain ⟨middle, hmiddle, hthere⟩ := List.mem_flatMap.mp h
    exact htrans _ _ _ (rel_of_mem_rounds rel hrefl htrans hround hmiddle)
      (rel_of_mem_someRounds rel htrans hround hthere)

omit htrans hround hrefl

/-- A repetition that requires a round consumes something if every round does. -/
theorem Quantifier.lt_of_mem_outcomes
    (hround : ∀ here, ∀ there ∈ round here, here.offset < there.offset)
    {times : Quantifier} (hmin : times.min ≠ 0) {text : Text} {here there : Outcome}
    (h : there ∈ times.outcomes round text here) : here.offset < there.offset := by
  let le (a b : Outcome) : Prop := a.offset ≤ b.offset
  have hrefl (here : Outcome) : le here here := Nat.le_refl _
  have htrans (a b c : Outcome) (hab : le a b) (hbc : le b c) : le a c := Nat.le_trans hab hbc
  have hle (here there : Outcome) (hmem : there ∈ round here) : le here there :=
    Nat.le_of_lt (hround here there hmem)
  unfold Quantifier.outcomes at h
  split at h
  · obtain ⟨before, hbefore⟩ := Nat.exists_eq_succ_of_ne_zero hmin
    rw [hbefore] at h
    obtain ⟨middle, hmiddle, hthere⟩ := List.mem_flatMap.mp h
    obtain ⟨first, hfirst, hrest⟩ := List.mem_flatMap.mp hmiddle
    have hstart := hround here first hfirst
    have hrounds := rel_of_mem_rounds le hrefl htrans hle hrest
    have hoptionals := rel_of_mem_optionals le hrefl htrans hle hthere
    exact Nat.lt_of_lt_of_le hstart (htrans _ _ _ hrounds hoptionals)
  · contradiction
  · obtain ⟨middle, hmiddle, hthere⟩ := List.mem_flatMap.mp h
    have hrounds := rel_of_mem_rounds le hrefl htrans hle hmiddle
    have hsome := rel_of_mem_someRounds (fun a b => a.offset < b.offset)
      (fun _ _ _ hab hbc => Nat.lt_trans hab hbc) hround hthere
    exact Nat.lt_of_le_of_lt hrounds hsome

end Repetition

theorem Outcome.mem_consumeIf {here there : Outcome} {text : Text} {condition : Byte → Bool} :
    there ∈ here.consumeIf text condition ↔
      ∃ b, text[here.offset]? = some b ∧ condition b ∧ there = here.advance 1 := by
  unfold consumeIf
  cases text[here.offset]? with
  | none => simp
  | some b => by_cases hb : condition b <;> simp [hb]

/-- An atom goes on in the text, and captures nothing. -/
theorem Atom.exists_advance {a : Atom} {text : Text} {here there : Outcome}
    (h : there ∈ a.outcomes text here) : ∃ count, there = here.advance count := by
  have hbyte {condition : Byte → Bool} (h : there ∈ here.consumeIf text condition) :
      ∃ count, there = here.advance count := by
    obtain ⟨b, -, -, hthere⟩ := Outcome.mem_consumeIf.mp h
    exact ⟨1, hthere⟩
  cases a with
  | byte value => exact hbyte h
  | set members => exact hbyte h
  | any => exact hbyte h
  | backref group =>
      simp only [outcomes] at h
      cases hspan : here.captures group with
      | none => simp [hspan] at h
      | some span =>
          simp only [hspan, Option.elim_some, Outcome.consumeCopy] at h
          split at h
          · exact ⟨span.length, List.mem_singleton.mp h⟩
          · cases h
  | anchor kind =>
      simp only [outcomes] at h
      split at h
      · exact ⟨0, List.mem_singleton.mp h⟩
      · cases h

/-- An atom consumes a byte, or it is one of those that may match nothing. -/
theorem Atom.offset_of_mem_outcomes {a : Atom} {text : Text} {here there : Outcome}
    (h : there ∈ a.outcomes text here) :
    there.offset = here.offset + 1 ∨
      (here.offset ≤ there.offset ∧ ∀ position, (Tree.atom position a).nullable = true) := by
  have hbyte {condition : Byte → Bool} (h : there ∈ here.consumeIf text condition) :
      there.offset = here.offset + 1 := by
    obtain ⟨b, -, -, rfl⟩ := Outcome.mem_consumeIf.mp h
    rfl
  have hle : here.offset ≤ there.offset := by
    obtain ⟨count, rfl⟩ := Atom.exists_advance h
    exact Nat.le_add_right _ _
  cases a with
  | byte value => exact .inl (hbyte h)
  | set members => exact .inl (hbyte h)
  | any => exact .inl (hbyte h)
  | backref group => exact .inr ⟨hle, fun _ => rfl⟩
  | anchor kind => exact .inr ⟨hle, fun _ => rfl⟩

namespace Tree

theorem offset_le_of_mem_outcomes {tree : Tree} {text : Text} {here there : Outcome}
    (h : there ∈ tree.outcomes text here) : here.offset ≤ there.offset := by
  induction tree generalizing here there with
  | atom position a =>
      rcases Atom.offset_of_mem_outcomes h with heq | ⟨hle, -⟩
      · omega
      · exact hle
  | group position index body ih =>
      cases index with
      | none => exact ih h
      | some index =>
          obtain ⟨inner, hinner, rfl⟩ := List.mem_map.mp h
          change here.offset ≤ inner.offset
          exact ih hinner
  | cat first rest ihf ihr =>
      obtain ⟨middle, hmiddle, hthere⟩ := List.mem_flatMap.mp h
      exact Nat.le_trans (ihf hmiddle) (ihr hthere)
  | alt first rest ihf ihr =>
      rcases List.mem_append.mp h with h | h
      · exact ihf h
      · exact ihr h
  | rep body times ih =>
      exact Quantifier.rel_of_mem_outcomes (fun here there => here.offset ≤ there.offset)
        (fun _ => Nat.le_refl _) (fun _ _ _ hab hbc => Nat.le_trans hab hbc)
        (fun _ _ hmem => ih hmem) h

/-- A pattern that is not nullable consumes something. -/
theorem offset_lt_of_mem_outcomes {tree : Tree} (hnullable : tree.nullable = false) {text : Text}
    {here there : Outcome} (h : there ∈ tree.outcomes text here) :
    here.offset < there.offset := by
  induction tree generalizing here there with
  | atom position a =>
      rcases Atom.offset_of_mem_outcomes h with heq | ⟨-, htrue⟩
      · omega
      · rw [htrue position] at hnullable
        cases hnullable
  | group position index body ih =>
      cases index with
      | none => exact ih hnullable h
      | some index =>
          obtain ⟨inner, hinner, rfl⟩ := List.mem_map.mp h
          change here.offset < inner.offset
          exact ih hnullable hinner
  | cat first rest ihf ihr =>
      obtain ⟨middle, hmiddle, hthere⟩ := List.mem_flatMap.mp h
      rcases Bool.and_eq_false_iff.mp hnullable with hfirst | hrest
      · exact Nat.lt_of_lt_of_le (ihf hfirst hmiddle) (offset_le_of_mem_outcomes hthere)
      · exact Nat.lt_of_le_of_lt (offset_le_of_mem_outcomes hmiddle) (ihr hrest hthere)
  | alt first rest ihf ihr =>
      obtain ⟨hfirst, hrest⟩ := Bool.or_eq_false_iff.mp hnullable
      rcases List.mem_append.mp h with h | h
      · exact ihf hfirst h
      · exact ihr hrest h
  | rep body times ih =>
      obtain ⟨hmin, hbody⟩ := Bool.or_eq_false_iff.mp hnullable
      exact Quantifier.lt_of_mem_outcomes (fun _ _ hmem => ih hbody hmem) (by simpa using hmin) h

end Tree

/-! ### Outcomes stay in the text -/

namespace Outcome

variable {text : Text} {here there : Outcome}

theorem within_start {offset : Nat} (hoffset : offset ≤ text.size) :
    (start offset).Within text :=
  ⟨hoffset, fun _ _ hnone => nomatch hnone⟩

theorem Within.advance (h : here.Within text) {count : Nat}
    (hcount : here.offset + count ≤ text.size) : (here.advance count).Within text :=
  ⟨hcount, h.spans⟩

theorem Within.close (h : here.Within text) (group start : Nat) :
    (here.close group start).Within text where
  offset := h.offset
  spans := by
    intro other span hspan
    by_cases heq : other = group
    · subst heq
      have hself : (here.close other start).captures other = some ⟨start, here.offset⟩ :=
        Function.update_self ..
      rw [hself] at hspan
      cases hspan
      exact h.offset
    · have hother : (here.close group start).captures other = here.captures other :=
        Function.update_of_ne heq ..
      rw [hother] at hspan
      exact h.spans other span hspan

theorem Within.consumeIf (h : here.Within text) {condition : Byte → Bool}
    (hthere : there ∈ here.consumeIf text condition) : there.Within text := by
  obtain ⟨b, hbyte, -, rfl⟩ := mem_consumeIf.mp hthere
  exact h.advance (Array.getElem?_eq_some_iff.mp hbyte).1

/-- A copy of what stands in a span of the text ends inside the text too. -/
theorem Within.copy (h : here.Within text) {group : Nat} {span : Span}
    (hspan : here.captures group = some span)
    (hcopy : Span.bytes ⟨here.offset, here.offset + span.length⟩ text = span.bytes text) :
    (here.advance span.length).Within text := by
  have hstop := h.spans group span hspan
  have hoffset := h.offset
  have hlength := congrArg List.length hcopy
  apply h.advance
  simp only [Span.bytes, Span.length, Array.length_toList, Array.size_extract] at hlength ⊢
  omega

end Outcome

theorem Atom.within_of_mem_outcomes {a : Atom} {text : Text} {here there : Outcome}
    (hhere : here.Within text) (h : there ∈ a.outcomes text here) : there.Within text := by
  cases a with
  | byte value => exact hhere.consumeIf h
  | set members => exact hhere.consumeIf h
  | any => exact hhere.consumeIf h
  | backref group =>
      simp only [outcomes] at h
      cases hspan : here.captures group with
      | none => simp [hspan] at h
      | some span =>
          simp only [hspan, Option.elim_some, Outcome.consumeCopy] at h
          split at h
          · rename_i hcopy
            rw [List.mem_singleton.mp h]
            exact hhere.copy hspan (beq_iff_eq.mp hcopy)
          · cases h
  | anchor kind =>
      simp only [outcomes] at h
      split at h
      · rw [List.mem_singleton.mp h]
        exact hhere
      · cases h

theorem Tree.within_of_mem_outcomes {tree : Tree} {text : Text} {here there : Outcome}
    (hhere : here.Within text) (h : there ∈ tree.outcomes text here) : there.Within text := by
  induction tree generalizing here there with
  | atom position a => exact Atom.within_of_mem_outcomes hhere h
  | group position index body ih =>
      cases index with
      | none => exact ih hhere h
      | some index =>
          obtain ⟨inner, hinner, rfl⟩ := List.mem_map.mp h
          exact (ih hhere hinner).close index here.offset
  | cat first rest ihf ihr =>
      obtain ⟨middle, hmiddle, hthere⟩ := List.mem_flatMap.mp h
      exact ihr (ihf hhere hmiddle) hthere
  | alt first rest ihf ihr =>
      rcases List.mem_append.mp h with h | h
      · exact ihf hhere h
      · exact ihr hhere h
  | rep body times ih =>
      exact Quantifier.rel_of_mem_outcomes (fun a b => a.Within text → b.Within text)
        (fun _ hwithin => hwithin) (fun _ _ _ hab hbc hwithin => hbc (hab hwithin))
        (fun _ _ hmem hwithin => ih hwithin hmem) h hhere

end RegexSearch
