import RegexSearch.Pattern.Cost
import RegexSearch.Proofs.Pattern.Quantifier

/-!
Where errors point. The cause of a failure says which byte of the pattern is to be found at its
offset: the parenthesis that is not closed or that closes nothing, the backslash of the escape, the
quantifier with nothing in front of it. If an operand is missing, the offset is where it should
begin. A repetition that is too expensive is named by its operand, whose first byte may be any.
-/

namespace RegexSearch

/-- An operand with its quantifier, and the offset at which they are written. -/
structure Repetition where
  position : Nat
  operand : Derivation .atom
  suffix : Suffix

namespace Derivation

/-- The repetitions of a derivation that is written at an offset. -/
def repetitions : {category : Category} → (position : Nat) → Derivation category → List Repetition
  | _, _, leaf _ => []
  | _, position, group captures body => body.repetitions (position + (opening captures).length)
  | _, position, once operand => operand.repetitions position
  | _, position, repeated operand suffix =>
    ⟨position, operand, suffix⟩ :: operand.repetitions position
  | _, position, last operand => operand.repetitions position
  | _, position, more operand rest =>
    operand.repetitions position ++ rest.repetitions (position + operand.word.length)
  | _, position, only branch => branch.repetitions position
  | _, position, choice branch rest =>
    branch.repetitions position ++ rest.repetitions (position + branch.word.length + 1)

variable {category : Category} {d : Derivation category} {position groups : Nat}

/-- The repetitions are written at their offsets. -/
theorem exists_word_of_mem_repetitions {repetition : Repetition}
    (h : repetition ∈ d.repetitions position) :
    ∃ before following, d.word =
        before ++ (repetition.operand.word ++ repetition.suffix.word ++ following) ∧
      repetition.position = position + before.length := by
  induction d generalizing position with
  | leaf written => cases h
  | group captures body ih =>
      obtain ⟨before, following, hword, hposition⟩ := ih h
      refine ⟨opening captures ++ before, following ++ [')'.toUInt8], ?_, ?_⟩
      · simp only [word, hword, List.append_assoc]
      · rw [hposition, List.length_append, Nat.add_assoc]
  | once operand ih => exact ih h
  | repeated operand suffix ih =>
      rcases List.mem_cons.mp h with rfl | h
      · exact ⟨[], [], (List.append_nil _).symm, rfl⟩
      · obtain ⟨before, following, hword, hposition⟩ := ih h
        refine ⟨before, following ++ suffix.word, ?_, hposition⟩
        simp only [word, hword, List.append_assoc]
  | last operand ih => exact ih h
  | more operand rest ih ihrest =>
      rcases List.mem_append.mp h with h | h
      · obtain ⟨before, following, hword, hposition⟩ := ih h
        refine ⟨before, following ++ rest.word, ?_, hposition⟩
        simp only [word, hword, List.append_assoc]
      · obtain ⟨before, following, hword, hposition⟩ := ihrest h
        refine ⟨operand.word ++ before, following, ?_, ?_⟩
        · simp only [word, hword, List.append_assoc]
        · rw [hposition, List.length_append, Nat.add_assoc]
  | only branch ih => exact ih h
  | choice branch rest ih ihrest =>
      rcases List.mem_append.mp h with h | h
      · obtain ⟨before, following, hword, hposition⟩ := ih h
        refine ⟨before, following ++ '|'.toUInt8 :: rest.word, ?_, hposition⟩
        simp only [word, hword, List.append_assoc]
      · obtain ⟨before, following, hword, hposition⟩ := ihrest h
        refine ⟨branch.word ++ '|'.toUInt8 :: before, following, ?_, ?_⟩
        · simp only [word, hword, List.append_assoc, List.cons_append]
        · rw [hposition, List.length_append, List.length_cons]
          omega

theorem position_tree : (d.tree position groups).position = position := by
  induction d generalizing position groups with
  | leaf written => rfl
  | group captures body ih => rfl
  | once operand ih => exact ih
  | repeated operand suffix ih => exact ih
  | last operand ih => exact ih
  | more operand rest ih _ => exact ih
  | only branch ih => exact ih
  | choice branch rest ih _ => exact ih

/-- A repetition that is too expensive is one of the derivation, and counted. -/
theorem exists_mem_repetitions_of_firstExpensive? {limit start : Nat}
    (h : (d.tree position groups).firstExpensive? limit = some start) :
    ∃ repetition ∈ d.repetitions position, repetition.position = start ∧
      repetition.suffix.times.isCounted = true := by
  induction d generalizing position groups with
  | leaf written => cases h
  | group captures body ih => exact ih h
  | once operand ih => exact ih h
  | repeated operand suffix ih =>
      rw [tree, Tree.firstExpensive?, Tree.isExpensive, position_tree] at h
      split at h
      · rename_i hexpensive
        exact ⟨_, List.mem_cons_self, Option.some.inj h, (Bool.and_eq_true_iff.mp hexpensive).1⟩
      · split at h
        · cases h
        · obtain ⟨repetition, hmem, hrepetition⟩ := ih h
          exact ⟨repetition, List.mem_cons_of_mem _ hmem, hrepetition⟩
  | last operand ih => exact ih h
  | more operand rest ih ihrest =>
      rcases Option.or_eq_some_iff.mp h with h | ⟨-, h⟩
      · obtain ⟨repetition, hmem, hrepetition⟩ := ih h
        exact ⟨repetition, List.mem_append_left _ hmem, hrepetition⟩
      · obtain ⟨repetition, hmem, hrepetition⟩ := ihrest h
        exact ⟨repetition, List.mem_append_right _ hmem, hrepetition⟩
  | only branch ih => exact ih h
  | choice branch rest ih ihrest =>
      rcases Option.or_eq_some_iff.mp h with h | ⟨-, h⟩
      · obtain ⟨repetition, hmem, hrepetition⟩ := ih h
        exact ⟨repetition, List.mem_append_left _ hmem, hrepetition⟩
      · obtain ⟨repetition, hmem, hrepetition⟩ := ihrest h
        exact ⟨repetition, List.mem_append_right _ hmem, hrepetition⟩

end Derivation

/-- At an offset begins the operand of a counted repetition, one of the repetitions of a pattern. -/
def CountedAt (pattern : Bytes) (position : Nat) : Prop :=
  ∃ derivation : Derivation .alternation, derivation.Derives pattern ∧
    ∃ repetition ∈ derivation.repetitions 0, repetition.position = position ∧
      repetition.suffix.times.isCounted = true ∧
      repetition.operand.word ++ repetition.suffix.word <+: pattern.drop position

/-- A character is written in a pattern at an offset. -/
def WrittenAt (pattern : Bytes) (position : Nat) (c : Char) : Prop :=
  pattern[position]? = some c.toUInt8

theorem WrittenAt.le {pattern : Bytes} {position : Nat} {c : Char}
    (h : WrittenAt pattern position c) : position ≤ pattern.length :=
  Nat.le_of_lt (List.getElem?_eq_some_iff.mp h).1

/-- An error of syntax has an offset in its pattern or at the end of it, at which its cause
shows. -/
def Error.PointsAt (pattern : Bytes) (error : Error) : Prop :=
  error.position ≤ pattern.length ∧
    match error.cause with
    | .emptyPattern => pattern = []
    | .emptyOperand =>
      error.position = pattern.length ∨ WrittenAt pattern error.position '|' ∨
        WrittenAt pattern error.position ')'
    | .nothingToRepeat => ∃ c ∈ ['*', '+', '?', '{'], WrittenAt pattern error.position c
    | .badEscape => WrittenAt pattern error.position '\\'
    | .missingParen =>
      WrittenAt pattern error.position '(' ∨ WrittenAt pattern error.position ')'
    | .badBracketExpression => WrittenAt pattern error.position '['
    | .badBraceExpression => WrittenAt pattern error.position '{'
    | .badBackreference => WrittenAt pattern error.position '\\'
    | .expensiveUnroll => CountedAt pattern error.position
    | .unsupportedFeature => WrittenAt pattern error.position '('
    | .nestingTooDeep => WrittenAt pattern error.position '('
    | .stepLimitExceeded => False

/-- Only errors of syntax have a place in a pattern. -/
theorem Error.PointsAt.kind_eq {pattern : Bytes} {error : Error} (h : error.PointsAt pattern) :
    error.kind = .patternSyntax := by
  obtain ⟨cause, position⟩ := error
  cases cause with
  | stepLimitExceeded => exact h.2.elim
  | _ => rfl

theorem CountedAt.position_lt {pattern : Bytes} {position : Nat} (h : CountedAt pattern position) :
    position < pattern.length := by
  obtain ⟨-, -, repetition, -, -, -, hwritten⟩ := h
  obtain ⟨b, rest, hsuffix, -⟩ := repetition.suffix.exists_head
  have hlength := hwritten.length_le
  rw [List.length_drop, List.length_append, hsuffix, List.length_cons] at hlength
  omega

/-- A repetition that is too expensive is pointed at. -/
theorem Error.pointsAt_expensiveUnroll {pattern : Bytes} {derivation : Derivation .alternation}
    {limit position : Nat} (hderives : derivation.Derives pattern)
    (h : (derivation.tree 0 0).firstExpensive? limit = some position) :
    Error.PointsAt pattern ⟨.expensiveUnroll, position⟩ := by
  obtain ⟨repetition, hmem, rfl, hcounted⟩ := Derivation.exists_mem_repetitions_of_firstExpensive? h
  obtain ⟨before, following, hword, hposition⟩ := Derivation.exists_word_of_mem_repetitions hmem
  rw [Nat.zero_add] at hposition
  have hdrop : pattern.drop repetition.position =
      repetition.operand.word ++ repetition.suffix.word ++ following := by
    rw [← hderives.word, hword, hposition, List.drop_left]
  have hat : CountedAt pattern repetition.position :=
    ⟨derivation, hderives, repetition, hmem, rfl, hcounted, following, hdrop.symm⟩
  exact ⟨Nat.le_of_lt hat.position_lt, hat⟩

end RegexSearch
