import RegexSearch.Proofs.Descent.Brackets
import RegexSearch.Proofs.Descent.Quantifiers
import RegexSearch.Proofs.Pattern.Steps

/-!
A descent goes alongside the reader that keeps the open groups on a stack. Wherever a procedure is
called, the reader has come to the same offset, and what is left for it to do does not change while
the procedure runs; if the procedure fails, this is because the reader will be refused for the same
reason. For an atom, a group and a repetition this is shown here, for as long as the alternations
inside groups go alongside too.
-/

namespace RegexSearch

/-! ### The reader to the end of the pattern -/

namespace Reader

variable {pattern rest : Bytes} {reader next : Reader} {position taken : Nat} {b : Byte}

/-- What reading on from an offset comes to: the tree of the pattern and the number of its groups,
or why it is refused. -/
def conclude (pattern : Bytes) (reader : Reader) (position : Nat) : Except Refusal (Tree × Nat) :=
  match reader.readFrom 0 position (pattern.drop position) with
  | .error refusal => .error refusal
  | .ok last => (last.finish pattern.length).map (·, last.groups)

theorem conclude_end (hrest : pattern.drop position = []) :
    reader.conclude pattern position =
      (reader.finish pattern.length).map (·, reader.groups) := by
  rw [conclude, hrest]
  rfl

theorem conclude_advance (hrest : pattern.drop position = b :: rest)
    (h : reader.advance position b rest = .ok (next, taken)) :
    reader.conclude pattern position = next.conclude pattern (position + 1 + taken) := by
  rw [conclude, hrest, readFrom, h, conclude, drop_behind_of_drop hrest]
  dsimp only
  rw [readFrom_skip]

theorem conclude_refused {refusal : Refusal} (hrest : pattern.drop position = b :: rest)
    (h : reader.advance position b rest = .error refusal) :
    reader.conclude pattern position = .error refusal := by
  rw [conclude, hrest, readFrom, h]

end Reader

/-! ### Going alongside -/

/-- A part of a descent goes alongside a reader at an offset. Either it comes to a reader further on
that will come to the same end, or it fails as the reader will be refused. -/
def Alongside (pattern : Bytes) {α : Type} (part : Descent α) (reader : Reader) (position : Nat)
    (post : α → Reader → Nat → Prop) : Prop :=
  (∃ value next stop, position ≤ stop ∧ stop ≤ pattern.length ∧
    Runs pattern part ⟨position, reader.groups, none⟩ (some value, ⟨stop, next.groups, none⟩) ∧
    reader.conclude pattern position = next.conclude pattern stop ∧ post value next stop) ∨
  ∃ refusal stop, refusal.error.PointsAt pattern ∧
    Runs pattern part ⟨position, reader.groups, none⟩
      (none, ⟨stop, refusal.groups, some refusal.error⟩) ∧
    reader.conclude pattern position = .error refusal

namespace Alongside

variable {pattern rest : Bytes} {α β : Type} {reader next : Reader} {position stop taken : Nat}
  {b : Byte} {post : α → Reader → Nat → Prop}

theorem pure {value : α} (hle : position ≤ pattern.length) (h : post value reader position) :
    Alongside pattern (Pure.pure value) reader position post :=
  .inl ⟨value, reader, position, Nat.le_refl _, hle, .pure value, rfl, h⟩

theorem bind {part : Descent β} {further : β → Descent α} {middle : β → Reader → Nat → Prop}
    (h : Alongside pattern part reader position middle)
    (hfurther : ∀ value next stop, position ≤ stop → stop ≤ pattern.length →
      middle value next stop → Alongside pattern (further value) next stop post) :
    Alongside pattern (part >>= further) reader position post := by
  rcases h with ⟨value, next, stop, hle, hlength, hrun, hsame, hmiddle⟩ |
    ⟨refusal, stop, hpoints, hrun, hrefused⟩
  · rcases hfurther value next stop hle hlength hmiddle with
      ⟨result, last, ending, hle', hlength', hrun', hsame', hpost⟩ |
      ⟨refusal, ending, hpoints, hrun', hrefused⟩
    · exact .inl ⟨result, last, ending, Nat.le_trans hle hle', hlength', hrun.bind hrun',
        hsame.trans hsame', hpost⟩
    · exact .inr ⟨refusal, ending, hpoints, hrun.bind hrun', hsame.trans hrefused⟩
  · exact .inr ⟨refusal, stop, hpoints, hrun.bind_none, hrefused⟩

/-- What runs while the reader stays where it is. -/
theorem after {part : Descent β} {further : β → Descent α} {value : β}
    (hrun : Runs pattern part ⟨position, reader.groups, none⟩
      (some value, ⟨position, reader.groups, none⟩))
    (h : Alongside pattern (further value) reader position post) :
    Alongside pattern (part >>= further) reader position post := by
  rcases h with ⟨result, next, stop, hle, hlength, hrun', hsame, hpost⟩ |
    ⟨refusal, stop, hpoints, hrun', hrefused⟩
  · exact .inl ⟨result, next, stop, hle, hlength, hrun.bind hrun', hsame, hpost⟩
  · exact .inr ⟨refusal, stop, hpoints, hrun.bind hrun', hrefused⟩

/-- What runs while the reader advances over one construct. -/
theorem advance {part : Descent α} {value : α} (hrest : pattern.drop position = b :: rest)
    (hadvance : reader.advance position b rest = .ok (next, taken))
    (hrun : Runs pattern part ⟨position, reader.groups, none⟩
      (some value, ⟨position + 1 + taken, next.groups, none⟩))
    (hpost : post value next (position + 1 + taken)) :
    Alongside pattern part reader position post := by
  have hlt := lt_length_of_drop hrest
  refine .inl ⟨value, next, position + 1 + taken, by omega, ?_, hrun,
    Reader.conclude_advance hrest hadvance, hpost⟩
  exact hrun.cursor_le (Nat.le_of_lt hlt)

/-- A construct for which the reader is refused. -/
theorem refused {part : Descent α} {error : Error} {groups : Nat}
    (hrest : pattern.drop position = b :: rest)
    (hadvance : reader.advance position b rest = .error ⟨error, groups⟩)
    (hpoints : error.PointsAt pattern)
    (hrun : ∃ stop, Runs pattern part ⟨position, reader.groups, none⟩
      (none, ⟨stop, groups, some error⟩)) :
    Alongside pattern part reader position post := by
  obtain ⟨stop, hrun⟩ := hrun
  exact .inr ⟨_, stop, hpoints, hrun, Reader.conclude_refused hrest hadvance⟩

/-- What runs while the reader advances over a construct that it goes on behind. -/
theorem step {part : Descent β} {further : β → Descent α} {value : β}
    (hrest : pattern.drop position = b :: rest)
    (hadvance : reader.advance position b rest = .ok (next, taken))
    (hrun : Runs pattern part ⟨position, reader.groups, none⟩
      (some value, ⟨position + 1 + taken, next.groups, none⟩))
    (h : position + 1 + taken ≤ pattern.length →
      Alongside pattern (further value) next (position + 1 + taken) post) :
    Alongside pattern (part >>= further) reader position post := by
  have hpart : Alongside pattern part reader position fun result last stop =>
      result = value ∧ last = next ∧ stop = position + 1 + taken :=
    advance hrest hadvance hrun ⟨rfl, rfl, rfl⟩
  refine bind hpart ?_
  rintro _ _ _ - hle ⟨rfl, rfl, rfl⟩
  exact h hle

/-- The pattern is at its end, and the reader is refused. -/
theorem refused_end {part : Descent α} {error : Error} {groups : Nat}
    (hrest : pattern.drop position = [])
    (hfinish : reader.finish pattern.length = .error ⟨error, groups⟩)
    (hpoints : error.PointsAt pattern)
    (hrun : ∃ stop, Runs pattern part ⟨position, reader.groups, none⟩
      (none, ⟨stop, groups, some error⟩)) :
    Alongside pattern part reader position post := by
  obtain ⟨stop, hrun⟩ := hrun
  refine .inr ⟨⟨error, groups⟩, stop, hpoints, hrun, ?_⟩
  rw [Reader.conclude_end hrest, hfinish]
  rfl

theorem mono {part : Descent α} {post' : α → Reader → Nat → Prop}
    (h : Alongside pattern part reader position post)
    (hpost : ∀ value next stop, position ≤ stop → post value next stop → post' value next stop) :
    Alongside pattern part reader position post' := by
  rcases h with ⟨value, next, stop, hle, hlength, hrun, hsame, hvalue⟩ | hrefused
  · exact .inl ⟨value, next, stop, hle, hlength, hrun, hsame, hpost value next stop hle hvalue⟩
  · exact .inr hrefused

end Alongside

/-! ### Operands -/

/-- What has been read is the construct of a tree, and something holds of this tree. -/
def Shows (post : Tree → Reader → Nat → Prop) (value : Construct) (next : Reader) (stop : Nat) :
    Prop :=
  ∃ tree : Tree, value = tree.construct ∧ post tree next stop

/-- An operand has been read, and the reader has put it behind the operands before. -/
structure Taken (reader : Reader) (position : Nat) (operand : Tree) (next : Reader) (stop : Nat) :
    Prop where
  further : position < stop
  begins : operand.position = position
  noCat : operand.isCat = false
  noAlt : operand.isAlt = false
  level : next.level = reader.level.push operand
  openings : next.openings = reader.openings

/-- An atom has been read. -/
structure TakenAtom (reader : Reader) (position : Nat) (operand : Tree) (next : Reader)
    (stop : Nat) : Prop extends Taken reader position operand next stop where
  repeatable : operand.isRepeatable = !operand.construct.isAnchor

section Operands

variable {pattern rest : Bytes} {reader : Reader} {position : Nat} {b : Byte}

theorem takenAtom_push (a : Atom) (taken : Nat) :
    TakenAtom reader position (.atom position a) (reader.push (.atom position a))
      (position + 1 + taken) := by
  refine ⟨⟨by omega, rfl, rfl, rfl, rfl, rfl⟩, ?_⟩
  cases a <;> rfl

theorem shows_push (a : Atom) (taken : Nat) :
    Shows (TakenAtom reader position) (.atom position a) (reader.push (.atom position a))
      (position + 1 + taken) :=
  ⟨_, rfl, takenAtom_push a taken⟩

/-- A quantifier is refused if there is no operand, or one that cannot be repeated. -/
theorem advance_nothingToRepeat (hb : b.isQuantifier = true)
    (hlast : ∀ last before, reader.level.operands = last :: before → last.isRepeatable = false) :
    reader.advance position b rest = .error ⟨⟨.nothingToRepeat, position⟩, reader.groups⟩ := by
  rw [Reader.advance_of_isQuantifier hb, Reader.readRepetition]
  cases hoperands : reader.level.operands with
  | nil => rfl
  | cons last before =>
      dsimp only
      rw [hlast last before hoperands]
      rfl

theorem Error.pointsAt_quantifier (hrest : pattern.drop position = b :: rest)
    (hb : b.isQuantifier = true) : Error.PointsAt pattern ⟨.nothingToRepeat, position⟩ := by
  have hwritten := getElem?_of_drop hrest
  refine ⟨Nat.le_of_lt (lt_length_of_drop hrest), b.toChar, ?_, ?_⟩
  · unfold Byte.isQuantifier at hb
    split at hb <;> simp_all
  · rw [WrittenAt, hwritten, Byte.toUInt8_toChar]

theorem alongside_set (hrest : pattern.drop position = '['.toUInt8 :: rest) :
    Alongside pattern (do return .atom position (.set (← Descent.brackets pattern))) reader position
      (Shows (TakenAtom reader position)) := by
  obtain ⟨hyields, hpoints⟩ := @yields_brackets pattern rest reader.groups position hrest
  cases hread : readBrackets position rest with
  | error error =>
      have hadvance : reader.advance position '['.toUInt8 rest = .error ⟨error, reader.groups⟩ := by
        change reader.readSet position rest = _
        rw [Reader.readSet, hread]
        rfl
      rw [hread] at hyields
      obtain ⟨stop, hrun⟩ := hyields
      exact .refused hrest hadvance (hpoints error hread) ⟨stop, hrun.bind_none⟩
  | ok result =>
      obtain ⟨set, behind⟩ := result
      obtain ⟨taken, rfl⟩ : ∃ taken, behind = position + 1 + taken := by
        obtain ⟨negated, items, following, -, -, -, rfl⟩ := readBrackets_iff.mp hread
        refine ⟨(Leaf.brackets negated items).word.length - 1, ?_⟩
        rw [Leaf.word, List.length_cons]
        omega
      have hadvance : reader.advance position '['.toUInt8 rest =
          .ok (reader.push (.atom position (.set set)), taken) := by
        change reader.readSet position rest = _
        rw [Reader.readSet, hread]
        dsimp only
        rw [Nat.add_sub_cancel_left]
      rw [hread] at hyields
      exact .advance hrest hadvance (.bind hyields (.pure _)) (shows_push (.set set) taken)

theorem alongside_backslash (hrest : pattern.drop position = '\\'.toUInt8 :: rest) :
    Alongside pattern
      (do
        Descent.move 1
        return .atom position (← Descent.escape pattern false))
      reader position (Shows (TakenAtom reader position)) := by
  have hmove := @Runs.pass pattern _ _ position reader.groups none hrest
  have hyields := @yields_escape pattern reader.groups (position + 1) false
  rw [drop_add_of_drop hrest 1] at hyields
  change Yields pattern _ _ _ (located position _ (readEscape (.operand reader.groups) rest))
    at hyields
  cases hread : readEscape (.operand reader.groups) rest with
  | error cause =>
      have hadvance : reader.advance position '\\'.toUInt8 rest =
          .error ⟨⟨cause, position⟩, reader.groups⟩ := by
        change reader.readBackslash position rest = _
        rw [Reader.readBackslash, hread]
        rfl
      rw [hread] at hyields
      obtain ⟨stop, hrun⟩ := hyields
      exact .refused hrest hadvance (pointsAt_of_readEscape hread (getElem?_of_drop hrest))
        ⟨stop, .bind hmove hrun.bind_none⟩
  | ok result =>
      obtain ⟨a, taken⟩ := result
      have hadvance : reader.advance position '\\'.toUInt8 rest =
          .ok (reader.push (.atom position a), taken) := by
        change reader.readBackslash position rest = _
        rw [Reader.readBackslash, hread]
      rw [hread] at hyields
      exact .advance hrest hadvance (.bind hmove (.bind hyields (.pure _)))
        (shows_push a taken)

theorem alongside_leaf (hrest : pattern.drop position = b :: rest)
    (hopen : b.toChar ≠ '(') (hclose : b.toChar ≠ ')') (hbar : b.toChar ≠ '|')
    (hfirst : reader.level.operands = [] ∨ b.isQuantifier = false) :
    Alongside pattern (Descent.leaf pattern) reader position
      (Shows (TakenAtom reader position)) := by
  have hmove := @Runs.pass pattern _ _ position reader.groups none hrest
  refine .after .cursor (.after (.peek hrest) ?_)
  dsimp only
  split
  · rename_i hchar
    obtain rfl := Byte.eq_of_toChar hchar
    exact alongside_set hrest
  · rename_i hchar
    obtain rfl := Byte.eq_of_toChar hchar
    exact alongside_backslash hrest
  · rename_i hchar
    obtain rfl := Byte.eq_of_toChar hchar
    exact .advance hrest rfl (.bind hmove (.pure _)) (shows_push .any 0)
  · rename_i hchar
    obtain rfl := Byte.eq_of_toChar hchar
    exact .advance hrest rfl (.bind hmove (.pure _)) (shows_push (.anchor .textBegin) 0)
  · rename_i hchar
    obtain rfl := Byte.eq_of_toChar hchar
    exact .advance hrest rfl (.bind hmove (.pure _)) (shows_push (.anchor .textEnd) 0)
  · split
    · rename_i hquantifier
      have hempty : reader.level.operands = [] :=
        hfirst.resolve_right (Bool.eq_false_iff.not_left.mpr hquantifier)
      refine .refused hrest (advance_nothingToRepeat hquantifier ?_)
        (Error.pointsAt_quantifier hrest hquantifier) ⟨position, .refuse rfl _ _⟩
      intro last before hcons
      cases hempty.symm.trans hcons
    · rename_i hquantifier
      have hordinary : b.isOrdinary = true := by
        refine Byte.isOrdinary_iff.mpr ⟨Bool.eq_false_iff.mpr hquantifier, ?_⟩
        simp only [operandChars, List.mem_cons, List.not_mem_nil, or_false, not_or]
        exact ⟨‹_›, ‹_›, ‹_›, ‹_›, ‹_›, ‹_›, ‹_›, ‹_›⟩
      exact .advance hrest (Reader.advance_of_isOrdinary hordinary) (.bind hmove (.pure _))
        (shows_push (.byte b) 0)

/-! ### Groups -/

/-- The opening of a group is read as the reader does, which looks at the limit on nesting at
once. -/
def OpensAlongside (pattern : Bytes) (reader : Reader) (start : Nat) (rest : Bytes)
    (part : Descent (Option Nat)) (position : Nat) : Prop :=
  (∃ index groups taken,
    Runs pattern part ⟨position, reader.groups, none⟩
      (some index, ⟨start + 1 + taken, groups, none⟩) ∧
    reader.readOpening start rest =
      (Reader.openGroup { reader with groups } start index).map (·, taken)) ∨
  ∃ cause stop, Error.PointsAt pattern ⟨cause, start⟩ ∧
    Runs pattern part ⟨position, reader.groups, none⟩
      (none, ⟨stop, reader.groups, some ⟨cause, start⟩⟩) ∧
    reader.readOpening start rest = .error ⟨⟨cause, start⟩, reader.groups⟩

theorem opened_noncapturing (hwritten : WrittenAt pattern position '(')
    (hrest : pattern.drop (position + 1) = '?'.toUInt8 :: rest) :
    OpensAlongside pattern reader position ('?'.toUInt8 :: rest)
      (Descent.noncapturing pattern position) (position + 1) := by
  have hmove := @Runs.pass pattern _ _ (position + 1) reader.groups none hrest
  have hnext : pattern.drop (position + 2) = rest := drop_add_of_drop hrest 1
  have hend := @Runs.atEnd pattern ⟨position + 2, reader.groups, none⟩ rest hnext
  cases rest with
  | nil =>
      refine .inr ⟨.missingParen, position + 2, ⟨hwritten.le, .inl hwritten⟩, ?_, rfl⟩
      exact .bind hmove (.bind hend (.refuse rfl _ _))
  | cons colon rest =>
      by_cases hcolon : colon.toChar = ':'
      · obtain rfl := Byte.eq_of_toChar hcolon
        refine .inl ⟨none, reader.groups, 2, ?_, rfl⟩
        exact .bind hmove (.bind hend (.bind (.take hnext) (.pure none)))
      · have hrefused : reader.readOpening position ('?'.toUInt8 :: colon :: rest) =
            .error ⟨⟨.unsupportedFeature, position⟩, reader.groups⟩ := by
          unfold Reader.readOpening
          split
          · rename_i hchars
            cases hchars
          · rename_i hchars
            cases (List.cons.inj hchars).2
          · rename_i hchars
            exact absurd (List.cons.inj (List.cons.inj hchars).2).1 hcolon
          · rfl
          · rename_i hother
            exact absurd rfl (hother _)
        refine .inr ⟨.unsupportedFeature, position + 3, ⟨hwritten.le, hwritten⟩, ?_, hrefused⟩
        refine .bind hmove (.bind hend (.bind (.take hnext) ?_))
        rw [if_neg (beq_iff_eq.not.mpr hcolon)]
        exact .refuse rfl _ _

theorem opened_opening (hrest : pattern.drop position = '('.toUInt8 :: rest) :
    OpensAlongside pattern reader position rest (Descent.opening pattern) position := by
  have hwritten : WrittenAt pattern position '(' := getElem?_of_drop hrest
  have hmove := @Runs.pass pattern _ _ position reader.groups none hrest
  have hnext : pattern.drop (position + 1) = rest := drop_add_of_drop hrest 1
  have hend := @Runs.atEnd pattern ⟨position + 1, reader.groups, none⟩ rest hnext
  cases rest with
  | nil =>
      refine .inr ⟨.missingParen, position + 1, ⟨hwritten.le, .inl hwritten⟩, ?_, rfl⟩
      exact .bind .cursor (.bind hmove (.bind hend (.refuse rfl _ _)))
  | cons mark rest =>
      by_cases hmark : mark.toChar = '?'
      · obtain rfl := Byte.eq_of_toChar hmark
        rcases @opened_noncapturing pattern rest reader position hwritten hnext with
          ⟨index, groups, taken, hrun, hread⟩ | ⟨cause, stop, hpoints, hrun, hread⟩
        · refine .inl ⟨index, groups, taken, ?_, hread⟩
          exact .bind .cursor (.bind hmove (.bind hend (.bind (.peek hnext) hrun)))
        · refine .inr ⟨cause, stop, hpoints, ?_, hread⟩
          exact .bind .cursor (.bind hmove (.bind hend (.bind (.peek hnext) hrun)))
      · refine .inl ⟨some (reader.groups + 1), reader.groups + 1, 0, ?_, ?_⟩
        · refine .bind .cursor (.bind hmove (.bind hend (.bind (.peek hnext) ?_)))
          rw [if_pos (bne_iff_ne.mpr hmark)]
          exact .bind (.modify rfl) (.bind .get (.pure _))
        · unfold Reader.readOpening
          split
          · rename_i hchars
            cases hchars
          · rename_i hchars
            exact absurd (List.cons.inj hchars).1 hmark
          · rename_i hchars
            exact absurd (List.cons.inj hchars).1 hmark
          · rename_i hchars
            exact absurd (List.cons.inj hchars).1 hmark
          · rfl

/-- An alternation has been read, up to the end of the pattern or a closing parenthesis. -/
structure TakenAlternation (pattern : Bytes) (reader : Reader) (tree : Tree) (next : Reader)
    (stop : Nat) : Prop where
  openings : next.openings = reader.openings
  tree : next.level.tree? = some tree
  closing : ∀ b rest, pattern.drop stop = b :: rest → b.toChar = ')'

/-- Alternations that begin behind an offset go alongside readers that have just opened a group. -/
def AlternationsFollow (pattern : Bytes) (position : Nat) : Prop :=
  ∀ (reader : Reader) (start : Nat), position < start → start ≤ pattern.length →
    reader.level = .empty → reader.openings.length ≤ maxNesting →
    Alongside pattern (Descent.Source.alternation pattern reader.openings.length) reader start
      (Shows (TakenAlternation pattern reader))

theorem alongside_group (hrest : pattern.drop position = '('.toUInt8 :: rest)
    (hnested : AlternationsFollow pattern position)
    (hdepth : reader.openings.length ≤ maxNesting) :
    Alongside pattern (Descent.Source.group pattern reader.openings.length) reader position
      (Shows (TakenAtom reader position)) := by
  have hwritten : WrittenAt pattern position '(' := getElem?_of_drop hrest
  unfold Descent.Source.group
  refine .after .cursor ?_
  dsimp only
  rcases @opened_opening pattern rest reader position hrest with
    ⟨index, groups, taken, hrun, hread⟩ | ⟨cause, stop, hpoints, hrun, hread⟩
  · by_cases hdeep : reader.openings.length = maxNesting
    · have hrefused : reader.advance position '('.toUInt8 rest =
          .error ⟨⟨.nestingTooDeep, position⟩, groups⟩ := by
        change reader.readOpening position rest = _
        rw [hread, Reader.openGroup, if_pos (Nat.le_of_eq hdeep.symm)]
        rfl
      refine .refused hrest hrefused ⟨hwritten.le, hwritten⟩
        ⟨position + 1 + taken, .bind hrun ?_⟩
      rw [if_pos hdeep]
      exact .refuse rfl _ _
    · have hroom : ¬ maxNesting ≤ reader.openings.length := by omega
      have hadvance : reader.advance position '('.toUInt8 rest =
          .ok (⟨groups, .empty, ⟨position, index, reader.level⟩ :: reader.openings⟩, taken) := by
        change reader.readOpening position rest = _
        rw [hread, Reader.openGroup, if_neg hroom]
        rfl
      refine .step hrest hadvance hrun fun hlength => ?_
      rw [if_neg hdeep]
      have hdeeper : reader.openings.length + 1 ≤ maxNesting := by omega
      refine .bind (hnested _ _ (by omega) hlength rfl hdeeper) ?_
      rintro _ next stop hle hstop ⟨body, rfl, hopenings, hbody, hclosing⟩
      cases hend : pattern.drop stop with
      | nil =>
          have hopen : next.finish pattern.length =
              .error ⟨⟨.missingParen, position⟩, next.groups⟩ := by
            rw [Reader.finish, hbody, hopenings]
            rfl
          exact .after (.ahead hend _)
            (.refused_end hend hopen ⟨hwritten.le, .inl hwritten⟩ ⟨stop, .refuse rfl _ _⟩)
      | cons b behind =>
          obtain rfl := Byte.eq_of_toChar (hclosing b behind hend)
          have hclosed : next.advance stop ')'.toUInt8 behind =
              .ok ({ next with
                level := reader.level.push (.group position index body)
                openings := reader.openings }, 0) := by
            change next.readClosing stop = _
            rw [Reader.readClosing, hopenings, hbody]
          refine .after (.ahead hend _) ?_
          refine .advance hend hclosed (.bind (.pass hend) (.pure _)) ?_
          exact ⟨.group position index body, rfl, ⟨by omega, rfl, rfl, rfl, rfl, rfl⟩, rfl⟩
  · have hrefused : reader.advance position '('.toUInt8 rest =
        .error ⟨⟨cause, position⟩, reader.groups⟩ := hread
    exact .refused hrest hrefused hpoints ⟨stop, hrun.bind_none⟩

theorem alongside_atom (hrest : pattern.drop position = b :: rest)
    (hnested : AlternationsFollow pattern position)
    (hdepth : reader.openings.length ≤ maxNesting)
    (hclose : b.toChar ≠ ')') (hbar : b.toChar ≠ '|')
    (hfirst : reader.level.operands = [] ∨ b.isQuantifier = false) :
    Alongside pattern (Descent.Source.atom pattern reader.openings.length) reader position
      (Shows (TakenAtom reader position)) := by
  unfold Descent.Source.atom
  refine .after (.peek hrest) ?_
  by_cases hopen : b.toChar = '('
  · rw [if_pos (beq_iff_eq.mpr hopen)]
    obtain rfl := Byte.eq_of_toChar hopen
    exact alongside_group hrest hnested hdepth
  · rw [if_neg (beq_iff_eq.not.mpr hopen)]
    exact alongside_leaf hrest hopen hclose hbar hfirst

/-- No quantifier is written at an offset. -/
def NoQuantifierAt (pattern : Bytes) (position : Nat) : Prop :=
  ∀ b rest, pattern.drop position = b :: rest → b.isQuantifier = false

/-- Only bounds in braces can be malformed. -/
theorem brace_of_readQuantifier (hb : b.isQuantifier = true) (h : readQuantifier b rest = none) :
    b = '{'.toUInt8 := by
  have hbounds : readBounds b rest = none := by
    unfold readQuantifier at h
    cases hread : readBounds b rest with
    | none => rfl
    | some result =>
        rw [hread, Option.bind_eq_bind, Option.bind_some] at h
        dsimp only at h
        split at h <;> cases h
  unfold readBounds at hbounds
  unfold Byte.isQuantifier at hb
  split at hb
  · rename_i hchar
    rw [hchar] at hbounds
    cases hbounds
  · rename_i hchar
    rw [hchar] at hbounds
    cases hbounds
  · rename_i hchar
    rw [hchar] at hbounds
    cases hbounds
  · rename_i hchar
    exact Byte.eq_of_toChar hchar
  · cases hb

/-- A quantifier behind an operand that can be repeated, and nothing to repeat behind that. -/
theorem alongside_quantifier {operand : Tree} {before : List Tree}
    (hrest : pattern.drop position = b :: rest) (hb : b.isQuantifier = true)
    (hoperands : reader.level.operands = operand :: before)
    (hrepeatable : operand.isRepeatable = true) :
    Alongside pattern
      (do
        let times ← Descent.quantifier pattern
        if ← Descent.ahead pattern Byte.isQuantifier then
          Descent.refuse .nothingToRepeat (← Descent.cursor)
        else return .repetition operand.construct.position operand.construct times)
      reader position fun value next stop =>
        ∃ times, value = (Tree.rep operand times).construct ∧ position < stop ∧
          next.level = { reader.level with operands := .rep operand times :: before } ∧
          next.openings = reader.openings ∧ NoQuantifierAt pattern stop := by
  have hyields := @yields_quantifier pattern rest reader.groups position b hrest
  have hadvance : reader.advance position b rest = reader.readRepetition position b rest :=
    Reader.advance_of_isQuantifier hb
  rw [Reader.readRepetition, hoperands] at hadvance
  dsimp only at hadvance
  rw [if_pos hrepeatable] at hadvance
  cases hread : readQuantifier b rest with
  | none =>
      obtain rfl := brace_of_readQuantifier hb hread
      have hwritten : WrittenAt pattern position '{' := getElem?_of_drop hrest
      rw [hread] at hyields hadvance
      obtain ⟨stop, hrun⟩ := hyields
      exact .refused hrest hadvance ⟨hwritten.le, hwritten⟩ ⟨stop, hrun.bind_none⟩
  | some result =>
      obtain ⟨times, taken⟩ := result
      rw [hread] at hyields hadvance
      refine .step hrest hadvance hyields fun hlength => ?_
      dsimp only
      generalize hnext : position + 1 + taken = stop at hlength ⊢
      have hfurther : position < stop := by omega
      rcases @Runs.ahead_cases pattern ⟨stop, reader.groups, none⟩ Byte.isQuantifier with
        ⟨hahead, hnone⟩ | ⟨q, behind, hend, hq, hahead⟩
      · refine .after hahead (.pure hlength ⟨times, ?_, hfurther, rfl, rfl, hnone⟩)
        rw [Tree.position_construct]
        rfl
      · refine .after hahead (.refused hend (advance_nothingToRepeat hq ?_)
          (Error.pointsAt_quantifier hend hq) ⟨stop, .bind .cursor (.refuse rfl _ _)⟩)
        intro last others hcons
        obtain ⟨rfl, -⟩ := List.cons.inj hcons
        rfl

theorem alongside_repetition (hrest : pattern.drop position = b :: rest)
    (hnested : AlternationsFollow pattern position)
    (hdepth : reader.openings.length ≤ maxNesting)
    (hclose : b.toChar ≠ ')') (hbar : b.toChar ≠ '|')
    (hfirst : reader.level.operands = [] ∨ b.isQuantifier = false) :
    Alongside pattern (Descent.Source.repetition pattern reader.openings.length) reader position
      (Shows fun operand next stop =>
        Taken reader position operand next stop ∧ NoQuantifierAt pattern stop) := by
  unfold Descent.Source.repetition
  refine .bind (alongside_atom hrest hnested hdepth hclose hbar hfirst) ?_
  rintro _ next stop hle hstop ⟨operand, rfl, htaken, hrepeatable⟩
  rcases @Runs.ahead_cases pattern ⟨stop, next.groups, none⟩ Byte.isQuantifier with
    ⟨hahead, hnone⟩ | ⟨q, behind, hend, hq, hahead⟩
  · exact .after hahead (.pure hstop ⟨operand, rfl, htaken, hnone⟩)
  · refine .after hahead ?_
    rw [if_pos rfl]
    cases hanchor : operand.construct.isAnchor with
    | true =>
        rw [hanchor] at hrepeatable
        refine .refused hend (advance_nothingToRepeat hq ?_) (Error.pointsAt_quantifier hend hq)
          ⟨stop, .bind .cursor (.refuse rfl _ _)⟩
        intro last before hoperands
        rw [htaken.level] at hoperands
        obtain ⟨rfl, -⟩ := List.cons.inj hoperands
        exact hrepeatable
    | false =>
        rw [hanchor] at hrepeatable
        have hoperands : next.level.operands = operand :: reader.level.operands := by
          rw [htaken.level]
          rfl
        refine (alongside_quantifier hend hq hoperands hrepeatable).mono ?_
        rintro _ last ending - ⟨times, rfl, hlt, hlast, hlastOpenings, hnone⟩
        refine ⟨.rep operand times, rfl, ?_, hnone⟩
        refine ⟨Nat.lt_trans htaken.further hlt, htaken.begins, rfl, rfl, ?_,
          hlastOpenings.trans htaken.openings⟩
        rw [hlast, htaken.level]
        rfl

end Operands

end RegexSearch
