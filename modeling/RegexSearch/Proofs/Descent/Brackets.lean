import RegexSearch.Proofs.Descent.Runs
import RegexSearch.Proofs.Pattern.Bracket
import RegexSearch.Proofs.Pattern.Errors

/-!
How a descent reads escapes and bracket expressions: always safely, and as the functions on lists do
that read them from the bytes at the cursor. Where these refuse, the descent fails for the same
reason, and the reason points at the backslash or at the opening bracket.
-/

namespace RegexSearch

/-! ### Escapes -/

section Escapes

variable {pattern rest : Bytes} {groups position : Nat} {b : Byte}

theorem runs_reference (hrest : pattern.drop position = rest) (number : Nat) :
    Runs pattern (Descent.Source.reference pattern number) ⟨position, groups, none⟩
      (some (continueReference groups number rest).1,
        ⟨position + (continueReference groups number rest).2, groups, none⟩) := by
  induction rest generalizing position number with
  | nil =>
      rw [Descent.Source.reference]
      exact .bind .get (.bind (.ahead hrest _) (.pure number))
  | cons digit rest ih =>
      rw [Descent.Source.reference]
      refine .bind .get (.bind (.ahead hrest _) ?_)
      rw [continueReference]
      change Runs pattern (if (digit.isDigit && _) = true then _ else _) _ _
      split
      · have hfurther := @ih (position + 1) (drop_add_of_drop hrest 1)
          (number * 10 + digit.digitValue)
        rw [Nat.add_assoc, Nat.add_comm 1] at hfurther
        exact .bind .cursor (.bind (.take hrest) (.bind (.round (Nat.lt_succ_self _)) hfurther))
      · exact .pure number

/-- The characters that begin the name of an escape, apart from the digits of backreferences. -/
def escapeChars : List Char :=
  ['f', 'n', 'r', 't', 'v', '0', 'c', 'x', 'd', 'D', 's', 'S', 'w', 'W', 'b', 'B']

/-- The context in which an escape is read. -/
def EscapeContext.of (inBrackets : Bool) (groups : Nat) : EscapeContext :=
  if inBrackets then .brackets else .operand groups

/-- An escape that begins with a byte which is no name. -/
def readUnnamed (context : EscapeContext) (b : Byte) (rest : Bytes) : Except Cause (Atom × Nat) :=
  if b.isDigit then
    match context with
    | .brackets => .error .badEscape
    | .operand groups => readReference groups b rest
  else if b.isWord then .error .badEscape
  else .ok (.byte b, 1)

theorem readEscape_unnamed (h : b.toChar ∉ escapeChars) (context : EscapeContext) (rest : Bytes) :
    readEscape context (b :: rest) = readUnnamed context b rest := by
  have hother {c : Char} (hc : c ∈ escapeChars) : b.toChar ≠ c := fun heq => h (heq ▸ hc)
  simp only [readEscape]
  split
  iterate 16 exact absurd ‹_› (hother (by decide))
  rfl

theorem cause_of_readControl {cause : Cause} (h : readControl rest = .error cause) :
    cause = .badEscape := by
  unfold readControl at h
  split at h
  · split at h
    · cases h
    · exact (Except.error.inj h).symm
  · exact (Except.error.inj h).symm

theorem cause_of_readHexadecimal {cause : Cause} (h : readHexadecimal rest = .error cause) :
    cause = .badEscape := by
  unfold readHexadecimal at h
  split at h
  · split at h
    · cases h
    · exact (Except.error.inj h).symm
  · exact (Except.error.inj h).symm

theorem cause_of_readUnnamed {context : EscapeContext} {cause : Cause}
    (h : readUnnamed context b rest = .error cause) :
    cause = .badEscape ∨ cause = .badBackreference := by
  unfold readUnnamed at h
  split at h
  · cases context with
    | brackets => exact .inl (Except.error.inj h).symm
    | operand groups =>
        change readReference groups b rest = _ at h
        unfold readReference at h
        split at h
        · exact .inr (Except.error.inj h).symm
        · cases h
  · split at h
    · exact .inl (Except.error.inj h).symm
    · cases h

theorem cause_of_readEscape {context : EscapeContext} {bytes : Bytes} {cause : Cause}
    (h : readEscape context bytes = .error cause) :
    cause = .badEscape ∨ cause = .badBackreference := by
  unfold readEscape at h
  split at h
  · exact .inl (Except.error.inj h).symm
  split at h
  any_goals cases h
  · exact .inl (cause_of_readControl h)
  · exact .inl (cause_of_readHexadecimal h)
  · split at h <;> cases h
  · split at h
    · exact .inl (Except.error.inj h).symm
    · cases h
  · exact cause_of_readUnnamed h

/-- Whatever is wrong with an escape, its backslash is pointed at. -/
theorem pointsAt_of_readEscape {context : EscapeContext} {bytes : Bytes} {cause : Cause}
    (h : readEscape context bytes = .error cause) (hwritten : WrittenAt pattern position '\\') :
    Error.PointsAt pattern ⟨cause, position⟩ := by
  rcases cause_of_readEscape h with rfl | rfl
  · exact ⟨hwritten.le, hwritten⟩
  · exact ⟨hwritten.le, hwritten⟩

theorem between_digits {b : Byte} (h : b.toChar ≠ '0') : b.between '1' '9' = b.isDigit := by
  have hzero : b ≠ '0'.toUInt8 := by
    rintro rfl
    exact h rfl
  rw [Byte.isDigit, Bool.eq_iff_iff]
  simp only [Byte.between, Bool.and_eq_true, decide_eq_true_eq, UInt8.le_iff_toNat_le]
  rw [Ne, ← UInt8.toNat_inj] at hzero
  change ¬ b.toNat = 48 at hzero
  change 49 ≤ b.toNat ∧ b.toNat ≤ 57 ↔ 48 ≤ b.toNat ∧ b.toNat ≤ 57
  omega

/-- Behind the first byte of an escape that has no name. -/
theorem yields_unnamed (hrest : pattern.drop (position + 1) = rest) (hzero : b.toChar ≠ '0')
    (inBrackets : Bool) (start : Nat) :
    Yields pattern groups (Descent.unnamed pattern inBrackets start b) (position + 1)
      (located start position (readUnnamed (.of inBrackets groups) b rest)) := by
  rw [Descent.unnamed, between_digits hzero]
  unfold readUnnamed
  cases b.isDigit with
  | false =>
      change Yields pattern groups (if b.isWord = true then _ else _) _
        (located _ _ (if _ then _ else _))
      split
      · exact .refuse .badEscape start
      · exact .pure _ (position + 1)
  | true =>
      cases inBrackets with
      | true => exact .refuse .badEscape start
      | false =>
          refine .after .get ?_
          change Yields pattern groups (if groups < b.digitValue then _ else _) _
            (located _ _ (readReference groups b rest))
          rw [readReference]
          split
          · exact .refuse .badBackreference start
          · refine .after (runs_reference hrest b.digitValue) ?_
            rw [Nat.add_right_comm]
            exact .pure _ _

/-- Behind the `c` of an escape. -/
theorem yields_letter (hrest : pattern.drop (position + 1) = rest) (start : Nat) :
    Yields pattern groups (Descent.letter pattern start) (position + 1)
      (located start position (readControl rest)) := by
  refine .after (.ahead hrest _) ?_
  cases rest with
  | nil => exact .refuse .badEscape start
  | cons letter rest =>
      change Yields pattern groups (if letter.isLetter = true then _ else _) _
        (located _ _ (readControl (letter :: rest)))
      rw [readControl]
      split
      · exact .after (.take hrest) (.pure _ _)
      · exact .refuse .badEscape start

/-- Behind the `x` of an escape. -/
theorem yields_hexadecimal (hrest : pattern.drop (position + 1) = rest) (start : Nat) :
    Yields pattern groups (Descent.hexadecimal pattern start) (position + 1)
      (located start position (readHexadecimal rest)) := by
  refine .after .cursor ?_
  have hlength := congrArg List.length hrest
  rw [List.length_drop] at hlength
  match rest, hrest with
  | [], hrest =>
      rw [List.length_nil] at hlength
      have hshort : ¬ position + 1 + 1 < pattern.length := by omega
      exact if_neg hshort ▸ .refuse .badEscape start
  | [_], hrest =>
      rw [List.length_singleton] at hlength
      have hshort : ¬ position + 1 + 1 < pattern.length := by omega
      exact if_neg hshort ▸ .refuse .badEscape start
  | high :: low :: more, hrest =>
      have hnext : pattern.drop (position + 1 + 1) = low :: more := drop_add_of_drop hrest 1
      dsimp only
      rw [if_pos (lt_length_of_drop hnext)]
      refine .after (.look (getElem?_of_drop hrest)) ?_
      rw [readHexadecimal]
      cases high.hexValue? with
      | none => exact .refuse .badEscape start
      | some upper =>
          refine .after (.look (getElem?_of_drop hnext)) ?_
          cases low.hexValue? with
          | none => exact .refuse .badEscape start
          | some lower => exact .after (.move (lt_length_of_drop hnext)) (.pure _ _)

theorem yields_escape (inBrackets : Bool) :
    Yields pattern groups (Descent.escape pattern inBrackets) position
      (located (position - 1) position
        (readEscape (.of inBrackets groups) (pattern.drop position))) := by
  refine .after .cursor ?_
  cases hrest : pattern.drop position with
  | nil => exact .after (.atEnd hrest) (.refuse .badEscape _)
  | cons b rest =>
      refine .after (.atEnd hrest) (.after (.take hrest) ?_)
      have hnext : pattern.drop (position + 1) = rest := drop_add_of_drop hrest 1
      dsimp only
      split
      any_goals
        rename_i hchar
        obtain rfl := Byte.eq_of_toChar hchar
        exact .pure _ _
      · rename_i hchar
        obtain rfl := Byte.eq_of_toChar hchar
        exact yields_letter hnext _
      · rename_i hchar
        obtain rfl := Byte.eq_of_toChar hchar
        exact yields_hexadecimal hnext _
      · rename_i hchar
        obtain rfl := Byte.eq_of_toChar hchar
        cases inBrackets with
        | true => exact .pure _ _
        | false => exact .pure _ _
      · rename_i hchar
        obtain rfl := Byte.eq_of_toChar hchar
        cases inBrackets with
        | true => exact .refuse .badEscape _
        | false => exact .pure _ _
      · have hname : b.toChar ∉ escapeChars := by
          simp only [escapeChars, List.mem_cons, List.not_mem_nil, or_false, not_or]
          refine ⟨‹_›, ‹_›, ‹_›, ‹_›, ‹_›, ‹_›, ‹_›, ‹_›, ‹_›, ‹_›, ‹_›, ‹_›, ‹_›, ‹_›, ‹_›, ‹_›⟩
        rw [readEscape_unnamed hname]
        exact yields_unnamed hnext ‹_› inBrackets _

end Escapes

/-! ### Bracket expressions -/

section Brackets

variable {pattern rest : Bytes} {groups position opening : Nat} {b : Byte}

/-- Between brackets an escape stands for a byte or a set. -/
theorem exists_member_of_readEscape {a : Atom} {taken : Nat}
    (h : readEscape .brackets rest = .ok (a, taken)) : ∃ m : BracketMember, a = m.atom := by
  cases readsEscape_of_readEscape h with
  | named _ e hvalid following => exact ⟨e.meaning, rfl⟩
  | backspace following => exact ⟨.byte 0x08, rfl⟩

theorem yields_member (hrest : pattern.drop position = b :: rest) :
    Yields pattern groups (Descent.member pattern) position
      (located position (position + 1) (readMember b rest)) := by
  refine .after (.peek hrest) ?_
  rw [readMember]
  split
  · refine .after (.pass hrest) ?_
    have hescape := @yields_escape pattern groups (position + 1) true
    rw [drop_add_of_drop hrest 1] at hescape
    change Yields pattern groups _ _ (located position _ (readEscape .brackets rest)) at hescape
    cases hread : readEscape .brackets rest with
    | error cause =>
        rw [hread] at hescape
        exact hescape.stopped
    | ok result =>
        obtain ⟨a, taken⟩ := result
        rw [hread] at hescape
        refine .after hescape ?_
        obtain ⟨m, rfl⟩ := exists_member_of_readEscape hread
        cases m with
        | byte value => exact .pure _ _
        | set members => exact .pure _ _
  · exact .after (.take hrest) (.pure _ _)

theorem runs_joins (hrest : pattern.drop position = rest) :
    Runs pattern (Descent.joins pattern) ⟨position, groups, none⟩
      (some (joinsRange rest), ⟨position, groups, none⟩) := by
  refine .bind (.ahead hrest _) ?_
  cases rest with
  | nil => exact .pure false
  | cons b rest =>
      change Runs pattern (if (b.toChar == '-') = true then _ else _) _ _
      split
      · rename_i hminus
        obtain rfl := Byte.eq_of_toChar (beq_iff_eq.mp hminus)
        refine .bind .cursor ?_
        have hlength := congrArg List.length hrest
        rw [List.length_drop, List.length_cons] at hlength
        cases rest with
        | nil =>
            rw [List.length_nil] at hlength
            have hshort : ¬ position + 1 < pattern.length := by omega
            exact if_neg hshort ▸ .pure false
        | cons next more =>
            have hnext : pattern.drop (position + 1) = next :: more := drop_add_of_drop hrest 1
            dsimp only
            rw [if_pos (lt_length_of_drop hnext)]
            exact .bind (.look (getElem?_of_drop hnext)) (.pure _)
      · rename_i hminus
        have hjoins : ¬ joinsRange (b :: rest) = true := by
          rw [joinsRange_iff]
          rintro ⟨next, more, heq, -⟩
          rw [(List.cons.inj heq).1] at hminus
          exact hminus rfl
        rw [Bool.eq_false_iff.mpr hjoins]
        exact .pure false

theorem readMembers_cons (ranges : List ByteRange) (low : Option Byte)
    (hb : b.toChar ≠ ']' ∨ low.isSome = true) :
    readMembers opening ranges low 0 position (b :: rest) =
      match readMember b rest with
      | .error cause => .error ⟨cause, position⟩
      | .ok (member, taken) =>
        let following := rest.drop taken
        match low, member with
        | some first, .byte last =>
          if last.toInt8 < first.toInt8 then .error ⟨.badBracketExpression, opening⟩
          else
            readMembers opening (.ofBytes first last :: ranges) none 0 (position + 1 + taken)
              following
        | some _, .set _ => .error ⟨.badBracketExpression, opening⟩
        | none, member =>
          if joinsRange following then
            match member with
            | .byte first =>
              readMembers opening ranges (some first) 0 (position + 1 + taken + 1)
                (following.drop 1)
            | .set _ => .error ⟨.badBracketExpression, opening⟩
          else
            readMembers opening (member.ranges ++ ranges) none 0 (position + 1 + taken)
              following := by
  have hclosing : ¬ (b.toChar == ']' && low.isNone) = true := by
    intro heq
    obtain ⟨hbracket, hnone⟩ := Bool.and_eq_true_iff.mp heq
    rcases hb with hb | hsome
    · exact hb (beq_iff_eq.mp hbracket)
    · cases low with
      | none => cases hsome
      | some first => cases hnone
  rw [readMembers, if_neg hclosing]
  cases readMember b rest with
  | error cause => rfl
  | ok result =>
      obtain ⟨m, taken⟩ := result
      cases low with
      | some first =>
          cases m with
          | byte last =>
              dsimp only
              rw [readMembers_skip]
          | set members => rfl
      | none =>
          cases m with
          | byte first =>
              dsimp only
              rw [readMembers_skip, readMembers_skip opening _ none, List.drop_drop]
              rfl
          | set members =>
              dsimp only
              rw [readMembers_skip]

theorem pointsAt_of_readMember {cause : Cause} (hrest : pattern.drop position = b :: rest)
    (h : readMember b rest = .error cause) : Error.PointsAt pattern ⟨cause, position⟩ := by
  unfold readMember at h
  split at h
  · rename_i hbackslash
    obtain rfl := Byte.eq_of_toChar (beq_iff_eq.mp hbackslash)
    cases hread : readEscape .brackets rest with
    | error found =>
        rw [hread] at h
        cases h
        exact pointsAt_of_readEscape hread (getElem?_of_drop hrest)
    | ok result =>
        obtain ⟨a, taken⟩ := result
        obtain ⟨m, rfl⟩ := exists_member_of_readEscape hread
        rw [hread] at h
        cases m <;> cases h
  · cases h

/-- A part of a bracket expression reads on as members are read, from the offset `position` with a
lower end that may be waiting for its upper end. -/
def ReadsOn (pattern : Bytes) (groups opening : Nat) (low : Option Byte)
    (part : Descent (List ByteRange)) (position : Nat) : Prop :=
  (∃ found stop, position < stop ∧
    Runs pattern part ⟨position, groups, none⟩ (some found, ⟨stop, groups, none⟩) ∧
    ∀ ranges, readMembers opening ranges low 0 position (pattern.drop position) =
      readMembers opening (found ++ ranges) none 0 stop (pattern.drop stop)) ∨
  ∃ error, Error.PointsAt pattern error ∧
    Yields pattern groups part position (.error (some error)) ∧
    ∀ ranges, readMembers opening ranges low 0 position (pattern.drop position) = .error error

theorem Error.pointsAt_bracket (hopening : WrittenAt pattern opening '[') :
    Error.PointsAt pattern ⟨.badBracketExpression, opening⟩ :=
  ⟨hopening.le, hopening⟩

theorem readsOn_range (hrest : pattern.drop position = b :: rest)
    (hopening : WrittenAt pattern opening '[') (low : Byte) :
    ReadsOn pattern groups opening (some low) (Descent.range pattern opening low) position := by
  have hmember := @yields_member pattern rest groups position b hrest
  have hmembers (ranges : List ByteRange) :=
    @readMembers_cons rest position opening b ranges (some low) (.inr rfl)
  rw [ReadsOn, hrest]
  cases hread : readMember b rest with
  | error cause =>
      rw [hread] at hmember
      refine .inr ⟨_, pointsAt_of_readMember hrest hread, hmember.stopped, fun ranges => ?_⟩
      rw [hmembers, hread]
  | ok result =>
      obtain ⟨m, taken⟩ := result
      rw [hread] at hmember
      cases m with
      | set members =>
          refine .inr ⟨_, Error.pointsAt_bracket hopening, .after hmember (.refuse _ _), ?_⟩
          intro ranges
          rw [hmembers, hread]
      | byte high =>
          by_cases horder : high.toInt8 < low.toInt8
          · refine .inr ⟨_, Error.pointsAt_bracket hopening, .after hmember ?_, fun ranges => ?_⟩
            · dsimp only
              rw [if_pos horder]
              exact .refuse _ _
            · rw [hmembers, hread]
              exact if_pos horder
          · refine .inl ⟨[.ofBytes low high], position + 1 + taken, by omega, .bind hmember ?_,
              fun ranges => ?_⟩
            · dsimp only
              rw [if_neg horder]
              exact .pure _
            · rw [hmembers, hread, drop_behind_of_drop hrest]
              exact if_neg horder

theorem readsOn_item (hrest : pattern.drop position = b :: rest) (hb : b.toChar ≠ ']')
    (hopening : WrittenAt pattern opening '[') :
    ReadsOn pattern groups opening none (Descent.item pattern opening) position := by
  have hmember := @yields_member pattern rest groups position b hrest
  have hmembers (ranges : List ByteRange) :=
    @readMembers_cons rest position opening b ranges none (.inl hb)
  rw [ReadsOn, hrest]
  cases hread : readMember b rest with
  | error cause =>
      rw [hread] at hmember
      refine .inr ⟨_, pointsAt_of_readMember hrest hread, hmember.stopped, fun ranges => ?_⟩
      rw [hmembers, hread]
  | ok result =>
      obtain ⟨m, taken⟩ := result
      rw [hread] at hmember
      have hbehind := drop_behind_of_drop hrest taken
      have hnext := @runs_joins pattern _ groups _ hbehind
      cases hjoins : joinsRange (rest.drop taken) with
      | false =>
          rw [hjoins] at hnext
          refine .inl ⟨m.ranges, position + 1 + taken, by omega, ?_, fun ranges => ?_⟩
          · exact .bind hmember (.bind hnext (.pure _))
          · rw [hmembers, hread]
            dsimp only
            rw [hjoins, hbehind]
            rfl
      | true =>
          rw [hjoins] at hnext
          cases m with
          | set members =>
              refine .inr ⟨_, Error.pointsAt_bracket hopening,
                .after hmember (.after hnext (.refuse _ _)), fun ranges => ?_⟩
              rw [hmembers, hread]
              dsimp only
              rw [hjoins]
              rfl
          | byte low =>
              obtain ⟨last, more, hfollowing, -⟩ := joinsRange_iff.mp hjoins
              rw [hfollowing] at hbehind
              have hlast : pattern.drop (position + 1 + taken + 1) = last :: more :=
                drop_add_of_drop hbehind 1
              have hwait (ranges : List ByteRange) :
                  readMembers opening ranges none 0 position (b :: rest) =
                    readMembers opening ranges (some low) 0 (position + 1 + taken + 1)
                      (pattern.drop (position + 1 + taken + 1)) := by
                rw [hmembers, hread]
                dsimp only
                rw [hjoins, hfollowing, hlast]
                rfl
              have hmove := @Runs.pass pattern _ _ _ groups none hbehind
              rcases @readsOn_range pattern more groups _ opening last hlast hopening low with
                ⟨found, stop, hlt, hrun, hmore⟩ | ⟨error, hpoints, hrun, hmore⟩
              · refine .inl ⟨found, stop, by omega, ?_, fun ranges => ?_⟩
                · exact .bind hmember (.bind hnext (.bind hmove hrun))
                · rw [hwait, hmore]
              · refine .inr ⟨error, hpoints, ?_, fun ranges => ?_⟩
                · exact .after hmember (.after hnext (.after hmove hrun))
                · rw [hwait, hmore]

/-- All items up to the closing bracket. -/
theorem items_outcome (hopening : WrittenAt pattern opening '[') (ranges : List ByteRange)
    (position : Nat) :
    (∃ found stop, position ≤ stop ∧
      Runs pattern (Descent.Source.items pattern opening ranges) ⟨position, groups, none⟩
        (some found, ⟨stop, groups, none⟩) ∧
      (∀ b rest, pattern.drop stop = b :: rest → b.toChar = ']') ∧
      readMembers opening ranges none 0 position (pattern.drop position) =
        readMembers opening found none 0 stop (pattern.drop stop)) ∨
    ∃ error, Error.PointsAt pattern error ∧
      Yields pattern groups (Descent.Source.items pattern opening ranges) position
        (.error (some error)) ∧
      readMembers opening ranges none 0 position (pattern.drop position) = .error error := by
  -- Every item advances the cursor, so less of the pattern is left behind it.
  induction hleft : pattern.length - position using Nat.strongRecOn
      generalizing position ranges with
  | ind left ih =>
      rw [Descent.Source.items]
      rcases @Runs.ahead_cases pattern ⟨position, groups, none⟩ (·.toChar != ']') with
        ⟨hahead, hends⟩ | ⟨b, rest, hrest, hb, hahead⟩
      · refine .inl ⟨ranges, position, Nat.le_refl _, .bind hahead (.pure _), ?_, rfl⟩
        exact fun b rest hrest => bne_eq_false_iff_eq.mp (hends b rest hrest)
      · have hlt := lt_length_of_drop hrest
        rcases @readsOn_item pattern rest groups position opening b hrest (bne_iff_ne.mp hb)
            hopening with
          ⟨found, stop, hadvance, hrun, hmore⟩ | ⟨error, hpoints, hrun, hmore⟩
        · have hstop : stop ≤ pattern.length := hrun.cursor_le (Nat.le_of_lt hlt)
          have hround := @Runs.round pattern ⟨stop, groups, none⟩ position hadvance
          rcases ih (pattern.length - stop) (by omega) (found ++ ranges) stop rfl with
            ⟨all, last, hle, hothers, hends, hall⟩ | ⟨error, hpoints, hothers, hall⟩
          · refine .inl ⟨all, last, by omega, ?_, hends, by rw [hmore, hall]⟩
            exact .bind hahead (.bind .cursor (.bind hrun (.bind hround hothers)))
          · refine .inr ⟨error, hpoints, ?_, by rw [hmore, hall]⟩
            exact .after hahead (.after .cursor (.after hrun (.after hround hothers)))
        · refine .inr ⟨error, hpoints, ?_, hmore ranges⟩
          exact .after hahead (.after .cursor hrun.stopped)

/-- A bracket expression is read from its opening bracket as on lists. If it is refused, something
of it is pointed at. -/
theorem yields_brackets (hrest : pattern.drop position = '['.toUInt8 :: rest) :
    Yields pattern groups (Descent.brackets pattern) position
        ((readBrackets position rest).mapError some) ∧
      ∀ error, readBrackets position rest = .error error → Error.PointsAt pattern error := by
  have hopening : WrittenAt pattern position '[' := getElem?_of_drop hrest
  have hmove := @Runs.pass pattern _ _ _ groups none hrest
  have hnext : pattern.drop (position + 1) = rest := drop_add_of_drop hrest 1
  have hskip := @Runs.skip pattern ⟨position + 1, groups, none⟩ rest hnext (·.toChar == '^')
  unfold readBrackets
  generalize rest.head?.any (·.toChar == '^') = negated at hskip ⊢
  have hbehind : readMembers position [] none (if negated then 1 else 0) (position + 1) rest =
      readMembers position [] none 0 (position + 1 + negated.toNat)
        (pattern.drop (position + 1 + negated.toNat)) := by
    rw [readMembers_skip, drop_add_of_drop hnext]
    cases negated <;> rfl
  dsimp only
  rw [hbehind]
  rcases @items_outcome pattern groups position hopening [] (position + 1 + negated.toNat) with
    ⟨found, stop, -, hrun, hends, hall⟩ | ⟨error, hpoints, hrun, hall⟩
  · rw [hall]
    cases hstop : pattern.drop stop with
    | nil =>
        have hend := @Runs.atEnd pattern ⟨stop, groups, none⟩ _ hstop
        refine ⟨.after .cursor (.after hmove (.after hskip (.after hrun (.after hend ?_)))), ?_⟩
        · exact .refuse .badBracketExpression position
        · intro error herror
          cases herror
          exact Error.pointsAt_bracket hopening
    | cons b behind =>
        obtain rfl := Byte.eq_of_toChar (hends b behind hstop)
        have hend := @Runs.atEnd pattern ⟨stop, groups, none⟩ _ hstop
        refine ⟨.after .cursor (.after hmove (.after hskip (.after hrun (.after hend ?_)))), ?_⟩
        · exact .after (.pass hstop) (.pure _ _)
        · intro error herror
          cases herror
  · rw [hall]
    refine ⟨.after .cursor (.after hmove (.after hskip hrun.stopped)), ?_⟩
    intro found hfound
    cases hfound
    exact hpoints

end Brackets

end RegexSearch
