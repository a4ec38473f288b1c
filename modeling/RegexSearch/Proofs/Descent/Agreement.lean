import RegexSearch.Proofs.Descent.Operands

/-!
The descent through a whole pattern goes alongside the reader, so both come to the same end. Every
alternation that is called begins further on in the pattern than the one around it, which is what
the induction is on; a chain of operands or of alternatives advances with each of its members.
-/

namespace RegexSearch

/-! ### Alternations -/

/-- Nothing is written at an offset, or a byte that ends a chain of operands. -/
def OperandsEndAt (pattern : Bytes) (position : Nat) : Prop :=
  ∀ b rest, pattern.drop position = b :: rest → b.toChar = '|' ∨ b.toChar = ')'

/-- These operands have been read, the latest first, in front of those before. No operand is a
chain, and the earliest one begins at the offset. -/
structure TakenOperands (pattern : Bytes) (reader : Reader) (position : Nat) (operands : List Tree)
    (next : Reader) (stop : Nat) : Prop where
  openings : next.openings = reader.openings
  level : next.level =
    { reader.level with operands := operands ++ reader.level.operands }
  begins : ∀ first, operands.getLast? = some first → first.position = position
  noChain : ∀ operand ∈ operands, operand.isCat = false ∧ operand.isAlt = false
  ends : OperandsEndAt pattern stop

section Alternations

variable {pattern rest : Bytes} {reader : Reader} {position : Nat} {b : Byte}

theorem AlternationsFollow.mono {start : Nat} (h : AlternationsFollow pattern position)
    (hle : position ≤ start) : AlternationsFollow pattern start :=
  fun reader behind hlt => h reader behind (Nat.lt_of_le_of_lt hle hlt)

theorem alongside_operands (hlength : position ≤ pattern.length)
    (hnested : AlternationsFollow pattern position)
    (hdepth : reader.openings.length ≤ maxNesting)
    (hfirst : reader.level.operands = [] ∨ NoQuantifierAt pattern position) :
    Alongside pattern
      (Descent.Source.operands pattern reader.openings.length
        (reader.level.operands.map Tree.construct)) reader position
      fun values next stop => ∃ operands : List Tree,
        values = (operands ++ reader.level.operands).map Tree.construct ∧
          TakenOperands pattern reader position operands next stop := by
  induction hleft : pattern.length - position using Nat.strongRecOn
      generalizing reader position with
  | ind left ih =>
      rw [Descent.Source.operands]
      rcases @Runs.ahead_cases pattern ⟨position, reader.groups, none⟩
          (fun b => b.toChar != '|' && b.toChar != ')') with
        ⟨hahead, hends⟩ | ⟨b, rest, hrest, hmore, hahead⟩
      · refine .after hahead (.pure hlength ⟨[], rfl, rfl, rfl, ?_, ?_, fun b rest hrest => ?_⟩)
        · intro first hfirst
          cases hfirst
        · intro operand hoperand
          cases hoperand
        · have hb := hends b rest hrest
          rwa [Bool.and_eq_false_iff, bne_eq_false_iff_eq, bne_eq_false_iff_eq] at hb
      · rw [Bool.and_eq_true_iff, bne_iff_ne, bne_iff_ne] at hmore
        have hlt := lt_length_of_drop hrest
        refine .after hahead (.after .cursor ?_)
        refine .bind (alongside_repetition hrest hnested hdepth hmore.2 hmore.1 ?_) ?_
        · exact hfirst.imp_right fun hnone => hnone b rest hrest
        · -- Behind a repetition no quantifier is left, so the next operand may begin there.
          rintro _ next stop hle hstop ⟨operand, rfl, htaken, hnone⟩
          have hfurther := htaken.further
          have hopenings := htaken.openings
          have hlevel := htaken.level
          refine .after (.round hfurther) ?_
          have hagain := @ih (pattern.length - stop) (by omega) next stop hstop
            (hnested.mono hle) (by rw [hopenings]; exact hdepth) (.inr hnone) rfl
          rw [hopenings, hlevel] at hagain
          refine hagain.mono ?_
          rintro _ last ending - ⟨operands, rfl, hoperands⟩
          have hlastLevel := hoperands.level
          rw [hlevel] at hlastLevel
          refine ⟨operands ++ [operand], ?_, hoperands.openings.trans hopenings, ?_, ?_, ?_,
            hoperands.ends⟩
          · rw [List.append_assoc]
            rfl
          · rw [hlastLevel, List.append_assoc]
            rfl
          · intro first hlast
            rw [List.getLast?_concat] at hlast
            cases hlast
            exact htaken.begins
          · intro other hother
            rcases List.mem_append.mp hother with hother | hother
            · exact hoperands.noChain other hother
            · rw [List.mem_singleton.mp hother]
              exact ⟨htaken.noCat, htaken.noAlt⟩

/-- Where there is no operand, the reader is refused as well. -/
theorem alongside_noOperand {post : Construct → Reader → Nat → Prop}
    (hlength : position ≤ pattern.length) (hempty : reader.level.operands = [])
    (hends : OperandsEndAt pattern position) :
    Alongside pattern (Descent.noOperand pattern reader.openings.length) reader position post := by
  have hbranch : reader.level.branch? = none := by
    rw [Level.branch?, hempty]
  have htree : reader.level.tree? = none := by
    rw [Level.tree?, hbranch]
    rfl
  unfold Descent.noOperand
  cases hrest : pattern.drop position with
  | nil =>
      have hend : position = pattern.length :=
        Nat.le_antisymm hlength (List.drop_eq_nil_iff.mp hrest)
      have hrefused : reader.finish pattern.length =
          .error ⟨⟨.emptyOperand, position⟩, reader.groups⟩ := by
        rw [Reader.finish, htree, hend]
        rfl
      refine .refused_end hrest hrefused ⟨hlength, .inl hend⟩ ⟨position, ?_⟩
      split
      · exact .bind (.ahead hrest _) (.bind .cursor (.refuse rfl _ _))
      · exact .bind .cursor (.refuse rfl _ _)
  | cons b rest =>
      rcases hends b rest hrest with hbar | hclose
      · obtain rfl := Byte.eq_of_toChar hbar
        have hwritten : WrittenAt pattern position '|' := getElem?_of_drop hrest
        have hrefused : reader.advance position '|'.toUInt8 rest =
            .error ⟨⟨.emptyOperand, position⟩, reader.groups⟩ := by
          change reader.readBar position = _
          rw [Reader.readBar, Level.bar?, hbranch]
          rfl
        refine .refused hrest hrefused ⟨hlength, .inr (.inl hwritten)⟩ ⟨position, ?_⟩
        split
        · exact .bind (.ahead hrest _) (.bind .cursor (.refuse rfl _ _))
        · exact .bind .cursor (.refuse rfl _ _)
      · obtain rfl := Byte.eq_of_toChar hclose
        have hwritten : WrittenAt pattern position ')' := getElem?_of_drop hrest
        have hadvance : reader.advance position ')'.toUInt8 rest =
            reader.readClosing position := rfl
        rw [Reader.readClosing, htree] at hadvance
        cases hopenings : reader.openings with
        | nil =>
            rw [hopenings] at hadvance
            refine .refused hrest hadvance ⟨hlength, .inr hwritten⟩ ⟨position, ?_⟩
            rw [if_pos List.length_nil]
            exact .bind (.ahead hrest _) (.bind .cursor (.refuse rfl _ _))
        | cons innermost outer =>
            rw [hopenings] at hadvance
            refine .refused hrest hadvance ⟨hlength, .inr (.inr hwritten)⟩ ⟨position, ?_⟩
            have hinside : ¬ (innermost :: outer).length = 0 := Nat.succ_ne_zero _
            rw [if_neg hinside]
            exact .bind .cursor (.refuse rfl _ _)

/-- A concatenation has been read. -/
structure TakenConcatenation (pattern : Bytes) (reader : Reader) (position : Nat) (tree : Tree)
    (next : Reader) (stop : Nat) : Prop where
  openings : next.openings = reader.openings
  alternatives : next.level.alternatives = reader.level.alternatives
  branch : next.level.branch? = some tree
  begins : tree.position = position
  noAlt : tree.isAlt = false
  ends : OperandsEndAt pattern stop

theorem alongside_concatenation (hlength : position ≤ pattern.length)
    (hnested : AlternationsFollow pattern position)
    (hdepth : reader.openings.length ≤ maxNesting) (hempty : reader.level.operands = []) :
    Alongside pattern (Descent.Source.concatenation pattern reader.openings.length) reader position
      (Shows (TakenConcatenation pattern reader position)) := by
  have hoperands := alongside_operands hlength hnested hdepth (.inl hempty)
  rw [hempty, List.map_nil] at hoperands
  rw [Descent.Source.concatenation]
  refine .after .cursor (.bind hoperands ?_)
  rintro _ next stop hle hstop ⟨operands, rfl, htaken⟩
  have hlevel := htaken.level
  rw [hempty, List.append_nil] at hlevel
  rw [List.append_nil]
  match operands with
  | [] =>
      rw [← htaken.openings]
      exact alongside_noOperand hstop (by rw [hlevel]) htaken.ends
  | [only] =>
      have hbranch : next.level.branch? = some only := by
        rw [hlevel]
        rfl
      obtain ⟨-, hnoAlt⟩ := htaken.noChain only List.mem_cons_self
      exact .pure hstop ⟨only, rfl, htaken.openings, by rw [hlevel], hbranch,
        htaken.begins only rfl, hnoAlt, htaken.ends⟩
  | last :: earlier :: before =>
      have hstart : ((earlier :: before).getLast (List.cons_ne_nil _ _)).position = position := by
        apply htaken.begins
        rw [List.getLast?_cons_cons, List.getLast?_eq_some_getLast]
      have hconstruct := Tree.construct_foldl_cat (List.cons_ne_nil _ _) hstart
        (htaken.noChain last List.mem_cons_self).1
      have hbegins := congrArg Construct.position hconstruct
      rw [Tree.position_construct] at hbegins
      have hbranch : next.level.branch? = some ((earlier :: before).foldl
          (fun rest operand => .cat operand rest) last) := by
        rw [hlevel]
        rfl
      exact .pure hstop ⟨_, hconstruct.symm, htaken.openings, by rw [hlevel], hbranch, hbegins,
        Tree.isAlt_of_construct hconstruct, htaken.ends⟩

theorem alongside_alternatives {start : Nat} {last : Tree} (hlength : position ≤ pattern.length)
    (hnested : AlternationsFollow pattern position)
    (hdepth : reader.openings.length ≤ maxNesting) (hlast : reader.level.branch? = some last)
    (hnoAlt : last.isAlt = false)
    (hbegins :
      ((last :: reader.level.alternatives).getLast (List.cons_ne_nil _ _)).position = start)
    (hends : OperandsEndAt pattern position) :
    Alongside pattern
      (Descent.Source.alternatives pattern reader.openings.length start
        (reader.level.alternatives.map Tree.construct) last.construct)
      reader position (Shows (TakenAlternation pattern reader)) := by
  induction hleft : pattern.length - position using Nat.strongRecOn
      generalizing reader position last with
  | ind left ih =>
      rw [Descent.Source.alternatives]
      rcases @Runs.ahead_cases pattern ⟨position, reader.groups, none⟩ (·.toChar == '|') with
        ⟨hahead, hnone⟩ | ⟨b, rest, hrest, hbar, hahead⟩
      · have htree : reader.level.tree? = some (reader.level.alternatives.foldl
            (fun rest alternative => .alt alternative rest) last) := by
          rw [Level.tree?, hlast]
          rfl
        have hclosing : ∀ b rest, pattern.drop position = b :: rest → b.toChar = ')' :=
          fun b rest hrest =>
            (hends b rest hrest).resolve_left (beq_eq_false_iff_ne.mp (hnone b rest hrest))
        refine .after hahead ?_
        cases hbefore : reader.level.alternatives with
        | nil =>
            rw [hbefore] at htree
            exact .pure hlength ⟨last, rfl, rfl, htree, hclosing⟩
        | cons earlier before =>
            rw [hbefore] at htree
            simp only [hbefore] at hbegins
            rw [List.getLast_cons (List.cons_ne_nil _ _)] at hbegins
            have hconstruct := Tree.construct_foldl_alt (List.cons_ne_nil _ _) hbegins hnoAlt
            exact .pure hlength ⟨_, hconstruct.symm, rfl, htree, hclosing⟩
      · obtain rfl := Byte.eq_of_toChar (beq_iff_eq.mp hbar)
        have hlt := lt_length_of_drop hrest
        have hadvance : reader.advance position '|'.toUInt8 rest =
            .ok ({ reader with level := ⟨last :: reader.level.alternatives, []⟩ }, 0) := by
          change reader.readBar position = _
          rw [Reader.readBar, Level.bar?, hlast]
          rfl
        refine .after hahead (.after .cursor (.step hrest hadvance (.pass hrest) fun hnext => ?_))
        have hinner := hnested.mono (Nat.le_add_right position (1 + 0))
        refine .bind (@alongside_concatenation pattern
          { reader with level := ⟨last :: reader.level.alternatives, []⟩ } _ hnext hinner
          hdepth rfl) ?_
        rintro _ next stop hle hstop ⟨branch, rfl, htaken⟩
        have hopenings := htaken.openings
        have halternatives := htaken.alternatives
        have hfurther : position < stop := by omega
        have hstart : ((branch :: next.level.alternatives).getLast
            (List.cons_ne_nil _ _)).position = start := by
          simp only [halternatives]
          exact hbegins
        refine .after (.round hfurther) ?_
        have hagain := @ih (pattern.length - stop) (by omega) next stop branch hstop
          (hnested.mono (by omega)) (by rw [hopenings]; exact hdepth) htaken.branch htaken.noAlt
          hstart htaken.ends rfl
        rw [hopenings, halternatives] at hagain
        refine hagain.mono ?_
        rintro _ final ending - ⟨tree, rfl, hfinalOpenings, hfinalTree, hclosing⟩
        exact ⟨tree, rfl, hfinalOpenings.trans hopenings, hfinalTree, hclosing⟩

theorem alongside_alternation (hlength : position ≤ pattern.length)
    (hnested : AlternationsFollow pattern position)
    (hdepth : reader.openings.length ≤ maxNesting) (hempty : reader.level = .empty) :
    Alongside pattern (Descent.Source.alternation pattern reader.openings.length) reader position
      (Shows (TakenAlternation pattern reader)) := by
  rw [Descent.Source.alternation]
  refine .after .cursor (.bind (alongside_concatenation hlength hnested hdepth
    (by rw [hempty]; rfl)) ?_)
  rintro _ next stop hle hstop ⟨branch, rfl, htaken⟩
  have hopenings := htaken.openings
  have halternatives : next.level.alternatives = [] := by
    rw [htaken.alternatives, hempty]
    rfl
  have hbegins : ((branch :: next.level.alternatives).getLast
      (List.cons_ne_nil _ _)).position = position := by
    simp only [halternatives, List.getLast_singleton]
    exact htaken.begins
  have hfurther := alongside_alternatives hstop (hnested.mono hle)
    (by rw [hopenings]; exact hdepth) htaken.branch htaken.noAlt hbegins htaken.ends
  rw [hopenings, halternatives] at hfurther
  refine hfurther.mono ?_
  rintro _ final ending - ⟨tree, rfl, hfinalOpenings, hfinalTree, hclosing⟩
  exact ⟨tree, rfl, hfinalOpenings.trans hopenings, hfinalTree, hclosing⟩

/-- Each alternation is called further on in the pattern than the one around it. -/
theorem alternationsFollow (pattern : Bytes) (position : Nat) :
    AlternationsFollow pattern position := by
  induction hleft : pattern.length - position using Nat.strongRecOn generalizing position with
  | ind left ih =>
      intro reader start hlt hlength hempty hdepth
      have hnested : AlternationsFollow pattern start := ih _ (by omega) start rfl
      exact alongside_alternation hlength hnested hdepth hempty

end Alternations

/-! ### Whole patterns -/

theorem readPattern_eq_conclude {pattern : Bytes} (h : pattern ≠ []) :
    readPattern pattern =
      match Reader.start.conclude pattern 0 with
      | .error refusal => ⟨refusal.groups, .error refusal.error⟩
      | .ok (tree, groups) => ⟨groups, .ok tree⟩ := by
  unfold readPattern Reader.conclude
  rw [if_neg (by simpa using h), List.drop_zero]
  cases Reader.start.readFrom 0 0 pattern with
  | error refusal => rfl
  | ok last =>
      dsimp only
      cases last.finish pattern.length with
      | error refusal => rfl
      | ok tree => rfl

/-- Behind the outermost alternation the pattern is at its end, unless a parenthesis closes no
group. -/
theorem alongside_whole {pattern : Bytes} (h : pattern ≠ []) :
    Alongside pattern (Descent.whole pattern) .start 0 (Shows fun tree next stop =>
      next.level.tree? = some tree ∧ next.openings = [] ∧ stop = pattern.length) := by
  have hroot := @alongside_alternation pattern .start 0 (Nat.zero_le _)
    (alternationsFollow pattern 0) (Nat.zero_le _) rfl
  unfold Descent.whole
  rw [if_neg (List.isEmpty_iff.not.mpr h)]
  refine .bind hroot ?_
  rintro _ next stop - hstop ⟨tree, rfl, hopenings, htree, hclosing⟩
  refine .after .cursor ?_
  by_cases hend : stop = pattern.length
  · rw [if_pos hend]
    exact .pure hstop ⟨tree, rfl, htree, hopenings, hend⟩
  · rw [if_neg hend]
    cases hrest : pattern.drop stop with
    | nil =>
        have hle := List.drop_eq_nil_iff.mp hrest
        omega
    | cons b rest =>
        obtain rfl := Byte.eq_of_toChar (hclosing b rest hrest)
        have hwritten : WrittenAt pattern stop ')' := getElem?_of_drop hrest
        have hrefused : next.advance stop ')'.toUInt8 rest =
            .error ⟨⟨.missingParen, stop⟩, next.groups⟩ := by
          change next.readClosing stop = _
          rw [Reader.readClosing, hopenings]
          rfl
        exact .refused hrest hrefused ⟨hwritten.le, .inr hwritten⟩
          ⟨stop, .bind .cursor (.refuse rfl _ _)⟩

/-- The descent through a whole pattern runs safely, and has the outcome that reading has. If there
is a reason to fail, it points at something. -/
theorem runs_whole (pattern : Bytes) :
    (∃ tree groups stop, readPattern pattern = ⟨groups, .ok tree⟩ ∧
      Runs pattern (Descent.whole pattern) ⟨0, 0, none⟩
        (some tree.construct, ⟨stop, groups, none⟩)) ∨
    ∃ error groups stop, readPattern pattern = ⟨groups, .error error⟩ ∧ error.PointsAt pattern ∧
      Runs pattern (Descent.whole pattern) ⟨0, 0, none⟩ (none, ⟨stop, groups, some error⟩) := by
  by_cases hempty : pattern = []
  · subst hempty
    refine .inr ⟨_, _, 0, rfl, ⟨Nat.le_refl _, rfl⟩, ?_⟩
    exact .refuse rfl .emptyPattern 0
  · rw [readPattern_eq_conclude hempty]
    rcases alongside_whole hempty with
      ⟨_, next, stop, -, -, hrun, hsame, tree, rfl, htree, hopenings, rfl⟩ |
      ⟨refusal, stop, hpoints, hrun, hrefused⟩
    · have hfinish : next.finish pattern.length = .ok tree :=
        Reader.finish_eq_ok_iff.mpr ⟨htree, hopenings⟩
      rw [Reader.conclude_end List.drop_length, hfinish] at hsame
      exact .inl ⟨tree, next.groups, _, by rw [hsame]; rfl, hrun⟩
    · exact .inr ⟨refusal.error, refusal.groups, stop, by rw [hrefused], hpoints, hrun⟩

/-- What a whole descent runs to is what reading by descent returns. -/
theorem Runs.descend {pattern : Bytes} {outcome : Option Construct × Standing}
    (h : Runs pattern (Descent.whole pattern) ⟨0, 0, none⟩ outcome) :
    ∃ trace, descend pattern = some (outcome, trace) ∧ Sound pattern outcome.2 trace :=
  h [] (.start pattern)

/-- Reading by descent always returns. On the way it looks only at bytes of the pattern, the cursor
never goes back and never gets behind the end of the pattern, and every round of a loop advances it.
The descent has a construct just if there is no reason to fail, and comes to the construct of the
tree or to the reason that reading the pattern from left to right comes to. -/
theorem descend_safe (pattern : Bytes) :
    ∃ (root : Option Tree) (here : Standing) (trace : List Event),
      descend pattern = some ((root.map Tree.construct, here), trace) ∧
      (∀ index, .look index ∈ trace → index < pattern.length) ∧
      (∀ start stop, .move start stop ∈ trace → start ≤ stop ∧ stop ≤ pattern.length) ∧
      (∀ start stop, .round start stop ∈ trace → start < stop) ∧
      Event.Connected trace ∧ here.cursor = Event.cursorAfter trace ∧
      (readPattern pattern).groups = here.groups ∧
      (∀ tree, (readPattern pattern).result = .ok tree ↔ root = some tree) ∧
      ∀ error, (readPattern pattern).result = .error error ↔ here.failure = some error := by
  rcases runs_whole pattern with
    ⟨tree, groups, stop, hread, hrun⟩ | ⟨error, groups, stop, hread, -, hrun⟩
  · obtain ⟨trace, hdescend, hsound⟩ := hrun.descend
    refine ⟨some tree, _, trace, hdescend, fun index hmem => hsound.safe _ hmem,
      fun start stop hmem => hsound.safe _ hmem, fun start stop hmem => hsound.safe _ hmem,
      hsound.connected, hsound.cursor, by rw [hread], ?_, ?_⟩
    · simp only [hread, Except.ok.injEq, Option.some.injEq, implies_true]
    · simp only [hread, reduceCtorEq, implies_true]
  · obtain ⟨trace, hdescend, hsound⟩ := hrun.descend
    refine ⟨none, _, trace, hdescend, fun index hmem => hsound.safe _ hmem,
      fun start stop hmem => hsound.safe _ hmem, fun start stop hmem => hsound.safe _ hmem,
      hsound.connected, hsound.cursor, by rw [hread], ?_, ?_⟩
    · simp only [hread, reduceCtorEq, implies_true]
    · simp only [hread, Except.error.injEq, Option.some.injEq, implies_true]

end RegexSearch
