import RegexSearch.Proofs.Engine.Agreement
import RegexSearch.Proofs.Program.Framed

/-!
Matching the whole text and matching a prefix of it. An attempt with an anchored end goes through
the same states as one without until that one accepts. So where there is no match it takes the same
steps to find none, a match that ends with the text is found by both alike, and a match of the whole
text is not found earlier than some match from the same offset, which may be a shorter one. A scan
tries the beginning of the text first, unless the text is empty; hence a text that is matched as a
whole is one that contains a match.
-/

namespace RegexSearch

namespace Machine

variable {machine : Machine}

theorem run_whole_of_run (hprogram : machine.program.Framed) {steps left start : Nat}
    {answer : Option Match}
    (hrun : machine.run steps (machine.initial start) = .halted answer left)
    (hanswer : ∀ found, answer = some found → found.span.stop = machine.text.size) :
    machine.anchored.run steps (machine.anchored.initial start) = .halted answer left := by
  have hstop {thread : Thread} (hthread : thread.Framed machine.program start)
      (haccept : machine.branches thread = none) : thread.toMatch.span.stop = thread.offset := by
    rw [span_of_framed hprogram hthread haccept]
  exact run_anchored_of_run (inherited_framed hprogram start) hstop
    (framed_start hprogram start) hanswer hrun

theorem exists_run_of_whole (hprogram : machine.program.Framed) {steps left start : Nat}
    {found : Match}
    (hrun : machine.anchored.run steps (machine.anchored.initial start) =
      .halted (some found) left) :
    ∃ first more, left ≤ more ∧ machine.run steps (machine.initial start) =
      .halted (some first) more ∧ first.span.stop ≤ found.span.stop := by
  obtain ⟨first, more, hmore, hfirst⟩ := exists_run_of_anchored hrun
  refine ⟨first, more, hmore, hfirst, ?_⟩
  have hwhole : machine.anchored.program.Framed := hprogram
  obtain ⟨last, hlast, haccept, rfl⟩ :=
    (inherited_framed hwhole start).exists_accepting (framed_start hwhole start) hrun
  have hend : last.offset = machine.text.size := (accept_of_branches haccept).2 rfl
  have hstart : start ≤ machine.text.size := hend ▸ hlast.offset
  have hinside : ∀ thread ∈ (machine.initial start).threads,
      thread.Framed machine.program start ∧ thread.Inside machine :=
    List.forall_mem_singleton.mpr
      ⟨framed_start hprogram start _ List.mem_cons_self, start_inside hstart⟩
  obtain ⟨earlier, ⟨hearlier, hoffset⟩, hearlierAccept, rfl⟩ :=
    ((inherited_framed hprogram start).and inherited_inside).exists_accepting hinside hfirst
  rw [span_of_framed hwhole hlast haccept, span_of_framed hprogram hearlier hearlierAccept]
  exact Nat.le_trans hoffset.offset hend.ge

end Machine

/-- A match from the beginning of a text that is not empty is the first one that a scan finds. -/
theorem Search.findFirst_of_attempt {search : Search} (hsize : 0 < search.text.size)
    {first : Match}
    (h : attempt search.program search.text search.limit false 0 = .ok (some first)) :
    search.findFirst = .ok (some first) := by
  have hlast : 0 < Scan.last search := by
    unfold Scan.last
    split
    · exact Nat.lt_min.mpr ⟨Nat.one_pos, hsize⟩
    · exact hsize
  obtain ⟨count, hcount⟩ := Nat.exists_eq_succ_of_ne_zero hlast.ne'
  have htry : (Scan.tryFrom search (count + 1) 0).1 = .ok (some first) := by
    simp only [Scan.tryFrom, h]
  simpa [findFirst, Scan.next, Scan.start, hcount] using htry

section Attempts

variable {program : Program} {text : Text} {start : Nat}

/-- Matching the whole text under a limit, compared with matching a prefix. -/
theorem attempt_whole (hprogram : program.Framed) (limit : StepLimit) :
    (attempt program text limit false start = .ok none →
      attempt program text limit true start = .ok none) ∧
    (∀ found, attempt program text limit false start = .ok (some found) →
      found.span.stop = text.size →
      attempt program text limit true start = .ok (some found)) ∧
    ∀ found, attempt program text limit true start = .ok (some found) →
      ∃ first, attempt program text limit false start = .ok (some first) ∧
        first.span.stop ≤ found.span.stop := by
  simp only [attempt, Machine.answer_eq_ok_iff]
  let machine : Machine := ⟨program, text, false⟩
  have hmachine : machine.program.Framed := hprogram
  refine ⟨?_, ?_, ?_⟩
  · rintro ⟨left, hrun⟩
    exact ⟨left, Machine.run_whole_of_run hmachine hrun (by simp)⟩
  · rintro found ⟨left, hrun⟩ hstop
    refine ⟨left, Machine.run_whole_of_run hmachine hrun ?_⟩
    rintro _ ⟨⟩
    exact hstop
  · rintro found ⟨left, hrun⟩
    obtain ⟨first, more, -, hfirst, hle⟩ := Machine.exists_run_of_whole hmachine hrun
    exact ⟨first, ⟨more, hfirst⟩, hle⟩

/-- The same comparison for the number of steps that an attempt takes. -/
theorem stepsWithin?_whole (hprogram : program.Framed) (bound steps : Nat) :
    (stepsWithin? bound program text false start = some (steps, none) →
      stepsWithin? bound program text true start = some (steps, none)) ∧
    (∀ found, stepsWithin? bound program text false start = some (steps, some found) →
      found.span.stop = text.size →
      stepsWithin? bound program text true start = some (steps, some found)) ∧
    ∀ found, stepsWithin? bound program text true start = some (steps, some found) →
      ∃ fewer first, fewer ≤ steps ∧
        stepsWithin? bound program text false start = some (fewer, some first) ∧
        first.span.stop ≤ found.span.stop := by
  simp only [stepsWithin?_eq_some_iff]
  let machine : Machine := ⟨program, text, false⟩
  have hmachine : machine.program.Framed := hprogram
  refine ⟨?_, ?_, ?_⟩
  · rintro ⟨left, hrun, hsteps⟩
    exact ⟨left, Machine.run_whole_of_run hmachine hrun (by simp), hsteps⟩
  · rintro found ⟨left, hrun, hsteps⟩ hstop
    refine ⟨left, Machine.run_whole_of_run hmachine hrun ?_, hsteps⟩
    rintro _ ⟨⟩
    exact hstop
  · rintro found ⟨left, hrun, rfl⟩
    obtain ⟨first, more, hmore, hfirst, hle⟩ := Machine.exists_run_of_whole hmachine hrun
    exact ⟨bound - more, first, Nat.sub_le_sub_left hmore bound, ⟨more, hfirst, rfl⟩, hle⟩

end Attempts

/-- Matching the whole text refines matching a prefix of it, under every limit. If an attempt finds
no prefix, it does not find the whole text either, after as many steps; a prefix that is the whole
rest of the text is found as such, after as many steps; and if the whole rest is found, then a
prefix of it is, after no more steps. So a text that is not empty and is matched as a whole by an
operation of the engine contains a match, whatever the engine has been used for before. -/
theorem whole_text_refines_prefix (pattern : Bytes) (text : Text) :
    (∀ maxUnroll program, (compilePattern maxUnroll pattern).program = .ok program → ∀ start,
      (∀ limit,
        (attempt program text limit false start = .ok none →
          attempt program text limit true start = .ok none) ∧
        (∀ found, attempt program text limit false start = .ok (some found) →
          found.span.stop = text.size →
          attempt program text limit true start = .ok (some found)) ∧
        ∀ found, attempt program text limit true start = .ok (some found) →
          ∃ first, attempt program text limit false start = .ok (some first) ∧
            first.span.stop ≤ found.span.stop) ∧
      ∀ bound steps,
        (stepsWithin? bound program text false start = some (steps, none) →
          stepsWithin? bound program text true start = some (steps, none)) ∧
        (∀ found, stepsWithin? bound program text false start = some (steps, some found) →
          found.span.stop = text.size →
          stepsWithin? bound program text true start = some (steps, some found)) ∧
        ∀ found, stepsWithin? bound program text true start = some (steps, some found) →
          ∃ fewer first, fewer ≤ steps ∧
            stepsWithin? bound program text false start = some (fewer, some first) ∧
            first.span.stop ≤ found.span.stop) ∧
    (0 < text.size → ∀ options (before : Call → List Call),
      let answer (call : Call) : Answer :=
        (((Engine.new options).performAll (before call)).2.perform call).1
      ∀ captures, answer (.matchText pattern text) = .captures (.ok captures) → captures ≠ [] →
        answer (.contains pattern text) = .verdict (.ok true)) := by
  constructor
  · intro maxUnroll program hcompile start
    have hprogram := framed_of_compilePattern hcompile
    exact ⟨attempt_whole hprogram, stepsWithin?_whole hprogram⟩
  · intro hsize options before answer captures hmatch hsome
    have hanswer (call : Call) :
        answer call = call.answer options.limit (Engine.compiled options call.pattern) :=
      Engine.perform_performAll options (before call) call
    simp only [hanswer, Call.pattern, Call.answer] at hmatch ⊢
    cases hcompiled : Engine.compiled options pattern with
    | error error =>
        rw [hcompiled] at hmatch
        cases hmatch
    | ok program =>
        rw [hcompiled] at hmatch
        let search : Search := ⟨program, text, options.limit⟩
        have hcaptures : search.wholeTextCaptures = .ok captures := Answer.captures.inj hmatch
        cases hwhole : attempt program text options.limit true 0 with
        | error error =>
            simp [search, Search.wholeTextCaptures, Search.matchWhole, hwhole, Except.map]
              at hcaptures
        | ok reached =>
            simp only [search, Search.wholeTextCaptures, Search.matchWhole, hwhole, Except.map,
              Except.ok.injEq] at hcaptures
            cases reached with
            | none => exact absurd hcaptures.symm hsome
            | some found =>
                obtain ⟨-, -, hprefix⟩ :=
                  attempt_whole (framed_of_compilePattern hcompiled) options.limit
                obtain ⟨first, hfirst, -⟩ := hprefix found hwhole
                have hfound : search.findFirst = .ok (some first) :=
                  Search.findFirst_of_attempt hsize hfirst
                exact congrArg Answer.verdict (Search.first_of_findFirst hfound).2

/-- With `a|ab` the text `ab` is matched as a whole after eleven steps, where the shorter prefix `a`
is found after six; on the text `b` both attempts fail after five steps. -/
theorem whole_text_refines_prefix_of_shorter_alternative :
    let program := Program.ofTree
      (.alt (.atom 0 (.byte 97)) (.cat (.atom 2 (.byte 97)) (.atom 3 (.byte 98)))) 0
    let answer (call : Call) : Answer := ((Engine.new {}).perform call).1
    (∃ fewer first, fewer ≤ 11 ∧
      stepsWithin? 20 program #[97, 98] false 0 = some (fewer, some first) ∧
        first.span.stop ≤ 2) ∧
    stepsWithin? 20 program #[98] true 0 = some (5, none) ∧
    answer (.contains (ascii "a|ab") #[97, 98]) = .verdict (.ok true) := by
  intro program answer
  have hcompile : (compilePattern 2000 (ascii "a|ab")).program = .ok program := rfl
  have hwhole : stepsWithin? 20 program #[97, 98] true 0 =
      some (11, some ⟨⟨0, 2⟩, [some ⟨0, 2⟩]⟩) := by decide
  have hfails : stepsWithin? 20 program #[98] false 0 = some (5, none) := rfl
  have hmatch : answer (.matchText (ascii "a|ab") #[97, 98]) =
      .captures (.ok [some ⟨0, [97, 98]⟩]) := by decide +kernel
  obtain ⟨hattempts, hoperations⟩ := whole_text_refines_prefix (ascii "a|ab") #[97, 98]
  obtain ⟨hfailing, -⟩ := whole_text_refines_prefix (ascii "a|ab") #[98]
  refine ⟨?_, ?_, ?_⟩
  · exact ((hattempts 2000 program hcompile 0).2 20 11).2.2 _ hwhole
  · exact ((hfailing 2000 program hcompile 0).2 20 5).1 hfails
  · exact hoperations Nat.two_pos {} (fun _ => []) _ hmatch (List.cons_ne_nil _ _)

end RegexSearch
