import RegexSearch.Proofs.Program.Attempt
import RegexSearch.Scan

/-!
Every search ends. The search of the machine through the branches of a thread ends because the
outcomes of a pattern are finitely many and have been listed; so each attempt without a limit has
an answer. A scan goes on behind each match, so it comes to the end of the text.
-/

namespace RegexSearch

theorem lt_resumption {found : Match} (h : found.span.start ≤ found.span.stop) :
    found.span.start < found.resumption := by
  unfold Match.resumption
  split
  · omega
  · rename_i hempty
    have hne : found.span.start ≠ found.span.stop := by simpa [Match.isEmpty] using hempty
    omega

/-- Every attempt at an offset of the text has an answer, and a match begins where it has been
attempted. -/
def Search.Settled (search : Search) : Prop :=
  ∀ position, position ≤ search.text.size →
    ∃ answer, attempt search.program search.text search.limit false position = .ok answer ∧
      ∀ found, answer = some found →
        found.span.start = position ∧ position ≤ found.span.stop

namespace Scan

variable {search : Search}

theorem last_le_size (search : Search) : last search ≤ search.text.size := by
  unfold last
  split
  · exact Nat.min_le_right _ _
  · exact Nat.le_refl _

theorem exists_tryFrom (h : search.Settled) {count position : Nat}
    (hcount : position + count ≤ search.text.size) :
    ∃ answer rest, tryFrom search count position = (.ok answer, rest) ∧
      ∀ found, answer = some found → 0 < count ∧ position < rest.position := by
  induction count generalizing position with
  | zero =>
      refine ⟨none, ⟨position, true⟩, rfl, ?_⟩
      intro found hfound
      cases hfound
  | succ count ih =>
      obtain ⟨answer, hattempt, hfound⟩ := h position (by omega)
      cases answer with
      | some found =>
          obtain ⟨hstart, hstop⟩ := hfound found rfl
          have hresume : found.span.start < found.resumption := lt_resumption (by omega)
          refine ⟨some found, ⟨found.resumption, false⟩, by simp only [tryFrom, hattempt], ?_⟩
          intro _ _
          exact ⟨Nat.succ_pos count, by simpa [hstart] using hresume⟩
      | none =>
          obtain ⟨answer, rest, htry, hrest⟩ := @ih (position + 1) (by omega)
          refine ⟨answer, rest, by simp only [tryFrom, hattempt, htry], ?_⟩
          intro found hanswer
          have hbehind := (hrest found hanswer).2
          exact ⟨Nat.succ_pos count, by omega⟩

/-- The next match is found or there is none, and a match brings the scan closer to its end. -/
theorem exists_next (h : search.Settled) (scan : Scan) :
    ∃ answer rest, scan.next search = (.ok answer, rest) ∧
      ∀ found, answer = some found →
        last search - rest.position < last search - scan.position := by
  unfold next
  split
  · refine ⟨none, scan, rfl, ?_⟩
    intro found hfound
    cases hfound
  · by_cases hlast : last search ≤ scan.position
    · rw [Nat.sub_eq_zero_of_le hlast]
      refine ⟨none, ⟨scan.position, true⟩, rfl, ?_⟩
      intro found hfound
      cases hfound
    · have hsize := last_le_size search
      obtain ⟨answer, rest, htry, hrest⟩ :=
        @exists_tryFrom _ h (last search - scan.position) scan.position (by omega)
      refine ⟨answer, rest, htry, ?_⟩
      intro found hanswer
      have hbehind := hrest found hanswer
      omega

/-- A scan has an end: asking for more matches than there are offsets left gives no more. -/
theorem exists_take (h : search.Settled) (scan : Scan) :
    ∃ found, ∀ count, last search - scan.position < count →
      scan.take search count = .ok found := by
  induction hleft : last search - scan.position using Nat.strong_induction_on generalizing scan with
  | h left ih =>
      obtain ⟨answer, rest, hnext, hrest⟩ := exists_next h scan
      cases answer with
      | none =>
          refine ⟨[], ?_⟩
          intro count hcount
          cases count with
          | zero => omega
          | succ count => simp only [take, hnext]
      | some first =>
          have hless := hrest first rfl
          obtain ⟨found, hfound⟩ := ih _ (by omega) rest rfl
          refine ⟨first :: found, ?_⟩
          intro count hcount
          cases count with
          | zero => omega
          | succ count =>
              have hmore : rest.take search count = .ok found := hfound count (by omega)
              simp only [take, hnext, hmore]
              rfl

end Scan

theorem settled_ofTree {tree : Tree} {groups : Nat} (hgrouped : tree.Grouped groups) (text : Text) :
    Search.Settled ⟨Program.ofTree tree groups, text, .unlimited⟩ := by
  intro position hposition
  refine ⟨_, attempt_ofTree hgrouped false hposition, ?_⟩
  intro found hfound
  obtain ⟨out, hout, rfl⟩ := Option.map_eq_some_iff.mp hfound
  exact ⟨rfl, Tree.offset_le_of_mem_outcomes (List.mem_of_find?_eq_some hout)⟩

theorem exists_halted_ofTree {tree : Tree} {groups : Nat} (hgrouped : tree.Grouped groups)
    {text : Text} (anchoredEnd : Bool) {start : Nat} (hstart : start ≤ text.size) :
    let machine : Machine := ⟨Program.ofTree tree groups, text, anchoredEnd⟩
    ∃ steps answer left, machine.run steps (machine.initial start) = .halted answer left ∧
      attempt machine.program text .unlimited anchoredEnd start = .ok answer := by
  intro machine
  have hyields := Machine.yields_ofTree hgrouped anchoredEnd hstart
  have hhalts : ∃ steps left, machine.run steps (machine.initial start) = .halted _ left :=
    Machine.halts_iff_yields.mpr hyields
  obtain ⟨steps, left, hrun⟩ := hhalts
  exact ⟨steps, _, left, hrun, attempt_ofTree hgrouped anchoredEnd hstart⟩

/-- Without a limit, every attempt with a compiled program halts, and so does every scan: its next
match is found or there is none, and all of its matches are found, however many are asked for. -/
theorem attempt_and_scan_halt {maxUnroll : Nat} {pattern : Bytes} {tree : Tree}
    {program : Program} (hcompile : compilePattern maxUnroll pattern = ⟨some tree, .ok program⟩)
    (text : Text) :
    (∀ anchoredEnd start, start ≤ text.size →
      let machine : Machine := ⟨program, text, anchoredEnd⟩
      ∃ steps answer left, machine.run steps (machine.initial start) = .halted answer left ∧
        attempt program text .unlimited anchoredEnd start = .ok answer) ∧
    (∀ scan : Scan, ∃ answer rest, scan.next ⟨program, text, .unlimited⟩ = (.ok answer, rest)) ∧
    ∃ found, Search.findAll ⟨program, text, .unlimited⟩ = .ok found ∧
      ∀ count, text.size < count →
        Scan.start.take ⟨program, text, .unlimited⟩ count = .ok found := by
  obtain ⟨hprogram, hgrouped⟩ := ofTree_of_compilePattern hcompile
  rw [hprogram]
  have hsettled := settled_ofTree hgrouped text
  refine ⟨?_, ?_, ?_⟩
  · intro anchoredEnd start hstart
    exact exists_halted_ofTree hgrouped anchoredEnd hstart
  · intro scan
    obtain ⟨answer, rest, hnext, -⟩ := Scan.exists_next hsettled scan
    exact ⟨answer, rest, hnext⟩
  · obtain ⟨found, hfound⟩ := Scan.exists_take hsettled .start
    have htake (count : Nat) (hcount : text.size < count) :=
      hfound count (Nat.lt_of_le_of_lt (Nat.le_trans (Nat.sub_le _ _) (Scan.last_le_size _)) hcount)
    exact ⟨found, htake _ (Nat.lt_succ_self _), htake⟩

/-- The nested loops of `(?:a*)*` come to an end on the text `ab`. -/
theorem attempt_and_scan_halt_of_nested_loops :
    let tree := Tree.rep
      (.group 0 none (.rep (.atom 3 (.byte 97)) ⟨0, none, true⟩)) ⟨0, none, true⟩
    let program := Program.ofTree tree 0
    let machine : Machine := ⟨program, #[97, 98], true⟩
    compilePattern 2000 (ascii "(?:a*)*") = ⟨some tree, .ok program⟩ ∧
      (∃ steps answer left, machine.run steps (machine.initial 0) = .halted answer left) ∧
      ∃ found, Search.findAll ⟨program, #[97, 98], .unlimited⟩ = .ok found := by
  intro tree program machine
  have hcompile : compilePattern 2000 (ascii "(?:a*)*") = ⟨some tree, .ok program⟩ := rfl
  obtain ⟨hattempt, -, found, hfound, -⟩ := attempt_and_scan_halt hcompile #[97, 98]
  obtain ⟨steps, answer, left, hrun, -⟩ := hattempt true 0 (Nat.zero_le 2)
  exact ⟨hcompile, ⟨steps, answer, left, hrun⟩, found, hfound⟩

end RegexSearch
