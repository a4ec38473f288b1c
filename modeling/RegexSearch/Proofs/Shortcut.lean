import RegexSearch.Proofs.Enumeration

/-!
The short cut of anchored programs. A scan tries a program that begins with a test for the
beginning of the text at offset zero only. A scan that tries it at every offset gives the same
results, call by call. The attempts that the short cut leaves out fail with their second step; a
limit that does not allow so many has cut off the attempt at offset zero, and with it both scans.
-/

namespace RegexSearch

namespace Scan

/-- The next match, if one begins before the offset `bound`, whatever the program begins with. -/
def nextBefore (search : Search) (bound : Nat) (scan : Scan) :
    Except Error (Option Match) × Scan :=
  if scan.finished then (.ok none, scan)
  else tryFrom search (bound - scan.position) scan.position

open Search

variable {search : Search} {scan : Scan}

/-- A scan that is asked for more matches than there are offsets left gives all of them. -/
theorem take_eq_take (hcoherent : search.Coherent) {count count' : Nat}
    (hcount : last search - scan.position < count)
    (hcount' : last search - scan.position < count') :
    take search count scan = take search count' scan := by
  induction count generalizing scan count' with
  | zero => omega
  | succ count ih =>
      obtain ⟨more, rfl⟩ : ∃ more, count' = more + 1 := ⟨count' - 1, by omega⟩
      have hsize := last_le_size search
      have hleft : last search - scan.position ≤ search.text.size - scan.position := by omega
      simp only [take, next]
      cases scan.finished with
      | true => rfl
      | false =>
        rcases tryFrom_cases hcoherent hleft with ⟨found, hfound, hfirst, hlt⟩ | ⟨hnone, -⟩ |
          ⟨offset, error, herror, -⟩
        · have hle := hfirst.position_le
          have hresume := hfirst.lt_resumption hcoherent
          have hrest : take search count ⟨found.resumption, false⟩ =
              take search more ⟨found.resumption, false⟩ := by
            apply ih <;> dsimp only <;> omega
          simp [hfound, hrest]
        · simp [hnone]
        · simp [herror]

/-! ### Two scans side by side -/

/-- If two scans are related, and one call keeps them related and gives the same result on both,
then they give the same results, however many calls are made. -/
theorem results_eq_of_simulation {next next' : Scan → Except Error (Option Match) × Scan}
    {related : Scan → Scan → Prop}
    (hstep : ∀ scan scan', related scan scan' →
      (next scan).1 = (next' scan').1 ∧ related (next scan).2 (next' scan').2)
    (count : Nat) {scan scan' : Scan} (h : related scan scan') :
    results next count scan = results next' count scan' := by
  induction count generalizing scan scan' with
  | zero => rfl
  | succ count ih =>
      obtain ⟨hresult, hrest⟩ := hstep scan scan' h
      rw [results, results, hresult, ih hrest]

/-- A scan with nothing left to find: it has ended, or every attempt from here on fails. -/
def Spent (search : Search) (scan : Scan) : Prop :=
  scan.finished = true ∨ search.Barren scan.position search.text.size

theorem tryFrom_of_barren {count position : Nat}
    (h : search.Barren position (position + count)) :
    tryFrom search count position = (.ok none, ⟨position + count, true⟩) := by
  induction count generalizing position with
  | zero => rfl
  | succ count ih =>
      have hshift : position + 1 + count = position + (count + 1) := by omega
      have hfails : attempt search.program search.text search.limit false position = .ok none :=
        h position (Nat.le_refl _) (by omega)
      have hrest : search.Barren (position + 1) (position + 1 + count) := by
        intro offset hle hlt
        apply h <;> omega
      simp only [tryFrom, hfails, ih hrest, hshift]

theorem Spent.nextBefore (h : Spent search scan) {bound : Nat} (hbound : bound ≤ search.text.size) :
    (nextBefore search bound scan).1 = .ok none ∧
      Spent search (nextBefore search bound scan).2 := by
  unfold Scan.nextBefore
  split
  · exact ⟨rfl, h⟩
  · rename_i hfinished
    have hbarren := h.resolve_left hfinished
    have hfails : search.Barren scan.position
        (scan.position + (bound - scan.position)) := by
      intro offset hle hlt
      apply hbarren <;> omega
    rw [tryFrom_of_barren hfails]
    exact ⟨rfl, .inl rfl⟩

/-- If there is nothing to find behind the beginning, the first call gives what the attempt at the
beginning gives, whether it would go on behind that or not, and leaves nothing to be found. -/
theorem nextBefore_start (hcoherent : search.Coherent)
    (hbarren : ∀ answer, search.attemptAt 0 = .ok answer → search.Barren 1 search.text.size)
    {bound : Nat} (hpositive : 0 < bound) (hbound : bound ≤ search.text.size) :
    (nextBefore search bound start).1 = search.attemptAt 0 ∧
      Spent search (nextBefore search bound start).2 := by
  obtain ⟨count, rfl⟩ := Nat.exists_eq_succ_of_ne_zero hpositive.ne'
  have hcall : nextBefore search (count + 1) start = tryFrom search (count + 1) 0 := rfl
  rw [hcall, tryFrom]
  cases hattempt : attempt search.program search.text search.limit false 0 with
  | error error => exact ⟨hattempt.symm, .inl rfl⟩
  | ok answer =>
      have hrest : search.Barren 1 search.text.size := hbarren answer hattempt
      cases answer with
      | some found =>
          obtain ⟨hstart, hstop⟩ := hcoherent 0 found (by omega) hattempt
          have hresume : found.span.start < found.resumption := lt_resumption (by omega)
          refine ⟨hattempt.symm, .inr ?_⟩
          intro offset hle hlt
          apply hrest offset _ hlt
          dsimp only at hle
          omega
      | none =>
          have hfails : search.Barren 1 (1 + count) := by
            intro offset hle hlt
            apply hrest <;> omega
          dsimp only
          rw [tryFrom_of_barren hfails]
          exact ⟨hattempt.symm, .inl rfl⟩

/-- The scan of a program from a tree gives the results of a scan that tries every offset. -/
theorem results_next_eq (h : search.FromTree) (count : Nat) :
    results (next search) count start =
      results (nextBefore search search.text.size) count start := by
  have hnext : next search = nextBefore search (last search) := rfl
  rw [hnext]
  by_cases hsame : last search = search.text.size
  · rw [hsame]
  · have hanchored : search.program.anchoredAtBegin = true := by
      by_contra hnot
      simp [last, hnot] at hsame
    have hlast : last search = min 1 search.text.size := by simp [last, hanchored]
    have hbarren (answer : Option Match) (hattempt : search.attemptAt 0 = .ok answer) :
        search.Barren 1 search.text.size := h.barren_of_anchored hanchored hattempt
    -- Both scans are at the beginning, or neither has anything left to find.
    let related (scan scan' : Scan) : Prop :=
      (scan = start ∧ scan' = start) ∨ (Spent search scan ∧ Spent search scan')
    have hstep : ∀ scan scan', related scan scan' →
        (nextBefore search (last search) scan).1 =
            (nextBefore search search.text.size scan').1 ∧
          related (nextBefore search (last search) scan).2
            (nextBefore search search.text.size scan').2 := by
      rintro scan scan' (⟨rfl, rfl⟩ | ⟨hspent, hspent'⟩)
      · have hpositive : 0 < search.text.size := by omega
        obtain ⟨hresult, hspent⟩ :=
          nextBefore_start h.coherent hbarren (by omega) (last_le_size search)
        obtain ⟨hresult', hspent'⟩ :=
          nextBefore_start h.coherent hbarren hpositive (Nat.le_refl _)
        exact ⟨hresult.trans hresult'.symm, .inr ⟨hspent, hspent'⟩⟩
      · obtain ⟨hresult, hrest⟩ := hspent.nextBefore (last_le_size search)
        obtain ⟨hresult', hrest'⟩ := hspent'.nextBefore (Nat.le_refl search.text.size)
        exact ⟨hresult.trans hresult'.symm, .inr ⟨hrest, hrest'⟩⟩
    apply results_eq_of_simulation hstep
    exact .inl ⟨rfl, rfl⟩

end Scan

/-- Trying an anchored program at offset zero only changes nothing. Under any limit, the scan of a
compiled program gives, call by call, the results of a scan that tries every offset, and all
matches or the error are those that such a scan lists. -/
theorem scan_eq_scan_of_every_offset {maxUnroll : Nat} {pattern : Bytes} {program : Program}
    (hcompile : (compilePattern maxUnroll pattern).program = .ok program) (text : Text)
    (limit : StepLimit) :
    let search : Search := ⟨program, text, limit⟩
    (∀ count, Scan.results (Scan.next search) count .start =
      Scan.results (Scan.nextBefore search text.size) count .start) ∧
    ∀ count, text.size < count →
      search.findAll =
        Scan.listed (Scan.results (Scan.nextBefore search text.size) count .start) := by
  intro search
  have hsearch : search.FromTree := .of_compilePattern hcompile text limit
  have hresults (count : Nat) : Scan.results (Scan.next search) count .start =
      Scan.results (Scan.nextBefore search text.size) count .start :=
    Scan.results_next_eq hsearch count
  refine ⟨hresults, ?_⟩
  intro count hcount
  have hlast : Scan.last search ≤ text.size := Scan.last_le_size search
  rw [← hresults, ← Scan.take_eq_listed]
  apply Scan.take_eq_take hsearch.coherent
  · exact Nat.lt_succ_of_le hlast
  · exact Nat.lt_of_le_of_lt hlast hcount

/-- The test for the beginning of the text comes second in the programs of `(?:^a)+`, `(?:^a){2,3}`
and `x{0}^a` too: from the body of a loop, from a body that is written out, and behind one that is
left out. A limit of one step cuts off both scans. -/
theorem scan_eq_scan_of_every_offset_of_hidden_anchors :
    let body := Tree.group 0 none (.cat (.atom 3 (.anchor .textBegin)) (.atom 4 (.byte 97)))
    let compiled : List (Bytes × Tree) := [
      (ascii "(?:^a)+", .rep body ⟨1, none, true⟩),
      (ascii "(?:^a)" ++ (Bounds.between (ascii "2") (ascii "3")).word,
        .rep body ⟨2, some 3, true⟩),
      (ascii "x" ++ (Bounds.exactly (ascii "0")).word ++ ascii "^a",
        .cat (.rep (.atom 0 (.byte 120)) ⟨0, some 0, true⟩)
          (.cat (.atom 4 (.anchor .textBegin)) (.atom 5 (.byte 97))))]
    ∀ entry ∈ compiled,
      let program := Program.ofTree entry.2 0
      (compilePattern 2000 entry.1).program = .ok program ∧ program.anchoredAtBegin = true ∧
        (∀ limit count, Scan.results (Scan.next ⟨program, #[97, 97], limit⟩) count .start =
          Scan.results (Scan.nextBefore ⟨program, #[97, 97], limit⟩ 2) count .start) ∧
        Scan.listed (Scan.results (Scan.nextBefore ⟨program, #[97, 97], .atMost 1⟩ 2) 3 .start) =
          .error .timeout := by
  intro body compiled entry hentry
  have hscans {pattern : Bytes} {program : Program}
      (hcompile : (compilePattern 2000 pattern).program = .ok program) (limit : StepLimit) :=
    scan_eq_scan_of_every_offset hcompile #[97, 97] limit
  have hcompile : (compilePattern 2000 entry.1).program = .ok (.ofTree entry.2 0) := by
    revert entry
    decide +kernel
  have hanchored : (Program.ofTree entry.2 0).anchoredAtBegin = true := by
    revert entry
    decide +kernel
  have htimeout : Search.findAll ⟨.ofTree entry.2 0, #[97, 97], .atMost 1⟩ = .error .timeout := by
    revert entry
    decide +kernel
  have hlisted := (hscans hcompile (.atMost 1)).2 3 (by decide)
  exact ⟨hcompile, hanchored, fun limit => (hscans hcompile limit).1, hlisted.symm.trans htimeout⟩

end RegexSearch
