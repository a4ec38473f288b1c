import Mathlib.Data.List.DropRight
import RegexSearch.Proofs.Enumeration

/-!
Scans that are asked for matches one by one and begun again in between. What a scan reports does not
depend on when it is asked: there is one sequence of results, the matches in order, a timeout behind
them if an attempt that is due times out, and nothing from there on; each call gives the next result
of the sequence, and beginning again leads back to the first one. The position moves forward until
then, beyond the beginning of each match that is reported, and stays in the text.
-/

namespace RegexSearch

namespace Scan

/-- What can be asked of a scan. -/
inductive Request where
  | next
  | reset
  deriving DecidableEq, Repr

/-- The scan after a request. -/
def after (search : Search) (scan : Scan) : Request → Scan
  | .next => (scan.next search).2
  | .reset => scan.reset

/-- A scan of which all this has been asked, one after the other, since it was made. -/
def afterAll (search : Search) (requests : List Request) : Scan :=
  requests.foldl (after search) start

/-- How many matches have been asked for since the scan was made or begun again. -/
def callsSinceReset (requests : List Request) : Nat :=
  (requests.rtakeWhile (· == .next)).length

theorem callsSinceReset_concat_next (requests : List Request) :
    callsSinceReset (requests ++ [.next]) = callsSinceReset requests + 1 := by
  simp [callsSinceReset]

theorem callsSinceReset_concat_reset (requests : List Request) :
    callsSinceReset (requests ++ [.reset]) = 0 := by
  simp [callsSinceReset]

/-- The course of a scan: the matches it finds, and whether it meets an attempt behind them that
reaches its limit. -/
structure Course where
  found : List Match
  cutOff : Bool
  deriving DecidableEq, Repr

namespace Course

/-- The result of each call, counted from zero. -/
def result (course : Course) (call : Nat) : Except Error (Option Match) :=
  match course.found[call]? with
  | some found => .ok (some found)
  | none => if course.cutOff && call == course.found.length then .error .timeout else .ok none

/-- All matches of the course, unless it is cut off. -/
def all (course : Course) : Except Error (List Match) :=
  if course.cutOff then .error .timeout else .ok course.found

@[simp] theorem result_cons_zero (first : Match) (rest : List Match) (cutOff : Bool) :
    (mk (first :: rest) cutOff).result 0 = .ok (some first) := rfl

@[simp] theorem result_cons_succ (first : Match) (rest : List Match) (cutOff : Bool) (call : Nat) :
    (mk (first :: rest) cutOff).result (call + 1) = (mk rest cutOff).result call := by
  simp [result]

theorem all_cons (first : Match) (rest : List Match) (cutOff : Bool) :
    (mk (first :: rest) cutOff).all = (mk rest cutOff).all.map (first :: ·) := by
  cases cutOff <;> rfl

end Course

open Search

variable {search : Search} {scan : Scan} {course : Course} {position bound : Nat}

/-- The course is that of a search from an offset on: its matches are enumerated, and behind them no
attempt succeeds before the offset `bound`, or the first one that does not fail times out. -/
def Course.Of (search : Search) (position bound : Nat) (course : Course) : Prop :=
  ∃ behind, search.Enumerates position course.found behind ∧
    (course.cutOff = false → search.Barren behind bound) ∧
    (course.cutOff = true → ∃ offset, behind ≤ offset ∧ offset < bound ∧
      search.Barren behind offset ∧ search.attemptAt offset = .error .timeout)

theorem Course.Of.cons {first : Match} {rest : List Match} {cutOff : Bool}
    (hfirst : search.FirstFrom position first)
    (h : Course.Of search first.resumption bound ⟨rest, cutOff⟩) :
    Course.Of search position bound ⟨first :: rest, cutOff⟩ := by
  obtain ⟨behind, hothers, hend⟩ := h
  exact ⟨behind, .more hfirst hothers, hend⟩

/-! ### One sequence of results -/

/-- The scan after so many calls. -/
def afterCalls (search : Search) : (calls : Nat) → Scan → Scan
  | 0, scan => scan
  | calls + 1, scan => afterCalls search calls (scan.next search).2

theorem afterCalls_succ (calls : Nat) (scan : Scan) :
    afterCalls search (calls + 1) scan = ((afterCalls search calls scan).next search).2 := by
  induction calls generalizing scan with
  | zero => rfl
  | succ calls ih => exact ih (scan.next search).2

/-- A scan that has ended reports nothing any more. -/
theorem next_of_finished (h : scan.finished = true) : scan.next search = (.ok none, scan) := by
  rw [next, if_pos h]

theorem afterCalls_of_finished (h : scan.finished = true) (calls : Nat) :
    afterCalls search calls scan = scan := by
  induction calls with
  | zero => rfl
  | succ calls ih => rw [afterCalls, next_of_finished h, ih]

/-- The scan reports what the course says, call by call, and lists what the course lists if it is
asked for more matches than there are offsets left. -/
structure Follows (search : Search) (scan : Scan) (course : Course) : Prop where
  results : ∀ calls, ((afterCalls search calls scan).next search).1 = course.result calls
  taken : ∀ count, last search - scan.position < count → take search count scan = course.all

namespace Follows

/-- A scan that reports nothing, or a timeout, has ended by that. -/
theorem of_ended {rest : Scan} (hfinished : rest.finished = true)
    (hnext : scan.next search = (course.result 0, rest)) (hfound : course.found = []) :
    Follows search scan course := by
  obtain ⟨found, cutOff⟩ := course
  obtain rfl : found = [] := hfound
  constructor
  · intro calls
    cases calls with
    | zero => rw [afterCalls, hnext]
    | succ calls =>
        rw [afterCalls, hnext, afterCalls_of_finished hfinished, next_of_finished hfinished]
        simp [Course.result]
  · intro count hcount
    obtain ⟨fewer, rfl⟩ := Nat.exists_eq_succ_of_ne_zero (Nat.ne_zero_of_lt hcount)
    rw [take, hnext]
    cases cutOff <;> rfl

/-- A match is reported in front of what the scan reports from there on. -/
theorem cons {first : Match} {found : List Match} {cutOff : Bool} {rest : Scan}
    (hnext : scan.next search = (.ok (some first), rest))
    (hless : last search - rest.position < last search - scan.position)
    (h : Follows search rest ⟨found, cutOff⟩) : Follows search scan ⟨first :: found, cutOff⟩ := by
  constructor
  · intro calls
    cases calls with
    | zero => rw [afterCalls, hnext, Course.result_cons_zero]
    | succ calls => rw [afterCalls, hnext, h.results, Course.result_cons_succ]
  · intro count hcount
    obtain ⟨fewer, rfl⟩ := Nat.exists_eq_succ_of_ne_zero (Nat.ne_zero_of_lt hcount)
    have hrest : take search fewer rest = (Course.mk found cutOff).all := h.taken fewer (by omega)
    rw [take, hnext]
    dsimp only
    rw [hrest, Course.all_cons]

end Follows

/-- Every scan that has not ended follows the course of the search from its position on. -/
theorem exists_course (hcoherent : search.Coherent) (position : Nat) :
    ∃ course, Course.Of search position (last search) course ∧
      Follows search ⟨position, false⟩ course := by
  induction hleft : last search - position using Nat.strong_induction_on generalizing position with
  | h left ih =>
      have hsize := last_le_size search
      have hcount : last search - position ≤ search.text.size - position := by omega
      have hnext : next search ⟨position, false⟩ =
          tryFrom search (last search - position) position := rfl
      rcases tryFrom_cases hcoherent hcount with ⟨first, hfound, hfirst, hlt⟩ |
        ⟨hnone, hbarren⟩ | ⟨offset, error, herror, hle, hlt, hbarren, hcut⟩
      · rw [hfound] at hnext
        have hle := hfirst.position_le
        have hresume := hfirst.lt_resumption hcoherent
        have hless : last search - first.resumption < last search - position := by omega
        obtain ⟨⟨found, cutOff⟩, hof, hfollows⟩ := ih _ (hleft ▸ hless) first.resumption rfl
        exact ⟨⟨first :: found, cutOff⟩, .cons hfirst hof, .cons hnext hless hfollows⟩
      · rw [hnone] at hnext
        refine ⟨⟨[], false⟩, ⟨position, .done position, ?_, ?_⟩, .of_ended rfl hnext rfl⟩
        · intro _ offset hle hlt
          exact hbarren offset hle (by omega)
        · intro hcut
          cases hcut
      · rw [herror, eq_timeout_of_attempt hcut] at hnext
        refine ⟨⟨[], true⟩, ⟨position, .done position, ?_, ?_⟩, .of_ended rfl hnext rfl⟩
        · intro hfull
          cases hfull
        · intro _
          rw [eq_timeout_of_attempt hcut] at hcut
          exact ⟨offset, hle, by omega, hbarren, hcut⟩

/-! ### Beginning again -/

/-- Whatever has been asked of a scan, it is where the calls since it was begun again have led. -/
theorem afterAll_eq (requests : List Request) :
    afterAll search requests = afterCalls search (callsSinceReset requests) start := by
  induction requests using List.reverseRecOn with
  | nil => rfl
  | append_singleton requests request ih =>
      have hafter : afterAll search (requests ++ [request]) =
          after search (afterAll search requests) request := List.foldl_concat ..
      rw [hafter, ih]
      cases request with
      | next =>
          rw [callsSinceReset_concat_next, afterCalls_succ]
          rfl
      | reset =>
          rw [callsSinceReset_concat_reset]
          rfl

/-! ### Positions -/

/-- A call reports a match and goes on behind it, or reports none and stops further on, before the
last offset. -/
theorem next_cases (hcoherent : search.Coherent) (scan : Scan) :
    (∃ found, scan.next search = (.ok (some found), ⟨found.resumption, false⟩) ∧
      search.FirstFrom scan.position found) ∨
    ∃ result rest, scan.next search = (result, rest) ∧ (∀ found, result ≠ .ok (some found)) ∧
      scan.position ≤ rest.position ∧ rest.position ≤ max scan.position (last search) := by
  have hsize := last_le_size search
  have hcount : last search - scan.position ≤ search.text.size - scan.position := by omega
  cases hfinished : scan.finished with
  | true =>
      exact .inr ⟨_, _, next_of_finished hfinished, nofun, Nat.le_refl _, Nat.le_max_left _ _⟩
  | false =>
      have hnext : scan.next search =
          tryFrom search (last search - scan.position) scan.position := by
        rw [next, hfinished]
        rfl
      rw [hnext]
      rcases tryFrom_cases hcoherent hcount with ⟨found, hfound, hfirst, -⟩ | ⟨hnone, -⟩ |
        ⟨offset, error, herror, hle, hlt, -⟩
      · exact .inl ⟨found, hfound, hfirst⟩
      · exact .inr ⟨_, _, hnone, nofun, Nat.le_add_right _ _, by dsimp only; omega⟩
      · exact .inr ⟨_, _, herror, nofun, hle, by dsimp only; omega⟩

/-- The position moves forward, and strictly so with every match. -/
theorem position_le_next (hcoherent : search.Coherent) (scan : Scan) :
    scan.position ≤ (scan.next search).2.position ∧
      ∀ found, (scan.next search).1 = .ok (some found) →
        scan.position < (scan.next search).2.position := by
  rcases next_cases hcoherent scan with ⟨found, hnext, hfirst⟩ |
    ⟨result, rest, hnext, hnone, hle, -⟩
  · have hlt : scan.position < found.resumption :=
      Nat.lt_of_le_of_lt hfirst.position_le (hfirst.lt_resumption hcoherent)
    rw [hnext]
    exact ⟨hlt.le, fun _ _ => hlt⟩
  · rw [hnext]
    exact ⟨hle, fun found hfound => absurd hfound (hnone found)⟩

theorem position_le_afterCalls (hcoherent : search.Coherent) (calls : Nat) (scan : Scan) :
    scan.position ≤ (afterCalls search calls scan).position := by
  induction calls with
  | zero => exact Nat.le_refl _
  | succ calls ih =>
      rw [afterCalls_succ]
      exact Nat.le_trans ih (position_le_next hcoherent _).1

/-- A scan of a compiled program goes on inside the text, for an empty match does not begin at its
end. -/
theorem position_next_le_size (h : search.FromTree) (hscan : scan.position ≤ search.text.size) :
    (scan.next search).2.position ≤ search.text.size := by
  rcases next_cases h.coherent scan with ⟨found, hnext, hfirst⟩ | ⟨result, rest, hnext, -, -, hle⟩
  · rw [hnext]
    have hstart := hfirst.start_lt
    obtain ⟨out, groups, -, hwithin, hfound⟩ := h.exists_outcome hstart.le hfirst.attempted
    have hstop : found.span.stop ≤ search.text.size := by
      rw [hfound]
      exact hwithin.offset
    dsimp only
    unfold Match.resumption
    split
    · rename_i hempty
      have hsame : found.span.start = found.span.stop := by simpa [Match.isEmpty] using hempty
      omega
    · exact hstop
  · have hlast := last_le_size search
    rw [hnext]
    dsimp only
    omega

theorem position_afterCalls_le_size (h : search.FromTree) (calls : Nat) :
    (afterCalls search calls start).position ≤ search.text.size := by
  induction calls with
  | zero => exact Nat.zero_le _
  | succ calls ih =>
      rw [afterCalls_succ]
      exact position_next_le_size h ih

theorem afterAll_append_replicate (requests : List Request) (calls : Nat) :
    afterAll search (requests ++ List.replicate calls .next) =
      afterCalls search calls (afterAll search requests) := by
  induction calls generalizing requests with
  | zero => simp [afterCalls]
  | succ calls ih =>
      have hsplit : requests ++ List.replicate (calls + 1) .next =
          (requests ++ [.next]) ++ List.replicate calls .next := by
        simp [List.replicate_succ]
      rw [hsplit, ih]
      simp [afterAll, afterCalls, after]

end Scan

/-- A scan is a restartable view of one enumeration. A compiled program, a text and a limit have one
course: the matches that the search enumerates, cut off behind them if an attempt that is due times
out. Whatever has been asked of a scan, a call gives the result of the course that is next since the
scan was made or begun again, and listing all matches gives those of the course, or the error if it
is cut off. The position is zero when the scan is begun again, does not go back until then, goes on
with every match, and never leaves the text. -/
theorem scan_follows_one_course {maxUnroll : Nat} {pattern : Bytes} {program : Program}
    (hcompile : (compilePattern maxUnroll pattern).program = .ok program) (text : Text)
    (limit : StepLimit) :
    let search : Search := ⟨program, text, limit⟩
    (∃ course, Scan.Course.Of search 0 text.size course ∧
      (∀ requests, ((Scan.afterAll search requests).next search).1 =
        course.result (Scan.callsSinceReset requests)) ∧
      search.findAll = course.all) ∧
    ∀ requests,
      let scan := Scan.afterAll search requests
      (Scan.afterAll search (requests ++ [.reset])).position = 0 ∧
      (∀ calls, scan.position ≤
        (Scan.afterAll search (requests ++ List.replicate calls .next)).position) ∧
      (∀ found, (scan.next search).1 = .ok (some found) →
        scan.position < (scan.next search).2.position) ∧
      scan.position ≤ text.size := by
  intro search
  have hsearch : search.FromTree := .of_compilePattern hcompile text limit
  have hlast : Scan.last search ≤ search.text.size := Scan.last_le_size search
  constructor
  · obtain ⟨course, hof, hfollows⟩ := Scan.exists_course hsearch.coherent 0
    obtain ⟨behind, henumerates, hfull, hcut⟩ := hof
    refine ⟨course, ⟨behind, henumerates, ?_, ?_⟩, ?_, ?_⟩
    · exact fun hnot => hsearch.barren_of_last henumerates (hfull hnot)
    · intro hcutOff
      obtain ⟨offset, hle, hlt, hbarren, htimeout⟩ := hcut hcutOff
      exact ⟨offset, hle, Nat.lt_of_lt_of_le hlt hlast, hbarren, htimeout⟩
    · intro requests
      rw [Scan.afterAll_eq]
      exact hfollows.results _
    · exact hfollows.taken _ (Nat.lt_succ_of_le hlast)
  · intro requests scan
    refine ⟨by simp [Scan.afterAll, Scan.after, Scan.reset], ?_, ?_, ?_⟩
    · intro calls
      rw [Scan.afterAll_append_replicate]
      exact Scan.position_le_afterCalls hsearch.coherent calls scan
    · exact (Scan.position_le_next hsearch.coherent scan).2
    · have hposition := Scan.position_afterCalls_le_size hsearch (Scan.callsSinceReset requests)
      rwa [← Scan.afterAll_eq] at hposition

/-- In `baa` the pattern `a*` matches the empty text first, and with nine steps for each attempt the
next one is cut off. A scan that is begun again after that reports the same. -/
theorem scan_follows_one_course_of_late_timeout :
    let program := Program.ofTree (.rep (.atom 0 (.byte 97)) ⟨0, none, true⟩) 0
    let search : Search := ⟨program, #[98, 97, 97], .atMost 9⟩
    let results (requests : List Scan.Request) := ((Scan.afterAll search requests).next search).1
    (compilePattern 2000 (ascii "a*")).program = .ok program ∧
      results [] = .ok (some ⟨⟨0, 0⟩, [some ⟨0, 0⟩]⟩) ∧
      results [.next, .next, .next, .reset, .next] = .error .timeout ∧
      results [.reset, .next, .next] = .ok none ∧
      (Scan.afterAll search [.next, .reset]).position = 0 ∧
      (Scan.afterAll search []).position < (Scan.afterAll search [.next]).position := by
  intro program search results
  have hcompile : (compilePattern 2000 (ascii "a*")).program = .ok program := rfl
  obtain ⟨⟨course, -, hresults, -⟩, hpositions⟩ :=
    scan_follows_one_course hcompile #[98, 97, 97] (.atMost 9)
  have hfirst : results [] = .ok (some ⟨⟨0, 0⟩, [some ⟨0, 0⟩]⟩) := by decide +kernel
  have hsecond : results [.next] = .error .timeout := by decide +kernel
  have hthird : results [.next, .next] = .ok none := by decide +kernel
  obtain ⟨-, -, hforward, -⟩ := hpositions []
  refine ⟨hcompile, hfirst, ?_, ?_, (hpositions [.next]).1, hforward _ hfirst⟩
  · exact (hresults [.next, .next, .next, .reset, .next]).trans
      ((hresults [.next]).symm.trans hsecond)
  · exact (hresults [.reset, .next, .next]).trans ((hresults [.next, .next]).symm.trans hthird)

end RegexSearch
