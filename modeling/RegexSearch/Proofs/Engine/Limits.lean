import RegexSearch.Proofs.Engine.Calls
import RegexSearch.Proofs.Machine.Limit
import RegexSearch.Proofs.Program.Compiled
import RegexSearch.Proofs.Scan

/-!
Calls under different limits. Every attempt of a call is given the same number of steps anew. As
long as no attempt is cut off, a larger limit leaves all of them as they are, and with them the scan
that they make up and whatever is computed from its matches.
-/

namespace RegexSearch

/-- Whether a result that was reached under a limit is also the second one, which was reached under
a larger limit. There is nothing to compare if the first one has used up its steps. -/
def Persists {α : Type} (first second : Except Error α) : Prop :=
  first = .error .timeout ∨ second = first

theorem Persists.map {α β : Type} {first second : Except Error α} (h : Persists first second)
    (use : α → β) : Persists (first.map use) (second.map use) := by
  rcases h with h | h
  · left
    rw [h]
    rfl
  · right
    rw [h]

theorem Persists.bind {α β : Type} {first second : α → Except Error β} (compiled : Except Error α)
    (h : ∀ program, Persists (first program) (second program)) :
    Persists (compiled.bind first) (compiled.bind second) := by
  cases compiled with
  | error error => exact .inr rfl
  | ok program => exact h program

theorem attempt_persists {program : Program} {text : Text} {anchoredEnd : Bool} {start : Nat}
    {first second : StepLimit} (hle : first ≤ second) (hstart : start ≤ text.size) :
    Persists (attempt program text first anchoredEnd start)
      (attempt program text second anchoredEnd start) := by
  cases hattempt : attempt program text first anchoredEnd start with
  | error error =>
      left
      rw [eq_timeout_of_attempt hattempt]
  | ok answer =>
      right
      exact attempt_mono hle hstart hattempt

/-! ### Scans -/

section Scans

variable {program : Program} {text : Text} {first second : StepLimit}

/-- A scan does the same under a larger limit, unless one of its attempts is cut off. -/
theorem Scan.tryFrom_persists (hle : first ≤ second) {count position : Nat}
    (hcount : count ≤ text.size - position) :
    (tryFrom ⟨program, text, first⟩ count position).1 = .error .timeout ∨
      tryFrom ⟨program, text, second⟩ count position =
        tryFrom ⟨program, text, first⟩ count position := by
  induction count generalizing position with
  | zero => exact .inr rfl
  | succ count ih =>
      have hposition : position ≤ text.size := by omega
      have hpersists : Persists (attempt program text first false position)
          (attempt program text second false position) := attempt_persists hle hposition
      simp only [tryFrom]
      rcases hpersists with htimeout | hsame
      · left
        rw [htimeout]
      · rw [hsame]
        cases attempt program text first false position with
        | error error => exact .inr rfl
        | ok answer =>
            cases answer with
            | some found => exact .inr rfl
            | none =>
                apply ih
                omega

theorem Scan.next_persists (hle : first ≤ second) (scan : Scan) :
    (scan.next ⟨program, text, first⟩).1 = .error .timeout ∨
      scan.next ⟨program, text, second⟩ = scan.next ⟨program, text, first⟩ := by
  simp only [Scan.next]
  cases scan.finished with
  | true => exact .inr rfl
  | false =>
      apply tryFrom_persists hle
      exact Nat.sub_le_sub_right (last_le_size ⟨program, text, first⟩) scan.position

theorem Scan.take_persists (hle : first ≤ second) (count : Nat) (scan : Scan) :
    Persists (scan.take ⟨program, text, first⟩ count)
      (scan.take ⟨program, text, second⟩ count) := by
  induction count generalizing scan with
  | zero => exact .inr rfl
  | succ count ih =>
      have hnext : (scan.next ⟨program, text, first⟩).1 = .error .timeout ∨
          scan.next ⟨program, text, second⟩ = scan.next ⟨program, text, first⟩ :=
        next_persists hle scan
      simp only [Scan.take]
      rcases hnext with htimeout | hsame
      · left
        cases hscan : scan.next ⟨program, text, first⟩ with
        | mk result rest =>
            rw [hscan] at htimeout
            dsimp only at htimeout
            rw [htimeout]
      · rw [hsame]
        cases scan.next ⟨program, text, first⟩ with
        | mk result rest =>
            cases result with
            | error error => exact .inr rfl
            | ok answer =>
                cases answer with
                | none => exact .inr rfl
                | some found => exact (ih rest).map _

theorem Search.findAll_persists (hle : first ≤ second) :
    Persists (findAll ⟨program, text, first⟩) (findAll ⟨program, text, second⟩) :=
  Scan.take_persists hle _ _

theorem Search.findFirst_persists (hle : first ≤ second) :
    Persists (findFirst ⟨program, text, first⟩) (findFirst ⟨program, text, second⟩) := by
  rcases Scan.next_persists hle Scan.start with htimeout | hsame
  · exact .inl htimeout
  · exact .inr (congrArg Prod.fst hsame)

theorem Search.matchWhole_persists (hle : first ≤ second) :
    Persists (matchWhole ⟨program, text, first⟩) (matchWhole ⟨program, text, second⟩) :=
  attempt_persists hle (Nat.zero_le text.size)

theorem Search.replace_persists (hle : first ≤ second) (replacement : Bytes) (count : Nat) :
    (replace ⟨program, text, first⟩ replacement count).error = some .timeout ∨
      replace ⟨program, text, second⟩ replacement count =
        replace ⟨program, text, first⟩ replacement count := by
  have htake : Persists (Scan.start.take ⟨program, text, first⟩ count)
      (Scan.start.take ⟨program, text, second⟩ count) := Scan.take_persists hle count _
  simp only [replace]
  rcases htake with htimeout | hsame
  · left
    rw [htimeout]
  · right
    rw [hsame]

end Scans

/-! ### Calls -/

/-- Whether a call has used up the steps of an attempt. -/
def Answer.TimedOut : Answer → Prop
  | program result => result = .error .timeout
  | found result => result = .error .timeout
  | slices result => result = .error .timeout
  | captures result => result = .error .timeout
  | allCaptures result => result = .error .timeout
  | verdict result => result = .error .timeout
  | replacement result => result.error = some .timeout

theorem Call.answer_persists {first second : StepLimit} (hle : first ≤ second)
    (compiled : Except Error Program) (call : Call) :
    (call.answer first compiled).TimedOut ∨
      call.answer second compiled = call.answer first compiled := by
  have hresult {α : Type} (use : Search → Except Error α) (text : Text)
      (huse : ∀ program, Persists (use ⟨program, text, first⟩) (use ⟨program, text, second⟩)) :
      Persists (compiled.bind fun program => use ⟨program, text, first⟩)
        (compiled.bind fun program => use ⟨program, text, second⟩) := .bind compiled huse
  cases call with
  | compile pattern => exact .inr rfl
  | findAll pattern text =>
      have hfound := hresult Search.findAll text fun _ => Search.findAll_persists hle
      exact hfound.imp_right (congrArg Answer.found)
  | search pattern text =>
      have hfound := hresult Search.wholeMatches text fun _ => (Search.findAll_persists hle).map _
      exact hfound.imp_right (congrArg Answer.slices)
  | searchFirst pattern text =>
      have hfirst := hresult Search.firstCaptures text fun _ =>
        (Search.findFirst_persists hle).map _
      exact hfirst.imp_right (congrArg Answer.captures)
  | searchAll pattern text =>
      have hfound := hresult Search.allCaptures text fun _ => (Search.findAll_persists hle).map _
      exact hfound.imp_right (congrArg Answer.allCaptures)
  | matchText pattern text =>
      have hwhole := hresult Search.wholeTextCaptures text fun _ =>
        (Search.matchWhole_persists hle).map _
      exact hwhole.imp_right (congrArg Answer.captures)
  | contains pattern text =>
      have hfirst := hresult Search.hasMatch text fun _ => (Search.findFirst_persists hle).map _
      exact hfirst.imp_right (congrArg Answer.verdict)
  | replace pattern text replacement count =>
      cases compiled with
      | error error => exact .inr rfl
      | ok program =>
          exact (Search.replace_persists hle replacement count).imp_right
            (congrArg Answer.replacement)

/-- With a compiled program an attempt takes one number of steps, and has one answer. -/
theorem exists_steps_of_compilePattern {maxUnroll : Nat} {pattern : Bytes} {program : Program}
    (hcompile : (compilePattern maxUnroll pattern).program = .ok program) {text : Text}
    (anchoredEnd : Bool) {start : Nat} (hstart : start ≤ text.size) :
    ∃ taken answer, 0 < taken ∧
      (∀ limit : StepLimit, limit.Allows taken →
        attempt program text limit anchoredEnd start = .ok answer) ∧
      ∀ limit : StepLimit, ¬ limit.Allows taken →
        attempt program text limit anchoredEnd start = .error .timeout := by
  obtain ⟨tree, htree⟩ := exists_tree_of_program hcompile
  obtain ⟨hprogram, hgrouped⟩ := ofTree_of_compilePattern htree
  rw [hprogram]
  obtain ⟨steps, answer, left, hrun, -⟩ := exists_halted_ofTree hgrouped anchoredEnd hstart
  obtain ⟨taken, hpos, -, htaken⟩ := exists_steps_of_halted hstart hrun
  exact ⟨taken, answer, hpos, htaken⟩

/-- A limit cuts an attempt off or does not matter. With a compiled program, an attempt takes one
number of steps: it times out under the limits below this number, and under all others, and without
a limit, it gives one and the same answer. So a call that does not time out gives the same under
every larger limit, on an engine with the same bound on programs and any histories of calls. -/
theorem limit_cuts_off_or_does_not_matter :
    (∀ (maxUnroll : Nat) (pattern : Bytes) (program : Program),
      (compilePattern maxUnroll pattern).program = .ok program →
      ∀ (text : Text) (anchoredEnd : Bool) (start : Nat), start ≤ text.size →
        ∃ steps answer, 1 ≤ steps ∧
          attempt program text (.ofNat 0) anchoredEnd start = .ok answer ∧
          ∀ limit, 0 < limit →
            (attempt program text (.ofNat limit) anchoredEnd start = .error .timeout ↔
              limit < steps) ∧
            (steps ≤ limit →
              attempt program text (.ofNat limit) anchoredEnd start = .ok answer)) ∧
    ∀ first second : Options, first.maxUnroll = second.maxUnroll →
      (second.stepLimit = 0 ∨ 0 < first.stepLimit ∧ first.stepLimit ≤ second.stepLimit) →
      ∀ (before before' : List Call) (call : Call),
        let answer := (((Engine.new first).performAll before).2.perform call).1
        ¬ answer.TimedOut →
          (((Engine.new second).performAll before').2.perform call).1 = answer := by
  constructor
  · intro maxUnroll pattern program hcompile text anchoredEnd start hstart
    obtain ⟨taken, answer, hpos, hanswer, hcut⟩ :=
      exists_steps_of_compilePattern hcompile anchoredEnd hstart
    refine ⟨taken, answer, hpos, hanswer _ trivial, ?_⟩
    intro limit hlimit
    have hallows : (StepLimit.ofNat limit).Allows taken ↔ taken ≤ limit :=
      StepLimit.allows_ofNat_iff hlimit
    have hok (hle : taken ≤ limit) :
        attempt program text (.ofNat limit) anchoredEnd start = .ok answer := by
      apply hanswer
      exact hallows.mpr hle
    refine ⟨⟨?_, ?_⟩, hok⟩
    · intro htimeout
      apply Nat.lt_of_not_le
      intro hle
      rw [hok hle] at htimeout
      cases htimeout
    · intro hlt
      apply hcut
      exact mt hallows.mp (Nat.not_le_of_lt hlt)
  · intro first second hunroll hlimits before before' call answer hanswer
    have hle : first.limit ≤ second.limit := StepLimit.ofNat_le_ofNat hlimits
    have hcompiled : Engine.compiled second call.pattern = Engine.compiled first call.pattern := by
      rw [Engine.compiled, Engine.compiled, hunroll]
    simp only [answer, Engine.perform_performAll, hcompiled] at hanswer ⊢
    exact (Call.answer_persists hle _ call).resolve_left hanswer

/-- An attempt with the pattern `a` takes four steps, so a search with this limit gives what a
search without one gives. -/
theorem limit_cuts_off_or_does_not_matter_of_four_steps :
    let program := Program.ofTree (.atom 0 (.byte 97)) 0
    let call : Call := .search (ascii "a") #[97, 98, 97]
    (∀ limit, 0 < limit →
      (attempt program #[97] (.ofNat limit) false 0 = .error .timeout ↔ limit < 4)) ∧
    ((Engine.new { stepLimit := 0 }).perform call).1 = .slices (.ok [⟨0, [97]⟩, ⟨2, [97]⟩]) := by
  intro program call
  obtain ⟨hattempt, hcall⟩ := limit_cuts_off_or_does_not_matter
  constructor
  · obtain ⟨steps, answer, -, -, hlimits⟩ :=
      hattempt 2000 (ascii "a") program rfl #[97] false 0 (Nat.zero_le 1)
    have hthree : 3 < steps := (hlimits 3 (by decide)).1.mp rfl
    have hfour : ¬ 4 < steps := by
      intro hlt
      have htimeout := (hlimits 4 (by decide)).1.mpr hlt
      cases htimeout
    obtain rfl : steps = 4 := by omega
    exact fun limit hlimit => (hlimits limit hlimit).1
  · have hlimited : ((Engine.new { stepLimit := 4 }).perform call).1 =
        .slices (.ok [⟨0, [97]⟩, ⟨2, [97]⟩]) := rfl
    have hanswered :
        ¬ ((Engine.new { stepLimit := 4 }).perform call).1.TimedOut := by
      rw [hlimited]
      intro htimeout
      cases htimeout
    have hsame := hcall { stepLimit := 4 } { stepLimit := 0 } rfl (.inl rfl) [] [] call hanswered
    exact hsame.trans hlimited

end RegexSearch
