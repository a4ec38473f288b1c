import RegexSearch.Proofs.Program.Anchored
import RegexSearch.Proofs.Program.Compiled
import RegexSearch.Proofs.Scan

/-!
Which matches a scan finds. From an offset on, the next match is the one at the first offset where
an attempt succeeds; the search for the match after it goes on behind it. The matches that are
found one after the other in this way, until no attempt succeeds any more, are all that a scan
lists. A program that is tried at offset zero only is no exception: it begins with a test for the
beginning of the text, so that its attempts fail everywhere else.
-/

namespace RegexSearch

namespace Search

/-- What an attempt of a scan at an offset gives. -/
def attemptAt (search : Search) (offset : Nat) : Except Error (Option Match) :=
  attempt search.program search.text search.limit false offset

/-- No match begins between two offsets, the first of them included. -/
def Barren (search : Search) (first last : Nat) : Prop :=
  ∀ offset, first ≤ offset → offset < last → search.attemptAt offset = .ok none

/-- The first match from an offset on: it is what the attempt gives where it begins, and the
attempts before that fail. -/
structure FirstFrom (search : Search) (position : Nat) (found : Match) : Prop where
  position_le : position ≤ found.span.start
  start_lt : found.span.start < search.text.size
  attempted : search.attemptAt found.span.start = .ok (some found)
  barren : search.Barren position found.span.start

/-- The matches from an offset on, one after the other, and the offset where the search for more of
them goes on. Behind an empty match an offset is left out. -/
inductive Enumerates (search : Search) : Nat → List Match → Nat → Prop
  | done (position : Nat) : Enumerates search position [] position
  | more {position behind : Nat} {found : Match} {rest : List Match}
      (first : search.FirstFrom position found)
      (others : Enumerates search found.resumption rest behind) :
      Enumerates search position (found :: rest) behind

/-- An offset is visited if an attempt is due there: the matches before it have been found, and
since the last one all attempts have failed. -/
def Visits (search : Search) (offset : Nat) : Prop :=
  ∃ found behind, search.Enumerates 0 found behind ∧ behind ≤ offset ∧
    offset < search.text.size ∧ search.Barren behind offset

/-- A match begins where it has been attempted, and does not end before that. -/
def Coherent (search : Search) : Prop :=
  ∀ offset found, offset < search.text.size → search.attemptAt offset = .ok (some found) →
    found.span.start = offset ∧ offset ≤ found.span.stop

variable {search : Search}

theorem barren_self (search : Search) (offset : Nat) : search.Barren offset offset := by
  intro other hfirst hlast
  omega

theorem Barren.cons {first last : Nat} (hfirst : search.attemptAt first = .ok none)
    (h : search.Barren (first + 1) last) : search.Barren first last := by
  intro offset hle hlt
  rcases Nat.eq_or_lt_of_le hle with rfl | hless
  · exact hfirst
  · exact h offset hless hlt

/-- A match does not begin where all attempts fail. -/
theorem Barren.le_start {first last : Nat} {found : Match} (h : search.Barren first last)
    (hattempted : search.attemptAt found.span.start = .ok (some found))
    (hfirst : first ≤ found.span.start) : last ≤ found.span.start := by
  apply Nat.le_of_not_lt
  intro hlt
  have hfails := h found.span.start hfirst hlt
  rw [hattempted] at hfails
  cases hfails

/-! ### What an enumeration looks like -/

theorem FirstFrom.lt_resumption (hcoherent : search.Coherent) {position : Nat} {found : Match}
    (h : search.FirstFrom position found) : found.span.start < found.resumption := by
  obtain ⟨-, hstop⟩ := hcoherent _ found h.start_lt h.attempted
  exact RegexSearch.lt_resumption hstop

/-- There is only one first match. -/
theorem FirstFrom.unique {position : Nat} {found other : Match}
    (h : search.FirstFrom position found) (h' : search.FirstFrom position other) :
    found = other := by
  have hstart : found.span.start = other.span.start := by
    apply Nat.le_antisymm
    · exact h.barren.le_start h'.attempted h'.position_le
    · exact h'.barren.le_start h.attempted h.position_le
  have hsame := h.attempted
  rw [hstart, h'.attempted] at hsame
  cases hsame
  rfl

/-- Up to the first match and at it, every attempt has an answer. -/
theorem FirstFrom.exists_answer {position offset : Nat} {found : Match}
    (h : search.FirstFrom position found) (hle : position ≤ offset)
    (hlt : offset ≤ found.span.start) : ∃ answer, search.attemptAt offset = .ok answer := by
  rcases Nat.eq_or_lt_of_le hlt with rfl | hless
  · exact ⟨_, h.attempted⟩
  · exact ⟨_, h.barren offset hle hless⟩

/-- If an enumeration has come to the end, an attempt has an answer wherever it is due. -/
theorem Enumerates.exists_answer {position behind : Nat} {found : List Match}
    (h : search.Enumerates position found behind) (hend : search.Barren behind search.text.size)
    {behind' offset : Nat} {found' : List Match} (h' : search.Enumerates position found' behind')
    (hle : behind' ≤ offset) (hlt : offset < search.text.size)
    (hbarren : search.Barren behind' offset) :
    ∃ answer, search.attemptAt offset = .ok answer := by
  induction h' generalizing found with
  | done position =>
      cases h with
      | done => exact ⟨none, hend offset hle hlt⟩
      | more first others =>
          apply first.exists_answer hle
          exact hbarren.le_start first.attempted first.position_le
  | more first' others' ih =>
      cases h with
      | done =>
          have hsize := hend.le_start first'.attempted first'.position_le
          exact absurd first'.start_lt (Nat.not_lt_of_le hsize)
      | more first others =>
          obtain rfl := first.unique first'
          exact ih others hle hbarren

theorem Enumerates.exists_firstFrom {position behind : Nat} {found : List Match}
    (h : search.Enumerates position found behind) :
    ∀ each ∈ found, ∃ before, search.FirstFrom before each := by
  induction h with
  | done position =>
      intro each hmem
      cases hmem
  | more first others ih =>
      intro each hmem
      rcases List.mem_cons.mp hmem with rfl | hrest
      · exact ⟨_, first⟩
      · exact ih each hrest

/-- All matches begin behind the position where the search for them began. -/
theorem Enumerates.le_start (hcoherent : search.Coherent) {position behind : Nat}
    {found : List Match} (h : search.Enumerates position found behind) :
    ∀ later ∈ found, position ≤ later.span.start := by
  induction h with
  | done position =>
      intro later hmem
      cases hmem
  | more first others ih =>
      intro later hmem
      rcases List.mem_cons.mp hmem with rfl | hrest
      · exact first.position_le
      · have hlt := first.lt_resumption hcoherent
        have hle := ih later hrest
        have := first.position_le
        omega

theorem stop_le_resumption (found : Match) : found.span.stop ≤ found.resumption := by
  unfold Match.resumption
  split <;> omega

/-- Matches do not overlap, and no two of them begin at the same offset. -/
theorem Enumerates.pairwise (hcoherent : search.Coherent) {position behind : Nat}
    {found : List Match} (h : search.Enumerates position found behind) :
    found.Pairwise fun earlier later =>
      earlier.span.start < later.span.start ∧ earlier.span.stop ≤ later.span.start := by
  induction h with
  | done position => exact .nil
  | @more position behind earlier rest first others ih =>
      apply List.pairwise_cons.mpr
      refine ⟨?_, ih⟩
      intro later hmem
      have hlater := others.le_start hcoherent later hmem
      have hstart := first.lt_resumption hcoherent
      have hstop := stop_le_resumption earlier
      omega

/-- There are no more matches than offsets left. -/
theorem Enumerates.length_le (hcoherent : search.Coherent) {position behind : Nat}
    {found : List Match} (h : search.Enumerates position found behind) :
    found.length ≤ search.text.size - position := by
  induction h with
  | done position => exact Nat.zero_le _
  | more first others ih =>
      have hlt := first.lt_resumption hcoherent
      have hle := first.position_le
      have hsize := first.start_lt
      rw [List.length_cons]
      omega

end Search

/-! ### What a scan does -/

namespace Scan

/-- The results of so many calls, one after the other, where `next` makes one call. -/
def results (next : Scan → Except Error (Option Match) × Scan) :
    (count : Nat) → Scan → List (Except Error (Option Match))
  | 0, _ => []
  | count + 1, scan => (next scan).1 :: results next count (next scan).2

/-- The matches among the results of calls, up to the first call that has found none, or the error
that comes before that. -/
def listed : List (Except Error (Option Match)) → Except Error (List Match)
  | [] => .ok []
  | .error error :: _ => .error error
  | .ok none :: _ => .ok []
  | .ok (some found) :: later => (listed later).map (found :: ·)

open Search

variable {search : Search}

/-- Taking matches makes one call after the other until one finds none. -/
theorem take_eq_listed (count : Nat) (scan : Scan) :
    take search count scan = listed (results (next search) count scan) := by
  induction count generalizing scan with
  | zero => rfl
  | succ count ih =>
      rw [take, results]
      cases hnext : scan.next search with
      | mk result rest =>
          cases result with
          | error error => rfl
          | ok answer =>
              cases answer with
              | none => rfl
              | some found => simp only [listed, ih]

/-- All that trying so many offsets can come to. -/
theorem tryFrom_cases (hcoherent : search.Coherent) {count position : Nat}
    (hcount : count ≤ search.text.size - position) :
    (∃ found, tryFrom search count position = (.ok (some found), ⟨found.resumption, false⟩) ∧
      search.FirstFrom position found ∧ found.span.start < position + count) ∨
    (tryFrom search count position = (.ok none, ⟨position + count, true⟩) ∧
      search.Barren position (position + count)) ∨
    (∃ offset error, tryFrom search count position = (.error error, ⟨offset, true⟩) ∧
      position ≤ offset ∧ offset < position + count ∧ search.Barren position offset ∧
      search.attemptAt offset = .error error) := by
  induction count generalizing position with
  | zero => exact .inr (.inl ⟨rfl, barren_self search position⟩)
  | succ count ih =>
      have hsize : position < search.text.size := by omega
      rw [tryFrom]
      cases hattempt : attempt search.program search.text search.limit false position with
      | error error =>
          refine .inr (.inr ⟨position, error, rfl, Nat.le_refl _, by omega, ?_, hattempt⟩)
          exact barren_self search position
      | ok answer =>
          cases answer with
          | some found =>
              obtain ⟨hstart, -⟩ := hcoherent position found hsize hattempt
              refine .inl ⟨found, rfl, ?_, by omega⟩
              constructor
              · exact hstart.ge
              · rwa [hstart]
              · rwa [hstart]
              · rw [hstart]
                exact barren_self search position
          | none =>
              have hshift : position + 1 + count = position + (count + 1) := by omega
              rcases @ih (position + 1) (by omega) with
                ⟨found, hfound, hfirst, hlt⟩ | ⟨hnone, hbarren⟩ |
                ⟨offset, error, herror, hle, hlt, hbarren, hcut⟩
              · refine .inl ⟨found, hfound, ?_, by omega⟩
                exact { hfirst with
                  position_le := by have := hfirst.position_le; omega
                  barren := hfirst.barren.cons hattempt }
              · rw [hshift] at hnone hbarren
                exact .inr (.inl ⟨hnone, hbarren.cons hattempt⟩)
              · refine .inr (.inr ⟨offset, error, herror, by omega, by omega, ?_, hcut⟩)
                exact hbarren.cons hattempt

/-- A scan that is asked for matches enumerates them, up to its last offset if it is asked for
enough, or meets an attempt that has no answer. -/
theorem take_cases (hcoherent : search.Coherent) (count position : Nat) :
    (∃ found behind, take search count ⟨position, false⟩ = .ok found ∧
      search.Enumerates position found behind ∧
      (last search - position < count → search.Barren behind (last search))) ∨
    (∃ found behind offset error, take search count ⟨position, false⟩ = .error error ∧
      search.Enumerates position found behind ∧ behind ≤ offset ∧ offset < last search ∧
      search.Barren behind offset ∧ search.attemptAt offset = .error error) := by
  induction count generalizing position with
  | zero =>
      refine .inl ⟨[], position, rfl, .done position, ?_⟩
      intro hcount
      cases hcount
  | succ count ih =>
      have hsize := last_le_size search
      have hnext : next search ⟨position, false⟩ =
          tryFrom search (last search - position) position := rfl
      rw [take, hnext]
      have hleft : last search - position ≤ search.text.size - position := by omega
      rcases tryFrom_cases hcoherent hleft with ⟨found, hfound, hfirst, hlt⟩ |
        ⟨hnone, hbarren⟩ | ⟨offset, error, herror, hle, hlt, hbarren, hcut⟩
      · rw [hfound]
        dsimp only
        have hle := hfirst.position_le
        have hresume := hfirst.lt_resumption hcoherent
        rcases ih found.resumption with ⟨rest, behind, hrest, hothers, hend⟩ |
          ⟨rest, behind, offset, error, hrest, hothers, hoffset⟩
        · refine .inl ⟨found :: rest, behind, ?_, .more hfirst hothers, ?_⟩
          · rw [hrest]
            rfl
          · intro hcount
            apply hend
            omega
        · refine .inr ⟨found :: rest, behind, offset, error, ?_, .more hfirst hothers, hoffset⟩
          rw [hrest]
          rfl
      · rw [hnone]
        refine .inl ⟨[], position, rfl, .done position, ?_⟩
        intro _ offset hle hlt
        exact hbarren offset hle (by omega)
      · rw [herror]
        refine .inr ⟨[], position, offset, error, rfl, .done position, hle, by omega, hbarren, hcut⟩

end Scan

/-! ### Compiled programs -/

/-- The program of the search has been made from a tree, with groups that are numbered as in a
pattern that has been read. -/
def Search.FromTree (search : Search) : Prop :=
  ∃ (tree : Tree) (groups : Nat), tree.Grouped groups ∧ search.program = .ofTree tree groups

namespace Search.FromTree

open Search

variable {search : Search}

theorem of_compilePattern {maxUnroll : Nat} {pattern : Bytes} {program : Program}
    (hcompile : (compilePattern maxUnroll pattern).program = .ok program) (text : Text)
    (limit : StepLimit) : FromTree ⟨program, text, limit⟩ := by
  obtain ⟨tree, htree⟩ := exists_tree_of_program hcompile
  obtain ⟨hprogram, hgrouped⟩ := ofTree_of_compilePattern htree
  exact ⟨tree, program.groups, hgrouped, hprogram⟩

/-- Whatever the limit, a match that an attempt finds is an outcome of the tree. -/
theorem exists_outcome (h : search.FromTree) {offset : Nat} {found : Match}
    (hoffset : offset ≤ search.text.size)
    (hattempt : search.attemptAt offset = .ok (some found)) :
    ∃ (out : Outcome) (groups : Nat), offset ≤ out.offset ∧ out.Within search.text ∧
      found = out.toMatch offset groups := by
  obtain ⟨tree, groups, hgrouped, hprogram⟩ := h
  have hle : search.limit ≤ .unlimited := fun _ _ => trivial
  have hunlimited := attempt_mono hle hoffset hattempt
  rw [hprogram, attempt_ofTree hgrouped false hoffset] at hunlimited
  obtain ⟨out, hout, rfl⟩ := Option.map_eq_some_iff.mp (Except.ok.inj hunlimited)
  have hmem := List.mem_of_find?_eq_some hout
  exact ⟨out, groups, Tree.offset_le_of_mem_outcomes hmem,
    Tree.within_of_mem_outcomes (Outcome.within_start hoffset) hmem, rfl⟩

theorem coherent (h : search.FromTree) : search.Coherent := by
  intro offset found hoffset hattempt
  obtain ⟨out, groups, hle, -, rfl⟩ := h.exists_outcome hoffset.le hattempt
  exact ⟨rfl, hle⟩

theorem opens (h : search.FromTree) : search.program.code[0]? = some (.openGroup 0) := by
  obtain ⟨tree, groups, -, hprogram⟩ := h
  rw [hprogram]
  exact code_zero_ofTree tree groups

/-- If the attempt at the beginning is not cut off, no attempt with an anchored program is, and
those behind the beginning fail. -/
theorem barren_of_anchored (h : search.FromTree)
    (hanchored : search.program.anchoredAtBegin = true) {answer : Option Match}
    (hattempt : search.attemptAt 0 = .ok answer) : search.Barren 1 search.text.size := by
  intro offset hpositive hlt
  have hallows : search.limit.Allows 2 := allows_two_of_attempt h.opens hattempt
  exact attempt_anchored h.opens hanchored hpositive hlt.le hallows

/-- Leaving out all offsets but the first loses no match of an anchored program. -/
theorem barren_of_last (h : search.FromTree) {found : List Match} {behind : Nat}
    (henumerates : search.Enumerates 0 found behind)
    (hbarren : search.Barren behind (Scan.last search)) :
    search.Barren behind search.text.size := by
  cases hanchored : search.program.anchoredAtBegin with
  | false => simpa [Scan.last, hanchored] using hbarren
  | true =>
      have hlast : Scan.last search = min 1 search.text.size := by simp [Scan.last, hanchored]
      rw [hlast] at hbarren
      intro offset hle hlt
      by_cases hfirst : offset < min 1 search.text.size
      · exact hbarren offset hle hfirst
      · have hanswer : ∃ answer, search.attemptAt 0 = .ok answer := by
          cases henumerates with
          | done => exact ⟨none, hbarren 0 (Nat.le_refl 0) (by omega)⟩
          | more first others => exact first.exists_answer (Nat.le_refl 0) (Nat.zero_le _)
        obtain ⟨answer, hattempt⟩ := hanswer
        exact h.barren_of_anchored hanchored hattempt offset (by omega) hlt

/-- All that listing all matches can come to. -/
theorem findAll_cases (h : search.FromTree) :
    (∃ found behind, search.findAll = .ok found ∧ search.Enumerates 0 found behind ∧
      search.Barren behind search.text.size) ∨
    (∃ offset, search.findAll = .error .timeout ∧ search.Visits offset ∧
      search.attemptAt offset = .error .timeout) := by
  have hsize := Scan.last_le_size search
  have hcount : Scan.last search - 0 < search.text.size + 1 := Nat.lt_succ_of_le hsize
  rcases Scan.take_cases h.coherent (search.text.size + 1) 0 with
    ⟨found, behind, hfound, henumerates, hlast⟩ |
    ⟨found, behind, offset, error, herror, henumerates, hle, hlt, hbarren, hcut⟩
  · have hbarren := h.barren_of_last henumerates (hlast hcount)
    exact .inl ⟨found, behind, hfound, henumerates, hbarren⟩
  · obtain rfl : error = .timeout := eq_timeout_of_attempt hcut
    exact .inr ⟨offset, herror, ⟨found, behind, henumerates, hle, by omega, hbarren⟩, hcut⟩

/-- If an attempt that is due times out, this is what listing all matches comes to. -/
theorem findAll_of_timeout (h : search.FromTree) {offset : Nat} (hvisits : search.Visits offset)
    (htimeout : search.attemptAt offset = .error .timeout) : search.findAll = .error .timeout := by
  rcases h.findAll_cases with ⟨found, behind, -, henumerates, hbarren⟩ | ⟨-, herror, -⟩
  · obtain ⟨found', behind', henumerates', hle, hlt, hbarren'⟩ := hvisits
    obtain ⟨answer, hanswer⟩ := henumerates.exists_answer hbarren henumerates' hle hlt hbarren'
    cases htimeout.symm.trans hanswer
  · exact herror

/-- All that looking for the first match can come to. -/
theorem findFirst_cases (h : search.FromTree) :
    (∃ found, search.findFirst = .ok (some found) ∧ search.FirstFrom 0 found) ∨
    (search.findFirst = .ok none ∧ search.Barren 0 search.text.size) ∨
    (∃ offset, search.findFirst = .error .timeout ∧ search.Barren 0 offset ∧
      offset < search.text.size ∧ search.attemptAt offset = .error .timeout) := by
  have hsize := Scan.last_le_size search
  have hcount : Scan.last search ≤ search.text.size - 0 := hsize
  have hfirst : search.findFirst = (Scan.tryFrom search (Scan.last search) 0).1 := rfl
  rw [hfirst]
  rcases Scan.tryFrom_cases h.coherent hcount with ⟨found, hfound, hleads, -⟩ |
    ⟨hnone, hbarren⟩ | ⟨offset, error, herror, -, hlt, hbarren, hcut⟩
  · rw [hfound]
    exact .inl ⟨found, rfl, hleads⟩
  · rw [Nat.zero_add] at hbarren
    rw [hnone]
    exact .inr (.inl ⟨rfl, h.barren_of_last (.done 0) hbarren⟩)
  · obtain rfl : error = .timeout := eq_timeout_of_attempt hcut
    rw [herror]
    exact .inr (.inr ⟨offset, rfl, hbarren, by omega, hcut⟩)

/-- If an attempt times out with no match in front of it, this is what looking for the first match
comes to. -/
theorem findFirst_of_timeout (h : search.FromTree) {offset : Nat}
    (hoffset : offset < search.text.size) (hbarren : search.Barren 0 offset)
    (htimeout : search.attemptAt offset = .error .timeout) :
    search.findFirst = .error .timeout := by
  rcases h.findFirst_cases with ⟨found, -, hfirst⟩ | ⟨-, hend⟩ | ⟨-, herror, -⟩
  · have hle := hbarren.le_start hfirst.attempted (Nat.zero_le _)
    obtain ⟨answer, hanswer⟩ := hfirst.exists_answer (Nat.zero_le offset) hle
    cases htimeout.symm.trans hanswer
  · cases htimeout.symm.trans (hend offset (Nat.zero_le _) hoffset)
  · exact herror

end Search.FromTree

/-- All matches of a compiled program are found and nothing else is. If no attempt times out where
one is due, the matches are enumerated from left to right, each as the first one from where the
last one was left, and no match begins behind them; so they begin one behind the other, do not
overlap and are no more than the text has bytes. If an attempt times out where one is due, this is
reported and no match. -/
theorem findAll_enumerates {maxUnroll : Nat} {pattern : Bytes} {program : Program}
    (hcompile : (compilePattern maxUnroll pattern).program = .ok program) (text : Text)
    (limit : StepLimit) :
    let search : Search := ⟨program, text, limit⟩
    ((∀ offset, search.Visits offset → search.attemptAt offset ≠ .error .timeout) →
      ∃ found behind, search.findAll = .ok found ∧ search.Enumerates 0 found behind ∧
        search.Barren behind text.size ∧
        (found.Pairwise fun earlier later =>
          earlier.span.start < later.span.start ∧ earlier.span.stop ≤ later.span.start) ∧
        found.length ≤ text.size) ∧
    ∀ offset, search.Visits offset → search.attemptAt offset = .error .timeout →
      search.findAll = .error .timeout := by
  intro search
  have hsearch : search.FromTree := .of_compilePattern hcompile text limit
  refine ⟨?_, fun _ hvisits htimeout => hsearch.findAll_of_timeout hvisits htimeout⟩
  intro hnever
  rcases hsearch.findAll_cases with ⟨found, behind, hfound, henumerates, hbarren⟩ |
    ⟨offset, -, hvisits, htimeout⟩
  · exact ⟨found, behind, hfound, henumerates, hbarren, henumerates.pairwise hsearch.coherent,
      henumerates.length_le hsearch.coherent⟩
  · exact absurd htimeout (hnever offset hvisits)

/-- In `baac` the pattern `a*` matches the empty text, then `aa`, then the empty text behind it; with
two steps for each attempt, the first one is cut off. -/
theorem findAll_enumerates_of_star :
    let program := Program.ofTree (.rep (.atom 0 (.byte 97)) ⟨0, none, true⟩) 0
    let text : Text := #[98, 97, 97, 99]
    let found : List Match := [⟨⟨0, 0⟩, [some ⟨0, 0⟩]⟩, ⟨⟨1, 3⟩, [some ⟨1, 3⟩]⟩,
      ⟨⟨3, 3⟩, [some ⟨3, 3⟩]⟩]
    (∃ behind, Search.Enumerates ⟨program, text, .atMost 20⟩ 0 found behind ∧
      Search.Barren ⟨program, text, .atMost 20⟩ behind 4) ∧
    Search.findAll ⟨program, text, .atMost 2⟩ = .error .timeout := by
  intro program text found
  have hcompile : (compilePattern 2000 (ascii "a*")).program = .ok program := rfl
  constructor
  · have hanswers (offset : Fin 4) :
        Search.attemptAt ⟨program, text, .atMost 20⟩ offset ≠ .error .timeout := by
      revert offset
      decide
    have hvisited : ∀ offset, Search.Visits ⟨program, text, .atMost 20⟩ offset →
        Search.attemptAt ⟨program, text, .atMost 20⟩ offset ≠ .error .timeout := by
      rintro offset ⟨-, -, -, -, hlt, -⟩
      exact hanswers ⟨offset, hlt⟩
    obtain ⟨hfinds, -⟩ := findAll_enumerates hcompile text (.atMost 20)
    obtain ⟨listed, behind, hlisted, henumerates, hbarren, -⟩ := hfinds hvisited
    have hfound : Search.findAll ⟨program, text, .atMost 20⟩ = .ok found := by decide +kernel
    rw [hfound] at hlisted
    cases hlisted
    exact ⟨behind, henumerates, hbarren⟩
  · obtain ⟨-, htimeout⟩ := findAll_enumerates hcompile text (.atMost 2)
    apply htimeout 0
    · exact ⟨[], 0, .done 0, Nat.le_refl 0, Nat.succ_pos 3, Search.barren_self _ 0⟩
    · rfl

end RegexSearch
