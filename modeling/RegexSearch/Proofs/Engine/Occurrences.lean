import RegexSearch.Proofs.Engine.Calls
import RegexSearch.Proofs.Enumeration
import RegexSearch.Proofs.Pattern.Quoting

/-!
Searching for a word. An attempt with a pattern that quotes a word succeeds exactly where the word
stands in the text. A scan takes the leftmost place, goes on behind the word and so passes over the
places that overlap with it. What it lists are the leftmost occurrences that do not overlap, and
the text as a whole is matched if it is the word.
-/

namespace RegexSearch

/-- The places of a word in a text from an offset on: the leftmost one, and then those from behind
the word at this place on. -/
inductive Text.Occurrences (text : Text) (word : Bytes) : (position : Nat) → List Nat → Prop
  | none {position : Nat} (h : ∀ offset, position ≤ offset → ¬ text.HasAt word offset) :
      Occurrences text word position []
  | first {position offset : Nat} {rest : List Nat} (hle : position ≤ offset)
      (hhas : text.HasAt word offset)
      (hleftmost : ∀ other, position ≤ other → other < offset → ¬ text.HasAt word other)
      (behind : Occurrences text word (offset + word.length) rest) :
      Occurrences text word position (offset :: rest)

/-- The text and the word determine the places. -/
theorem Text.Occurrences.unique {text : Text} {word : Bytes} {position : Nat}
    {starts others : List Nat} (h : text.Occurrences word position starts)
    (h' : text.Occurrences word position others) : others = starts := by
  induction h generalizing others with
  | none hnone =>
      cases h' with
      | none => rfl
      | first hle hhas => exact absurd hhas (hnone _ hle)
  | @first position offset rest hle hhas hleftmost behind ih =>
      cases h' with
      | none hnone => exact absurd hhas (hnone offset hle)
      | @first _ offset' rest' hle' hhas' hleftmost' behind' =>
          have hsame : offset' = offset := by
            apply Nat.le_antisymm
            · exact Nat.le_of_not_lt fun hlt => hleftmost' offset hle hlt hhas
            · exact Nat.le_of_not_lt fun hlt => hleftmost offset' hle' hlt hhas'
          subst hsame
          rw [ih behind']

/-- The match of a word at an offset, with a pattern that has no groups. -/
def Match.ofWord (word : Bytes) (offset : Nat) : Match :=
  ⟨⟨offset, offset + word.length⟩, [some ⟨offset, offset + word.length⟩]⟩

/-- The match of a word shows the word, and captures nothing else. -/
theorem Match.front_and_captures_ofWord {text : Text} {word : Bytes} {offset : Nat}
    (h : text.HasAt word offset) :
    (Match.ofWord word offset).front text = ⟨offset, word⟩ ∧
      (Match.ofWord word offset).captures text = [some ⟨offset, word⟩] := by
  have hslice : Span.slice ⟨offset, offset + word.length⟩ text = ⟨offset, word⟩ := by
    rw [Span.slice, h.bytes]
  exact ⟨hslice, congrArg (fun slice => [some slice]) hslice⟩

/-- Behind a word the search goes on where the word ends. -/
theorem Match.resumption_ofWord {word : Bytes} (hword : word ≠ []) (offset : Nat) :
    (Match.ofWord word offset).resumption = offset + word.length := by
  have hpositive := List.length_pos_iff.mpr hword
  have hnonempty : (Match.ofWord word offset).isEmpty = false := by
    simp only [Match.isEmpty, Match.ofWord, beq_eq_false_iff_ne]
    omega
  rw [Match.resumption, hnonempty]
  rfl

/-- At its places, the matches of a word show the word. -/
theorem Text.Occurrences.map_front {text : Text} {word : Bytes} {position : Nat} {starts : List Nat}
    (h : text.Occurrences word position starts) :
    (starts.map (Match.ofWord word)).map (·.front text) =
      starts.map fun offset => ⟨offset, word⟩ := by
  induction h with
  | none => rfl
  | first hle hhas hleftmost behind ih =>
      rw [List.map_cons, List.map_cons, List.map_cons, ih, (Match.front_and_captures_ofWord hhas).1]

/-! ### Attempts -/

namespace Tree.Literal

variable {word : Bytes} {tree : Tree} {text : Text}

/-- An attempt finds the word where it stands, and nothing elsewhere. -/
theorem attempt_eq (h : tree.Literal word) (hgrouped : tree.Grouped 0) {start : Nat}
    (hstart : start ≤ text.size) :
    attempt (.ofTree tree 0) text .unlimited false start =
      .ok (if text.HasAt word start then some (.ofWord word start) else none) := by
  rw [attempt_ofTree hgrouped false hstart, h.outcomes_eq]
  change Except.ok (Option.map _ (List.find? _ (if text.HasAt word start then _ else _))) = _
  split <;> rfl

/-- An attempt at the text as a whole succeeds if the text is the word. -/
theorem attempt_whole_eq (h : tree.Literal word) (hgrouped : tree.Grouped 0) (text : Text) :
    attempt (.ofTree tree 0) text .unlimited true 0 =
      .ok (if text.toList = word then some (.ofWord word 0) else none) := by
  rw [attempt_ofTree hgrouped true (Nat.zero_le _), h.outcomes_eq]
  have hstart : (Outcome.start 0).offset = 0 := rfl
  rw [hstart]
  by_cases hhas : text.HasAt word 0
  · have hcounts : ((Outcome.start 0).advance word.length).counts true text = true ↔
        text.toList = word := by
      rw [← Text.hasAt_zero_and_ends_iff, and_iff_right hhas]
      simp [Outcome.counts, Outcome.advance, hstart]
    rw [if_pos hhas, List.find?_singleton]
    simp only [hcounts]
    split <;> rfl
  · have hother : text.toList ≠ word := by
      intro hsame
      exact hhas (Text.hasAt_zero_and_ends_iff.mpr hsame).1
    rw [if_neg hhas, if_neg hother]
    rfl

/-- What is captured in the match of the whole text is the word. -/
theorem wholeTextCaptures_eq (h : tree.Literal word) (hgrouped : tree.Grouped 0) (text : Text) :
    Search.wholeTextCaptures ⟨.ofTree tree 0, text, .unlimited⟩ =
      .ok (if text.toList = word then [some ⟨0, word⟩] else []) := by
  rw [Search.wholeTextCaptures, Search.matchWhole, h.attempt_whole_eq hgrouped]
  by_cases htext : text.toList = word
  · have hhas := (Text.hasAt_zero_and_ends_iff.mpr htext).1
    rw [if_pos htext, if_pos htext, ← (Match.front_and_captures_ofWord hhas).2]
    rfl
  · rw [if_neg htext, if_neg htext]
    rfl

end Tree.Literal

/-! ### Scans -/

/-- A search whose attempts find a word where it stands, and nothing elsewhere. -/
def Search.Spots (search : Search) (word : Bytes) : Prop :=
  ∀ offset, offset ≤ search.text.size → search.attemptAt offset =
    .ok (if search.text.HasAt word offset then some (.ofWord word offset) else none)

namespace Search.Spots

variable {search : Search} {word : Bytes}

theorem hasAt_of_attempted (h : search.Spots word) {offset : Nat}
    (hoffset : offset < search.text.size) {found : Match}
    (hattempt : search.attemptAt offset = .ok (some found)) :
    search.text.HasAt word offset ∧ found = .ofWord word offset := by
  rw [h offset hoffset.le] at hattempt
  split at hattempt
  · rename_i hhas
    exact ⟨hhas, (Option.some.inj (Except.ok.inj hattempt)).symm⟩
  · cases hattempt

theorem not_hasAt_of_attempted (h : search.Spots word) {offset : Nat}
    (hoffset : offset < search.text.size) (hattempt : search.attemptAt offset = .ok none) :
    ¬ search.text.HasAt word offset := by
  intro hhas
  rw [h offset hoffset.le, if_pos hhas] at hattempt
  cases hattempt

/-- Where attempts fail up to the end of the text, the word does not stand anywhere. -/
theorem not_hasAt_of_barren (h : search.Spots word) (hword : word ≠ []) {position : Nat}
    (hbarren : search.Barren position search.text.size) :
    ∀ offset, position ≤ offset → ¬ search.text.HasAt word offset := by
  intro offset hle hhas
  have hpositive := List.length_pos_iff.mpr hword
  have hend := hhas.le hword
  have hlt : offset < search.text.size := by omega
  exact h.not_hasAt_of_attempted hlt (hbarren offset hle hlt) hhas

/-- The matches that are enumerated are those of the word at its places. -/
theorem occurrences (h : search.Spots word) (hword : word ≠ []) {position behind : Nat}
    {found : List Match} (henumerates : search.Enumerates position found behind)
    (hend : search.Barren behind search.text.size) :
    ∃ starts, search.text.Occurrences word position starts ∧
      found = starts.map (Match.ofWord word) := by
  induction henumerates with
  | done position => exact ⟨[], .none (h.not_hasAt_of_barren hword hend), rfl⟩
  | @more position behind first rest hfirst others ih =>
      obtain ⟨starts, hstarts, rfl⟩ := ih hend
      obtain ⟨hhas, hmatch⟩ := h.hasAt_of_attempted hfirst.start_lt hfirst.attempted
      have hresume : first.resumption = first.span.start + word.length := by
        rw [hmatch, Match.resumption_ofWord hword]
        rfl
      rw [hresume] at hstarts
      refine ⟨first.span.start :: starts, .first hfirst.position_le hhas ?_ hstarts, ?_⟩
      · intro other hle hlt
        have hsize : other < search.text.size := Nat.lt_trans hlt hfirst.start_lt
        exact h.not_hasAt_of_attempted hsize (hfirst.barren other hle hlt)
      · rw [List.map_cons, ← hmatch]

/-- All places are listed, since no attempt times out. -/
theorem exists_wholeMatches (h : search.Spots word) (hword : word ≠ [])
    (hsearch : search.FromTree) :
    ∃ starts, search.text.Occurrences word 0 starts ∧
      search.wholeMatches = .ok (starts.map fun offset => ⟨offset, word⟩) := by
  rcases hsearch.findAll_cases with ⟨found, behind, hfound, henumerates, hend⟩ |
    ⟨offset, -, ⟨-, -, -, -, hlt, -⟩, htimeout⟩
  · obtain ⟨starts, hstarts, rfl⟩ := h.occurrences hword henumerates hend
    refine ⟨starts, hstarts, ?_⟩
    rw [Search.wholeMatches, hfound, ← hstarts.map_front]
    rfl
  · cases (h offset hlt.le).symm.trans htimeout

end Search.Spots

/-- A pattern that quotes a word compiles, whatever may be written out. -/
theorem Quotes.compiled {pattern word : Bytes} (h : Quotes pattern word) (hword : word ≠ [])
    (options : Options) :
    ∃ tree, Engine.compiled options pattern = .ok (.ofTree tree 0) ∧ tree.Literal word ∧
      tree.Grouped 0 := by
  obtain ⟨tree, hread, hliteral⟩ := h.exists_literal hword
  have hresult : (readPattern pattern).result = .ok tree := by rw [hread]
  have hgroups : (readPattern pattern).groups = 0 := by rw [hread]
  have hcheap := hliteral.firstExpensive?_eq_none options.maxUnroll
  have hcompiled := compilePattern_eq_ok_iff.mpr ⟨hresult, hcheap, rfl⟩
  have hgrouped := grouped_of_readPattern hresult
  rw [hgroups] at hcompiled hgrouped
  exact ⟨tree, congrArg Compilation.program hcompiled, hliteral, hgrouped⟩

/-- Quoted text is searched for literally. However each byte of a word is written to stand for
itself, the pattern compiles, and whatever the engine has been used for before, if the steps are not
limited, the pattern matches the text that is the word and no other as a whole, and searching a text
lists the places of the word, the leftmost first and each from where the one before ends. -/
theorem quoted_word_is_searched_literally {pattern word : Bytes} (h : Quotes pattern word)
    (hword : word ≠ []) (options : Options) (before : Call → List Call) :
    let answer (call : Call) : Answer :=
      (((Engine.new options).performAll (before call)).2.perform call).1
    (∃ program, answer (.compile pattern) = .program (.ok program)) ∧
    (options.stepLimit = 0 → ∀ text : Text,
      answer (.matchText pattern text) =
        .captures (.ok (if text.toList = word then [some ⟨0, word⟩] else [])) ∧
      ∃ starts, (∀ others, text.Occurrences word 0 others ↔ others = starts) ∧
        answer (.search pattern text) =
          .slices (.ok (starts.map fun offset => ⟨offset, word⟩))) := by
  intro answer
  have hanswer (call : Call) :
      answer call = call.answer options.limit (Engine.compiled options call.pattern) :=
    Engine.perform_performAll options (before call) call
  obtain ⟨tree, hcompiled, hliteral, hgrouped⟩ := h.compiled hword options
  constructor
  · refine ⟨.ofTree tree 0, ?_⟩
    rw [hanswer, Call.pattern, hcompiled]
    rfl
  · intro hlimit text
    have hunlimited : options.limit = .unlimited := by
      rw [Options.limit, hlimit]
      rfl
    let search : Search := ⟨.ofTree tree 0, text, .unlimited⟩
    have hspots : search.Spots word := fun _ hoffset => hliteral.attempt_eq hgrouped hoffset
    have hsearch : search.FromTree := ⟨tree, 0, hgrouped, rfl⟩
    rw [hanswer, hanswer, Call.pattern, Call.pattern, hcompiled, hunlimited]
    constructor
    · exact congrArg Answer.captures (hliteral.wholeTextCaptures_eq hgrouped text)
    · obtain ⟨starts, hstarts, hlisted⟩ := hspots.exists_wholeMatches hword hsearch
      refine ⟨starts, ?_, congrArg Answer.slices hlisted⟩
      intro others
      constructor
      · intro hothers
        exact hstarts.unique hothers
      · rintro rfl
        exact hstarts

/-- The word consists of a star between two bytes 255, one of which is written in hexadecimal and
the other as it is. In a text where it stands three times, the second place overlaps with both of
the others and is passed over. -/
theorem quoted_word_is_searched_literally_of_overlapping_places :
    let word : Bytes := [255, 42, 255]
    let pattern : Bytes := ascii "\\xfF\\*" ++ [255]
    let answer (call : Call) : Answer := ((Engine.new { stepLimit := 0 }).perform call).1
    Quotes pattern word ∧ word ≠ [] ∧
      answer (.matchText pattern #[255, 42, 255]) = .captures (.ok [some ⟨0, word⟩]) ∧
      answer (.matchText pattern #[255, 42]) = .captures (.ok []) ∧
      answer (.search pattern #[255, 42, 255, 42, 255, 42, 255]) =
        .slices (.ok [⟨0, word⟩, ⟨4, word⟩]) := by
  intro word pattern answer
  have hquotes : Quotes pattern word := by
    refine ⟨[ascii "\\xfF", ascii "\\*", [255]], ?_, rfl⟩
    apply List.Forall₂.cons
    · exact .hexadecimal rfl rfl rfl
    apply List.Forall₂.cons
    · exact .escaped rfl
    apply List.Forall₂.cons
    · exact .plain rfl
    exact .nil
  have hword : word ≠ [] := List.cons_ne_nil _ _
  let text : Text := #[255, 42, 255, 42, 255, 42, 255]
  have hplaces : text.Occurrences word 0 [0, 4] := by
    apply Text.Occurrences.first (Nat.le_refl 0) (by decide)
    · intro other _ hlt
      cases hlt
    apply Text.Occurrences.first (Nat.le_succ 3) (by decide)
    · intro other hle hlt
      obtain rfl : other = 3 := Nat.le_antisymm (Nat.le_of_lt_succ hlt) hle
      decide
    apply Text.Occurrences.none
    intro offset hle hhas
    have hbehind : 7 ≤ offset := hle
    have hend : offset + 3 ≤ 7 := hhas.le hword
    omega
  obtain ⟨-, hlisted⟩ :=
    quoted_word_is_searched_literally hquotes hword { stepLimit := 0 } fun _ => []
  obtain ⟨-, starts, hstarts, hsearch⟩ := hlisted rfl text
  obtain rfl := (hstarts [0, 4]).mp hplaces
  exact ⟨hquotes, hword, (hlisted rfl #[255, 42, 255]).1, (hlisted rfl #[255, 42]).1, hsearch⟩

end RegexSearch
