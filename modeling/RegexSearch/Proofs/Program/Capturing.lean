import Mathlib.Data.List.Forall2
import RegexSearch.Proofs.Enumeration
import RegexSearch.Proofs.Pattern.Derivation

/-!
Capturing does not show in what is matched. If some groups of a pattern without backreferences stop
capturing, and the others go on with the same numbers or with new ones, the outcomes of the pattern
stay the same one by one: each comes to the same place, and each group that goes on capturing has
captured the same there. So the attempts find the same matches, and so do the scans that are made
of them, although the programs differ in their length, in what they log and in whether they begin
with a test for the beginning of the text.
-/

namespace RegexSearch

namespace Tree

/-- The pattern in which a capturing group has the number that `keep` gives it, and does not capture
if it gives none. -/
def renumber (keep : Nat → Option Nat) : Tree → Tree
  | atom position a => atom position a
  | group position index body => group position (index.bind keep) (body.renumber keep)
  | cat first rest => cat (first.renumber keep) (rest.renumber keep)
  | alt first rest => alt (first.renumber keep) (rest.renumber keep)
  | rep body times => rep (body.renumber keep) times

end Tree

/-- Groups that go on capturing have different numbers, from one to `count`. -/
structure Renumbering (keep : Nat → Option Nat) (groups : List Nat) (count : Nat) : Prop where
  bounds : ∀ index ∈ groups, ∀ number, keep index = some number → 0 < number ∧ number ≤ count
  unique : ∀ index ∈ groups, ∀ other ∈ groups, ∀ number, keep index = some number →
    keep other = some number → index = other

/-- Two places of a text are the same one, and each of the groups that go on capturing has captured
the same there. -/
structure Outcome.Corresponds (keep : Nat → Option Nat) (groups : List Nat) (here here' : Outcome) :
    Prop where
  offset : here'.offset = here.offset
  captures : ∀ index ∈ groups, ∀ number, keep index = some number →
    here'.captures number = here.captures index

/-- Two matches are in the same place, and each of the groups that go on capturing has the same
capture in both. -/
structure Match.Corresponds (keep : Nat → Option Nat) (groups : List Nat) (found found' : Match) :
    Prop where
  span : found'.span = found.span
  captures : ∀ index ∈ groups, ∀ number, keep index = some number →
    ∃ capture, found.groups[index]? = some capture ∧ found'.groups[number]? = some capture

/-! ### Renumbered trees -/

section Renumber

variable {keep : Nat → Option Nat} {tree : Tree} {count count' : Nat}

theorem Renumbering.mono {groups groups' : List Nat} (h : Renumbering keep groups' count)
    (hsubset : groups ⊆ groups') : Renumbering keep groups count where
  bounds := fun index hmem => h.bounds index (hsubset hmem)
  unique := fun index hmem other hother =>
    h.unique index (hsubset hmem) other (hsubset hother)

theorem groups_renumber (keep : Nat → Option Nat) (tree : Tree) :
    (tree.renumber keep).groups = tree.groups.filterMap keep := by
  induction tree with
  | atom position a => rfl
  | group position index body ih =>
      cases index with
      | none => exact ih
      | some index => cases hkeep : keep index <;> simp [Tree.renumber, Tree.groups, hkeep, ih]
  | cat first rest ihf ihr => simp [Tree.renumber, Tree.groups, ihf, ihr]
  | alt first rest ihf ihr => simp [Tree.renumber, Tree.groups, ihf, ihr]
  | rep body times ih => exact ih

theorem Tree.Grouped.renumber (h : tree.Grouped count)
    (hkeep : Renumbering keep tree.groups count') : (tree.renumber keep).Grouped count' := by
  induction tree with
  | atom position a => trivial
  | group position index body ih =>
      cases index with
      | none => exact ih h hkeep
      | some index =>
          obtain ⟨-, -, hfresh, hgrouped⟩ := h
          have hbody := ih hgrouped (hkeep.mono (List.subset_cons_self _ _))
          simp only [Tree.renumber, Option.bind_some]
          cases hnumber : keep index with
          | none => exact hbody
          | some number =>
              obtain ⟨hpositive, hle⟩ := hkeep.bounds index List.mem_cons_self number hnumber
              refine ⟨hpositive, hle, ?_, hbody⟩
              rw [groups_renumber]
              intro hmem
              obtain ⟨other, hother, hsame⟩ := List.mem_filterMap.mp hmem
              obtain rfl := hkeep.unique index List.mem_cons_self other
                (List.mem_cons_of_mem _ hother) number hnumber hsame
              exact hfresh hother
  | cat first rest ihf ihr =>
      exact ⟨ihf h.1 (hkeep.mono (List.subset_append_left _ _)),
        ihr h.2 (hkeep.mono (List.subset_append_right _ _))⟩
  | alt first rest ihf ihr =>
      exact ⟨ihf h.1 (hkeep.mono (List.subset_append_left _ _)),
        ihr h.2 (hkeep.mono (List.subset_append_right _ _))⟩
  | rep body times ih => exact ih h hkeep

end Renumber

/-! ### Repetitions of corresponding rounds -/

section Repetition

variable {related : Outcome → Outcome → Prop} {round round' : Outcome → List Outcome}

theorem forall₂_prefer {further further' : List Outcome} {here here' : Outcome}
    (hfurther : List.Forall₂ related further further') (hhere : related here here')
    (greedy : Bool) :
    List.Forall₂ related (prefer greedy further here) (prefer greedy further' here') := by
  cases greedy with
  | true => exact List.rel_append hfurther (.cons hhere .nil)
  | false => exact .cons hhere hfurther

variable (hoffset : ∀ here here', related here here' → here'.offset = here.offset)
  (hround : ∀ here here', related here here' → List.Forall₂ related (round here) (round' here'))

include hround

theorem forall₂_rounds {count : Nat} {here here' : Outcome} (hhere : related here here') :
    List.Forall₂ related (rounds round count here) (rounds round' count here') := by
  induction count generalizing here here' with
  | zero => exact .cons hhere .nil
  | succ count ih =>
      apply List.rel_flatMap (hround here here' hhere)
      intro there there' hthere
      exact ih hthere

theorem forall₂_optionals {greedy : Bool} {count : Nat} {here here' : Outcome}
    (hhere : related here here') :
    List.Forall₂ related (optionals round greedy count here)
      (optionals round' greedy count here') := by
  induction count generalizing here here' with
  | zero => exact .cons hhere .nil
  | succ count ih =>
      apply forall₂_prefer _ hhere
      apply List.rel_flatMap (hround here here' hhere)
      intro there there' hthere
      exact ih hthere

include hoffset

theorem forall₂_anyRounds {greedy : Bool} {left : Nat} {here here' : Outcome}
    (hhere : related here here') :
    List.Forall₂ related (anyRounds round greedy left here)
      (anyRounds round' greedy left here') := by
  induction left generalizing here here' with
  | zero => exact .cons hhere .nil
  | succ left ih =>
      apply forall₂_prefer _ hhere
      apply List.rel_flatMap (hround here here' hhere)
      intro there there' hthere
      dsimp only
      rw [hoffset here here' hhere, hoffset there there' hthere]
      split
      · exact ih hthere
      · exact .nil

theorem forall₂_someRounds {greedy : Bool} {left : Nat} {here here' : Outcome}
    (hhere : related here here') :
    List.Forall₂ related (someRounds round greedy left here)
      (someRounds round' greedy left here') := by
  induction left generalizing here here' with
  | zero => exact hround here here' hhere
  | succ left ih =>
      apply List.rel_flatMap (hround here here' hhere)
      intro there there' hthere
      dsimp only
      rw [hoffset here here' hhere, hoffset there there' hthere]
      split
      · exact forall₂_prefer (ih hthere) hthere greedy
      · exact .cons hthere .nil

/-- Rounds that correspond make up repetitions that correspond. -/
theorem Quantifier.forall₂_outcomes (times : Quantifier) (text : Text) {here here' : Outcome}
    (hhere : related here here') :
    List.Forall₂ related (times.outcomes round text here) (times.outcomes round' text here') := by
  obtain ⟨min, max, greedy⟩ := times
  cases max with
  | some max =>
      apply List.rel_flatMap (forall₂_rounds hround hhere)
      intro there there' hthere
      exact forall₂_optionals hround hthere
  | none =>
      cases min with
      | zero =>
          simp only [Quantifier.outcomes, hoffset here here' hhere]
          exact forall₂_anyRounds hoffset hround hhere
      | succ before =>
          apply List.rel_flatMap (forall₂_rounds hround hhere)
          intro there there' hthere
          dsimp only
          rw [hoffset there there' hthere]
          exact forall₂_someRounds hoffset hround hthere

end Repetition

/-! ### Outcomes of renumbered trees -/

section Outcomes

variable {keep : Nat → Option Nat} {groups : List Nat} {count : Nat} {text : Text}
  {here here' : Outcome}

theorem Outcome.Corresponds.advance (h : here.Corresponds keep groups here') (length : Nat) :
    (here.advance length).Corresponds keep groups (here'.advance length) where
  offset := congrArg (· + length) h.offset
  captures := h.captures

theorem Outcome.Corresponds.consumeIf (h : here.Corresponds keep groups here')
    (condition : Byte → Bool) :
    List.Forall₂ (Outcome.Corresponds keep groups) (here.consumeIf text condition)
      (here'.consumeIf text condition) := by
  simp only [Outcome.consumeIf, h.offset]
  cases text[here.offset]? with
  | none => exact .nil
  | some b =>
      dsimp only
      split
      · exact .cons (h.advance 1) .nil
      · exact .nil

/-- A group that captures closes on both sides, under its old number and its new one. -/
theorem Outcome.Corresponds.close (h : here.Corresponds keep groups here')
    (hkeep : Renumbering keep groups count) {index number start : Nat} (hmem : index ∈ groups)
    (hnumber : keep index = some number) :
    (here.close index start).Corresponds keep groups (here'.close number start) where
  offset := h.offset
  captures := by
    intro other hother number' hnumber'
    simp only [Outcome.close, h.offset]
    by_cases hsame : other = index
    · subst hsame
      obtain rfl : number' = number := Option.some.inj (hnumber'.symm.trans hnumber)
      rw [Function.update_self, Function.update_self]
    · have hdiffers : number' ≠ number := by
        rintro rfl
        exact hsame (hkeep.unique other hother index hmem number' hnumber' hnumber)
      rw [Function.update_of_ne hsame, Function.update_of_ne hdiffers]
      exact h.captures other hother number' hnumber'

/-- A group that no longer captures closes on one side only. -/
theorem Outcome.Corresponds.close_left (h : here.Corresponds keep groups here') {index start : Nat}
    (hnone : keep index = none) : (here.close index start).Corresponds keep groups here' where
  offset := h.offset
  captures := by
    intro other hother number hnumber
    have hdiffers : other ≠ index := by
      rintro rfl
      cases hnone.symm.trans hnumber
    simp only [Outcome.close, Function.update_of_ne hdiffers]
    exact h.captures other hother number hnumber

theorem Atom.forall₂_outcomes {a : Atom} (hfree : ∀ group, a ≠ .backref group)
    (h : here.Corresponds keep groups here') :
    List.Forall₂ (Outcome.Corresponds keep groups) (a.outcomes text here)
      (a.outcomes text here') := by
  cases a with
  | byte value => exact h.consumeIf (· == value)
  | set members => exact h.consumeIf members.contains
  | any => exact h.consumeIf (!·.isNewline)
  | backref group => exact absurd rfl (hfree group)
  | anchor kind =>
      simp only [Atom.outcomes, h.offset]
      split
      · exact .cons h .nil
      · exact .nil

/-- The outcomes of a renumbered pattern correspond to those of the pattern, one by one. -/
theorem Tree.forall₂_outcomes_renumber {tree : Tree} (hfree : tree.BackrefFree)
    (hkeep : Renumbering keep groups count) (hsubset : tree.groups ⊆ groups)
    (h : here.Corresponds keep groups here') :
    List.Forall₂ (Outcome.Corresponds keep groups) (tree.outcomes text here)
      ((tree.renumber keep).outcomes text here') := by
  induction tree generalizing here here' with
  | atom position a => exact Atom.forall₂_outcomes hfree h
  | group position index body ih =>
      cases index with
      | none => exact ih hfree hsubset h
      | some index =>
          obtain ⟨hmem, hbody⟩ := List.cons_subset.mp hsubset
          have hinner := ih hfree hbody h
          simp only [renumber, outcomes, Option.bind_some]
          cases hnumber : keep index with
          | none =>
              rw [outcomes, List.forall₂_map_left_iff]
              exact hinner.imp fun _ _ hthere => hthere.close_left hnumber
          | some number =>
              rw [outcomes, List.forall₂_map_left_iff, List.forall₂_map_right_iff, h.offset]
              exact hinner.imp fun _ _ hthere => hthere.close hkeep hmem hnumber
  | cat first rest ihf ihr =>
      obtain ⟨hfirst, hrest⟩ := List.append_subset.mp hsubset
      apply List.rel_flatMap (ihf hfree.1 hfirst h)
      intro there there' hthere
      exact ihr hfree.2 hrest hthere
  | alt first rest ihf ihr =>
      obtain ⟨hfirst, hrest⟩ := List.append_subset.mp hsubset
      exact List.rel_append (ihf hfree.1 hfirst h) (ihr hfree.2 hrest h)
  | rep body times ih =>
      apply Quantifier.forall₂_outcomes (fun _ _ hthere => hthere.offset) _ times text h
      intro there there' hthere
      exact ih hfree hsubset hthere

theorem Outcome.Corresponds.toMatch (h : here.Corresponds keep groups here')
    (hkeep : Renumbering keep groups count) {total : Nat}
    (hbounds : ∀ index ∈ groups, 0 < index ∧ index ≤ total) (start : Nat) :
    (here.toMatch start total).Corresponds keep groups (here'.toMatch start count) where
  span := by simp only [Outcome.toMatch, h.offset]
  captures := by
    intro index hmem number hnumber
    obtain ⟨hpositive, hle⟩ := hbounds index hmem
    obtain ⟨hpositive', hle'⟩ := hkeep.bounds index hmem number hnumber
    obtain ⟨before, rfl⟩ := Nat.exists_eq_succ_of_ne_zero hpositive.ne'
    obtain ⟨before', rfl⟩ := Nat.exists_eq_succ_of_ne_zero hpositive'.ne'
    refine ⟨here.captures (before + 1), ?_, ?_⟩
    · simp [Outcome.toMatch, Nat.lt_of_succ_le hle]
    · simp [Outcome.toMatch, Nat.lt_of_succ_le hle', h.captures _ hmem _ hnumber]

end Outcomes

/-! ### Attempts and scans -/

/-- The first of two corresponding lists that satisfies a condition, if the condition holds of
corresponding members alike. -/
theorem rel_find? {α β : Type} {related : α → β → Prop} {condition : α → Bool}
    {condition' : β → Bool} (hcondition : ∀ a b, related a b → condition' b = condition a)
    {list : List α} {list' : List β} (h : List.Forall₂ related list list') :
    Option.Rel related (list.find? condition) (list'.find? condition') := by
  induction h with
  | nil => exact .none
  | @cons a b rest rest' hhead htail ih =>
      rw [List.find?_cons, List.find?_cons, hcondition a b hhead]
      cases condition a with
      | true => exact .some hhead
      | false => exact ih

/-- Where a scan goes on depends on the place of the match only. -/
theorem resumption_eq {found found' : Match} (h : found'.span = found.span) :
    found'.resumption = found.resumption := by
  obtain ⟨span, captured⟩ := found
  obtain ⟨span', captured'⟩ := found'
  cases h
  rfl

namespace Search

/-- At every offset both searches have an answer, and the answers are related. -/
structure Corresponds (related : Match → Match → Prop) (search search' : Search) : Prop where
  text : search'.text = search.text
  attempts : ∀ offset, offset < search.text.size → ∃ answer answer',
    search.attemptAt offset = .ok answer ∧ search'.attemptAt offset = .ok answer' ∧
      Option.Rel related answer answer'

variable {related : Match → Match → Prop} {search search' : Search}

theorem Corresponds.attempt_none_iff (h : Corresponds related search search') {offset : Nat}
    (hoffset : offset < search.text.size) :
    search.attemptAt offset = .ok none ↔ search'.attemptAt offset = .ok none := by
  obtain ⟨answer, answer', hanswer, hanswer', hrel⟩ := h.attempts offset hoffset
  rw [hanswer, hanswer']
  cases hrel <;> simp

theorem Corresponds.barren_iff (h : Corresponds related search search') {first last : Nat}
    (hlast : last ≤ search.text.size) :
    search.Barren first last ↔ search'.Barren first last := by
  constructor
  · intro hbarren offset hle hlt
    exact (h.attempt_none_iff (by omega)).mp (hbarren offset hle hlt)
  · intro hbarren offset hle hlt
    exact (h.attempt_none_iff (by omega)).mpr (hbarren offset hle hlt)

/-- The first matches from an offset on are found at the same place. -/
theorem Corresponds.firstFrom (h : Corresponds related search search')
    (hspan : ∀ found found', related found found' → found'.span = found.span) {position : Nat}
    {found found' : Match} (hfirst : search.FirstFrom position found)
    (hfirst' : search'.FirstFrom position found') : related found found' := by
  have hsize : found'.span.start < search.text.size := h.text ▸ hfirst'.start_lt
  obtain ⟨answer, answer', hanswer, hanswer', hrel⟩ := h.attempts _ hfirst.start_lt
  rw [hfirst.attempted] at hanswer
  cases hanswer
  cases hrel with
  | @some _ other hother =>
      have hplace : other.span.start = found.span.start := by rw [hspan found other hother]
      have hother' : search'.FirstFrom position other :=
        ⟨hplace ▸ hfirst.position_le, by rw [hplace, h.text]; exact hfirst.start_lt,
          hplace ▸ hanswer', by
            rw [hplace]
            exact (h.barren_iff hfirst.start_lt.le).mp hfirst.barren⟩
      rw [hfirst'.unique hother']
      exact hother

/-- Where nothing is found in one search, there is no first match in the other. -/
theorem Corresponds.not_firstFrom (h : Corresponds related search search') {position : Nat}
    {found' : Match} (hbarren : search.Barren position search.text.size) :
    ¬ search'.FirstFrom position found' := by
  intro hfirst'
  rw [h.barren_iff (Nat.le_refl _), ← h.text] at hbarren
  have hle := hbarren.le_start hfirst'.attempted hfirst'.position_le
  exact absurd hfirst'.start_lt (Nat.not_lt_of_le hle)

/-- The matches that are enumerated to the end correspond one by one. -/
theorem Enumerates.forall₂ (h : Corresponds related search search')
    (hspan : ∀ found found', related found found' → found'.span = found.span)
    {position behind behind' : Nat} {found found' : List Match}
    (henumerates : search.Enumerates position found behind)
    (hend : search.Barren behind search.text.size)
    (henumerates' : search'.Enumerates position found' behind')
    (hend' : search'.Barren behind' search'.text.size) :
    List.Forall₂ related found found' := by
  induction henumerates generalizing found' with
  | done position =>
      cases henumerates' with
      | done => exact .nil
      | more first' _ => exact absurd first' (h.not_firstFrom hend)
  | @more position behind first rest hfirst others ih =>
      cases henumerates' with
      | done =>
          rw [h.text, ← h.barren_iff (Nat.le_refl _)] at hend'
          have hle := hend'.le_start hfirst.attempted hfirst.position_le
          exact absurd hfirst.start_lt (Nat.not_lt_of_le hle)
      | @more _ _ first' rest' hfirst' others' =>
          have hrelated := h.firstFrom hspan hfirst hfirst'
          rw [resumption_eq (hspan first first' hrelated)] at others'
          exact .cons hrelated (ih hend others')

/-- Without a limit all matches are listed, up to the end of the text. -/
theorem exists_findAll {tree : Tree} {groups : Nat} (hgrouped : tree.Grouped groups)
    (text : Text) :
    let search : Search := ⟨.ofTree tree groups, text, .unlimited⟩
    ∃ found behind, search.findAll = .ok found ∧ search.Enumerates 0 found behind ∧
      search.Barren behind text.size := by
  intro search
  have hsearch : search.FromTree := ⟨tree, groups, hgrouped, rfl⟩
  rcases hsearch.findAll_cases with hall | ⟨offset, -, ⟨-, -, -, -, hoffset, -⟩, htimeout⟩
  · exact hall
  · have hanswer := attempt_ofTree hgrouped false hoffset.le
    cases hanswer.symm.trans htimeout

end Search

/-- An attempt with the program of a renumbered tree finds what an attempt with the program of the
tree finds. -/
theorem exists_attempts_renumber {tree : Tree} {keep : Nat → Option Nat} {groups groups' : Nat}
    (hnumbers : tree.groups = List.range' 1 groups) (hgrouped : tree.Grouped groups)
    (hfree : tree.BackrefFree) (hkeep : Renumbering keep tree.groups groups') {text : Text}
    (anchoredEnd : Bool) {start : Nat} (hstart : start ≤ text.size) :
    ∃ answer answer', attempt (.ofTree tree groups) text .unlimited anchoredEnd start =
        .ok answer ∧
      attempt (.ofTree (tree.renumber keep) groups') text .unlimited anchoredEnd start =
        .ok answer' ∧
      Option.Rel (Match.Corresponds keep tree.groups) answer answer' := by
  refine ⟨_, _, attempt_ofTree hgrouped anchoredEnd hstart,
    attempt_ofTree (hgrouped.renumber hkeep) anchoredEnd hstart, ?_⟩
  have hhere : (Outcome.start start).Corresponds keep tree.groups (.start start) :=
    ⟨rfl, fun _ _ _ _ => rfl⟩
  have houtcomes : List.Forall₂ (Outcome.Corresponds keep tree.groups)
      (tree.outcomes text (.start start)) ((tree.renumber keep).outcomes text (.start start)) :=
    Tree.forall₂_outcomes_renumber hfree hkeep (List.Subset.refl _) hhere
  have hcounts : ∀ out out', Outcome.Corresponds keep tree.groups out out' →
      out'.counts anchoredEnd text = out.counts anchoredEnd text := by
    intro out out' hout
    simp only [Outcome.counts, hout.offset]
  have hbounds : ∀ index ∈ tree.groups, 0 < index ∧ index ≤ groups := by
    intro index hmem
    rw [hnumbers, List.mem_range'_1] at hmem
    omega
  have hfirst := rel_find? hcounts houtcomes
  revert hfirst
  generalize (tree.outcomes text (.start start)).find? _ = first
  generalize ((tree.renumber keep).outcomes text (.start start)).find? _ = first'
  intro hfirst
  cases hfirst with
  | none => exact .none
  | some hout => exact .some (hout.toMatch hkeep hbounds start)

/-- Capturing does not show in where a pattern without backreferences matches. Take the program of a
tree that has been read, and the program of the tree in which only some of its groups capture, under
their old numbers or under new ones. Without a limit, attempts with the two at any offset have
answers: both find a match or neither does, the matches are in the same place, and each group that
still captures has the same capture in both. The same holds of all matches in a text, one by one. -/
theorem matches_agree_of_renumber {maxUnroll maxUnroll' groups' : Nat} {pattern : Bytes}
    {tree : Tree} {keep : Nat → Option Nat} {program program' : Program}
    (hread : (readPattern pattern).result = .ok tree) (hfree : tree.BackrefFree)
    (hkeep : Renumbering keep tree.groups groups')
    (hlower : Program.lower maxUnroll tree (readPattern pattern).groups = .ok program)
    (hlower' : Program.lower maxUnroll' (tree.renumber keep) groups' = .ok program')
    (text : Text) :
    (∀ anchoredEnd start, start ≤ text.size → ∃ answer answer',
      attempt program text .unlimited anchoredEnd start = .ok answer ∧
      attempt program' text .unlimited anchoredEnd start = .ok answer' ∧
      Option.Rel (Match.Corresponds keep tree.groups) answer answer') ∧
    ∃ found found', Search.findAll ⟨program, text, .unlimited⟩ = .ok found ∧
      Search.findAll ⟨program', text, .unlimited⟩ = .ok found' ∧
      found'.map Match.span = found.map Match.span ∧
      List.Forall₂ (Match.Corresponds keep tree.groups) found found' := by
  have hgrouped := grouped_of_readPattern hread
  rw [ofTree_of_lower hlower, ofTree_of_lower hlower']
  have hattempts (anchoredEnd : Bool) (start : Nat) (hstart : start ≤ text.size) :=
    exists_attempts_renumber (groups_of_readPattern hread) hgrouped hfree hkeep anchoredEnd hstart
  refine ⟨hattempts, ?_⟩
  obtain ⟨found, behind, hfound, henumerates, hbarren⟩ := Search.exists_findAll hgrouped text
  obtain ⟨found', behind', hfound', henumerates', hbarren'⟩ :=
    Search.exists_findAll (hgrouped.renumber hkeep) text
  have hcorresponds : Search.Corresponds (Match.Corresponds keep tree.groups)
      ⟨.ofTree tree (readPattern pattern).groups, text, .unlimited⟩
      ⟨.ofTree (tree.renumber keep) groups', text, .unlimited⟩ :=
    ⟨rfl, fun offset hoffset => hattempts false offset hoffset.le⟩
  have hall : List.Forall₂ (Match.Corresponds keep tree.groups) found found' :=
    henumerates.forall₂ hcorresponds (fun _ _ hmatch => hmatch.span) hbarren henumerates' hbarren'
  refine ⟨found, found', hfound, hfound', ?_, hall⟩
  have hspans : List.Forall₂ Eq (found'.map Match.span) (found.map Match.span) := by
    rw [List.forall₂_map_left_iff, List.forall₂_map_right_iff]
    exact hall.flip.imp fun _ _ hmatch => hmatch.span
  rwa [List.forall₂_eq_eq_eq] at hspans

/-- If the first group of `(^a)(b)?` no longer captures, the program begins with the test for the
beginning of the text, so that a scan tries it once. The second group becomes the first one, and has
the same capture in the one match in `abab`. -/
theorem matches_agree_of_renumber_of_hidden_anchor :
    let tree := Tree.cat
      (.group 0 (some 1) (.cat (.atom 1 (.anchor .textBegin)) (.atom 2 (.byte 97))))
      (.rep (.group 4 (some 2) (.atom 5 (.byte 98))) ⟨0, some 1, true⟩)
    let keep (index : Nat) : Option Nat := if index = 2 then some 1 else none
    let program := Program.ofTree tree 2
    let program' := Program.ofTree (tree.renumber keep) 1
    (compilePattern 2000 (ascii "(^a)(b)?")).program = .ok program ∧
      program.anchoredAtBegin = false ∧ program'.anchoredAtBegin = true ∧
      attempt program #[97, 98, 97, 98] .unlimited false 0 =
        .ok (some ⟨⟨0, 2⟩, [some ⟨0, 2⟩, some ⟨0, 1⟩, some ⟨1, 2⟩]⟩) ∧
      ∃ found', attempt program' #[97, 98, 97, 98] .unlimited false 0 = .ok (some found') ∧
        found'.span = ⟨0, 2⟩ ∧ found'.groups[1]? = some (some ⟨1, 2⟩) := by
  intro tree keep program program'
  have hread : (readPattern (ascii "(^a)(b)?")).result = .ok tree := rfl
  have hfree : tree.BackrefFree := by simp [tree, Tree.BackrefFree]
  have hkeep : Renumbering keep tree.groups 1 := by
    constructor <;> simp [tree, Tree.groups, keep]
  have hlower : Program.lower 2000 tree (readPattern (ascii "(^a)(b)?")).groups =
      .ok program := rfl
  have hlower' : Program.lower 2000 (tree.renumber keep) 1 = .ok program' := rfl
  obtain ⟨hattempts, -⟩ :=
    matches_agree_of_renumber hread hfree hkeep hlower hlower' #[97, 98, 97, 98]
  obtain ⟨answer, answer', hanswer, hanswer', hrel⟩ := hattempts false 0 (Nat.zero_le _)
  have hfound : attempt program #[97, 98, 97, 98] .unlimited false 0 =
      .ok (some ⟨⟨0, 2⟩, [some ⟨0, 2⟩, some ⟨0, 1⟩, some ⟨1, 2⟩]⟩) :=
    (attempt_ofTree (grouped_of_readPattern hread) false (Nat.zero_le _)).trans rfl
  rw [hfound] at hanswer
  cases hanswer
  cases hrel with
  | @some _ found' hsame =>
      obtain ⟨capture, hcapture, hcapture'⟩ := hsame.captures 2 (by simp [tree, Tree.groups]) 1 rfl
      cases hcapture
      exact ⟨rfl, rfl, rfl, hfound, found', hanswer', hsame.span, hcapture'⟩

end RegexSearch
