import RegexSearch.Proofs.Pattern.FirstOutcomes
import RegexSearch.Proofs.Pattern.Nodes
import RegexSearch.Proofs.Program.Derivability

/-!
Loops and copies. Instead of a loop that asks for so many rounds, as many copies of its body can be
written in front of a loop that asks for none. The two differ in a round that consumes nothing: the
first loop keeps it and ends with it, whereas the copies go on to the second loop, which gives such
a round up.

Both still find the same match if the rounds are eager, as they are if each of them consumes
something, and if the repetition is lazy and the match may end anywhere. And without backreferences
either both find a match or neither does.
-/

namespace RegexSearch

namespace Tree

/-- So many copies of a tree, and a repetition of it that asks for no round. -/
def unrolled (body : Tree) (greedy : Bool) : Nat → Tree
  | 0 => rep body ⟨0, none, greedy⟩
  | copies + 1 => cat body (body.unrolled greedy copies)

end Tree

/-! ### One round or more -/

section Repetition

variable {round : Outcome → List Outcome} {greedy : Bool} {text : Text}

/-- The last of so many rounds can be split off as well as the first. -/
theorem rounds_succ (count : Nat) (here : Outcome) :
    rounds round (count + 1) here = (rounds round count here).flatMap round := by
  induction count generalizing here with
  | zero => simp [rounds]
  | succ count ih =>
      have hrest : (round here).flatMap (rounds round (count + 1)) =
          (round here).flatMap fun there => (rounds round count there).flatMap round :=
        List.flatMap_congr fun there _ => ih there
      rw [rounds, hrest, rounds, List.flatMap_assoc]

theorem starRound_congr {again again' : Outcome → List Outcome} {here : Outcome}
    (h : ∀ there ∈ round here, here.offset < there.offset → again there = again' there) :
    starRound round greedy again here = starRound round greedy again' here := by
  have hrounds : ((round here).flatMap fun there =>
      if here.offset < there.offset then again there else []) =
        (round here).flatMap fun there =>
          if here.offset < there.offset then again' there else [] := by
    apply List.flatMap_congr
    intro there hthere
    split
    · rename_i hlt
      exact h there hthere hlt
    · rfl
  rw [starRound, starRound, hrounds]

/-- A lazy repetition that may be left at once leaves where it begins. -/
theorem head?_anyRounds_lazy (left : Nat) (here : Outcome) :
    (anyRounds round false left here).head? = some here := by
  cases left <;> rfl

/-- A lazy repetition that asks for a round leaves where its first round ends. -/
theorem head?_someRounds_lazy (left : Nat) (here : Outcome) :
    (someRounds round false left here).head? = (round here).head? := by
  cases left with
  | zero => rfl
  | succ left =>
      cases hround : round here with
      | nil => simp [someRounds, hround]
      | cons there rest =>
          rw [someRounds, hround, List.flatMap_cons]
          split <;> rfl

theorem head?_flatMap_congr {places : List Outcome} {go go' : Outcome → List Outcome}
    (h : ∀ place, (go place).head? = (go' place).head?) :
    (places.flatMap go).head? = (places.flatMap go').head? := by
  induction places with
  | nil => rfl
  | cons place places ih =>
      rw [List.flatMap_cons, List.flatMap_cons, List.head?_append, List.head?_append, h, ih]

variable (hwithin : ∀ here there, here.Within text → there ∈ round here → there.Within text)

include hwithin

theorem within_of_mem_rounds {count : Nat} {here there : Outcome} (hhere : here.Within text)
    (hthere : there ∈ rounds round count here) : there.Within text :=
  rel_of_mem_rounds (fun a b => a.Within text → b.Within text) (fun _ h => h)
    (fun _ _ _ hab hbc h => hbc (hab h)) (fun a b hmem h => hwithin a b h hmem) hthere hhere

/-- More rounds than there are bytes left make no difference. -/
theorem anyRounds_eq_of_le {left more : Nat} {here : Outcome} (hhere : here.Within text)
    (hleft : text.size - here.offset ≤ left) (hmore : text.size - here.offset ≤ more) :
    anyRounds round greedy more here = anyRounds round greedy left here := by
  suffices hall : ∀ more, text.size - here.offset ≤ more →
      anyRounds round greedy more here = anyRounds round greedy left here from hall more hmore
  apply loop_induction (fun _ hwithin => hwithin.offset) (anyRounds_zero round greedy)
    (anyRounds_succ round greedy) ?_ hhere hleft (P := fun here outcomes => ∀ more,
      text.size - here.offset ≤ more → anyRounds round greedy more here = outcomes)
  intro again here hhere hagain more hmore
  cases more with
  | zero =>
      rw [anyRounds_zero]
      apply starRound_congr
      intro there hthere hlt
      have hsize := (hwithin here there hhere hthere).offset
      omega
  | succ more =>
      rw [anyRounds_succ]
      apply starRound_congr
      intro there hthere hlt
      exact hagain there (hwithin here there hhere hthere) hlt more (by omega)

/-- Any number of rounds are up to one round, and any number of rounds behind it. -/
theorem anyRounds_eq_starRound {here : Outcome} (hhere : here.Within text) :
    anyRounds round greedy (text.size - here.offset) here =
      starRound round greedy (fun there => anyRounds round greedy (text.size - there.offset) there)
        here := by
  have hmore : text.size - here.offset ≤ text.size - here.offset + 1 := Nat.le_succ _
  rw [← anyRounds_eq_of_le hwithin hhere (Nat.le_refl _) hmore, anyRounds_succ]
  apply starRound_congr
  intro there hthere hlt
  have hthereWithin := hwithin here there hhere hthere
  exact anyRounds_eq_of_le hwithin hthereWithin (Nat.le_refl _) (by omega)

/-! If the rounds are eager, a round that consumes nothing comes behind all others and leaves no
trace, so it matters neither to keep it nor to give it up. -/

variable (heager : ∀ here : Outcome, here.Within text → here.Eager (round here))

include heager

/-- Eager rounds and what any number of rounds find behind them, as far as an attempt can tell. -/
theorem exists_further {here : Outcome} (hhere : here.Within text) :
    let star (there : Outcome) := anyRounds round greedy (text.size - there.offset) there
    ∃ further last, (∀ there ∈ further, there.Within text ∧ here.offset < there.offset) ∧
      (last = [] ∨ last = [here]) ∧ SameFirst (round here) (further ++ last) ∧
      SameFirst (star here) (prefer greedy (further.flatMap star) here) ∧
      SameFirst ((round here).flatMap star) (further.flatMap star ++ last) := by
  intro star
  obtain ⟨further, last, hfurther, hlast, hround⟩ := heager here hhere
  have hstar : SameFirst (star here) (prefer greedy (further.flatMap star) here) := by
    have hgo : (further.flatMap fun there =>
        if here.offset < there.offset then star there else []) = further.flatMap star :=
      List.flatMap_congr fun there hthere => if_pos (hfurther there hthere)
    have hunfold : star here = starRound round greedy star here :=
      anyRounds_eq_starRound hwithin hhere
    rw [hunfold]
    refine SameFirst.prefer ((hround.flatMap_left _).trans ?_)
    rw [List.flatMap_append, hgo]
    rcases hlast with rfl | rfl <;> simp [SameFirst.refl]
  refine ⟨further, last, ?_, hlast, hround, hstar, (hround.flatMap_left star).trans ?_⟩
  · intro there hthere
    have hmem := (hround.mem_iff there).mpr (List.mem_append_left last hthere)
    exact ⟨hwithin here there hhere hmem, hfurther there hthere⟩
  · rw [List.flatMap_append]
    rcases hlast with rfl | rfl
    · exact .refl _
    · rw [List.flatMap_singleton]
      exact ((SameFirst.refl _).append hstar).trans (SameFirst.append_prefer _)

/-- One eager round or more are one round and any number of rounds behind it. -/
theorem someRounds_sameFirst {here : Outcome} (hhere : here.Within text) {left : Nat}
    (hleft : text.size - here.offset ≤ left) :
    SameFirst (someRounds round greedy left here)
      ((round here).flatMap fun there =>
        anyRounds round greedy (text.size - there.offset) there) := by
  let star (here : Outcome) := anyRounds round greedy (text.size - here.offset) here
  apply loop_induction (fun _ hwithin => hwithin.offset) (someRounds_zero round greedy)
    (someRounds_succ round greedy) ?_ hhere hleft (P := fun here outcomes =>
      SameFirst outcomes ((round here).flatMap star))
  intro again here hhere hagain
  -- to go on behind a round or to leave there is any number of rounds
  have hprefer (there : Outcome) (hthere : there.Within text) (hlt : here.offset < there.offset) :
      SameFirst (prefer greedy (again there) there) (star there) := by
    obtain ⟨further, last, -, hlast, -, hstar, hrest⟩ :=
      exists_further hwithin heager hthere
    have hgo : SameFirst (prefer greedy (again there) there)
        (prefer greedy (further.flatMap star ++ last) there) :=
      ((hagain there hthere hlt).trans hrest).prefer
    refine (hgo.trans ?_).trans hstar.symm
    rcases hlast with rfl | rfl
    · rw [List.append_nil]
      exact .refl _
    · exact SameFirst.prefer_append_self _
  obtain ⟨further, last, hfurther, hlast, hround, -, hrest⟩ :=
    exists_further hwithin heager hhere
  refine ((hround.flatMap_left _).trans ?_).trans hrest.symm
  rw [List.flatMap_append]
  refine SameFirst.append (SameFirst.flatMap_right ?_) ?_
  · intro there hthere
    obtain ⟨hthereWithin, hlt⟩ := hfurther there hthere
    rw [if_pos hlt]
    exact hprefer there hthereWithin hlt
  · rcases hlast with rfl | rfl <;> simp [SameFirst.refl]

end Repetition

namespace Tree

variable {body : Tree} {greedy : Bool} {text : Text}

theorem outcomes_unrolled (copies : Nat) (here : Outcome) :
    (body.unrolled greedy copies).outcomes text here =
      (rounds (body.outcomes text) copies here).flatMap fun there =>
        anyRounds (body.outcomes text) greedy (text.size - there.offset) there := by
  induction copies generalizing here with
  | zero => simp [unrolled, outcomes, rounds, Quantifier.outcomes]
  | succ copies ih =>
      rw [rounds, List.flatMap_assoc]
      exact List.flatMap_congr fun there _ => ih there

/-- To an attempt, the loop has the outcomes of its copies if its rounds are eager. -/
theorem loop_sameFirst_unrolled (heager : body.Eager text) (before : Nat) {here : Outcome}
    (hhere : here.Within text) :
    SameFirst ((rep body ⟨before + 1, none, greedy⟩).outcomes text here)
      ((body.unrolled greedy (before + 1)).outcomes text here) := by
  have hwithin (here there : Outcome) (hhere : here.Within text)
      (hthere : there ∈ body.outcomes text here) : there.Within text :=
    within_of_mem_outcomes hhere hthere
  rw [outcomes_unrolled, rounds_succ, List.flatMap_assoc]
  apply SameFirst.flatMap_right
  intro there hthere
  have hthereWithin := within_of_mem_rounds hwithin hhere hthere
  exact someRounds_sameFirst hwithin heager hthereWithin (Nat.le_refl _)

/-- A lazy loop and its copies have the same first outcome, the one of the required rounds. -/
theorem head?_loop_eq_unrolled (before : Nat) (here : Outcome) :
    ((rep body ⟨before + 1, none, false⟩).outcomes text here).head? =
      ((body.unrolled false (before + 1)).outcomes text here).head? := by
  rw [outcomes_unrolled, rounds_succ, List.flatMap_assoc]
  apply head?_flatMap_congr
  intro there
  have hleave : ((body.outcomes text there).flatMap fun last =>
      anyRounds (body.outcomes text) false (text.size - last.offset) last).head? =
      ((body.outcomes text there).flatMap fun last => [last]).head? :=
    head?_flatMap_congr fun last => head?_anyRounds_lazy _ last
  rw [hleave, List.flatMap_singleton', head?_someRounds_lazy]

/-! ### The parts of a tree -/

theorem Grouped.of_mem_nodes {count : Nat} {tree node : Tree} (h : tree.Grouped count)
    (hnode : node ∈ tree.nodes) : node.Grouped count := by
  refine Tree.of_mem_nodes ?_ (fun _ _ h => h) (fun _ _ h => h) (fun _ _ h => h) h hnode
  intro position index body hgroup
  cases index with
  | none => exact hgroup
  | some index => exact hgroup.2.2.2

theorem Ordered.of_mem_nodes {tree node : Tree} (h : tree.Ordered) (hnode : node ∈ tree.nodes) :
    node.Ordered :=
  Tree.of_mem_nodes (P := Ordered) (fun _ _ _ h => h) (fun _ _ h => h) (fun _ _ h => h)
    (fun _ _ h => h.2) h hnode

theorem grouped_unrolled {count : Nat} (h : body.Grouped count) (copies : Nat) :
    (body.unrolled greedy copies).Grouped count := by
  induction copies with
  | zero => exact h
  | succ copies ih => exact ⟨h, ih⟩

theorem backrefFree_unrolled (h : body.BackrefFree) (copies : Nat) :
    (body.unrolled greedy copies).BackrefFree := by
  induction copies with
  | zero => exact h
  | succ copies ih => exact ⟨h, ih⟩

theorem ordered_loop (h : body.Ordered) (count : Nat) :
    (rep body ⟨count, none, greedy⟩).Ordered := by
  refine ⟨?_, h⟩
  intro max hmax
  cases hmax

theorem ordered_unrolled (h : body.Ordered) (copies : Nat) :
    (body.unrolled greedy copies).Ordered := by
  induction copies with
  | zero => exact ordered_loop h 0
  | succ copies ih => exact ⟨h, ih⟩

theorem groups_unrolled (h : body.groups = []) (copies : Nat) :
    (body.unrolled greedy copies).groups = [] := by
  induction copies with
  | zero => exact h
  | succ copies ih => exact List.append_eq_nil_iff.mpr ⟨h, ih⟩

theorem derives_unrolled_iff (copies : Nat) {i j : Nat} :
    (body.unrolled greedy copies).Derives text i j ↔
      (rep body ⟨copies, none, greedy⟩).Derives text i j := by
  have hnone (count max : Nat) (hmax : (none : Option Nat) = some max) : count ≤ max := by
    cases hmax
  induction copies generalizing i with
  | zero => exact Iff.rfl
  | succ copies ih =>
      constructor
      · rintro ⟨middle, hbody, hrest⟩
        obtain ⟨count, hcount, -, hchain⟩ := ih.mp hrest
        have hmin : copies + 1 ≤ count + 1 := Nat.succ_le_succ hcount
        exact ⟨count + 1, hmin, hnone _, middle, hbody, hchain⟩
      · rintro ⟨count, hcount, -, hchain⟩
        have hmin : copies + 1 ≤ count := hcount
        cases count with
        | zero => omega
        | succ count =>
            obtain ⟨middle, hbody, hrest⟩ := hchain
            have hcopies : copies ≤ count := Nat.le_of_succ_le_succ hmin
            exact ⟨middle, hbody, ih.mpr ⟨count, hcopies, hnone _, hrest⟩⟩

/-- A tree without groups leaves all captures as they are. -/
theorem captures_of_mem_outcomes {tree : Tree} (hgroups : tree.groups = []) {here there : Outcome}
    (h : there ∈ tree.outcomes text here) : there.captures = here.captures := by
  induction tree generalizing here there with
  | atom position a =>
      obtain ⟨count, rfl⟩ := Atom.exists_advance h
      rfl
  | group position index body ih =>
      cases index with
      | none => exact ih hgroups h
      | some index => cases hgroups
  | cat first rest ihf ihr =>
      obtain ⟨hfirst, hrest⟩ := List.append_eq_nil_iff.mp hgroups
      obtain ⟨middle, hmiddle, hthere⟩ := List.mem_flatMap.mp h
      exact (ihr hrest hthere).trans (ihf hfirst hmiddle)
  | alt first rest ihf ihr =>
      obtain ⟨hfirst, hrest⟩ := List.append_eq_nil_iff.mp hgroups
      rcases List.mem_append.mp h with h | h
      · exact ihf hfirst h
      · exact ihr hrest h
  | rep body times ih =>
      exact Quantifier.rel_of_mem_outcomes (fun a b => b.captures = a.captures) (fun _ => rfl)
        (fun _ _ _ hab hbc => hbc.trans hab) (fun _ _ hmem => ih hgroups hmem) h

end Tree

/-! ### The programs of a loop and of its copies -/

/-- Trees that derive the same segments let their programs succeed at the same places. -/
theorem exists_attempt_iff_of_derives_iff {tree tree' : Tree} {groups : Nat} {text : Text}
    {start : Nat} (hgrouped : tree.Grouped groups) (hgrouped' : tree'.Grouped groups)
    (hfree : tree.BackrefFree) (hfree' : tree'.BackrefFree) (hordered : tree.Ordered)
    (hordered' : tree'.Ordered) (hstart : start ≤ text.size)
    (hiff : ∀ stop, tree.Derives text start stop ↔ tree'.Derives text start stop)
    (anchoredEnd : Bool) :
    (∃ found, attempt (Program.ofTree tree groups) text .unlimited anchoredEnd start =
        .ok (some found)) ↔
      ∃ found, attempt (Program.ofTree tree' groups) text .unlimited anchoredEnd start =
        .ok (some found) := by
  obtain ⟨hanchored, hfound⟩ := exists_attempt_iff_derives_ofTree hgrouped hfree hordered hstart
  obtain ⟨hanchored', hfound'⟩ :=
    exists_attempt_iff_derives_ofTree hgrouped' hfree' hordered' hstart
  cases anchoredEnd with
  | true => rw [hanchored, hanchored', hiff]
  | false => rw [hfound, hfound', exists_congr hiff]

/-- Without groups, a match of the whole rest of the text is determined by its beginning. -/
theorem attempt_eq_of_isSome_iff {tree tree' : Tree} {groups : Nat} {text : Text} {start : Nat}
    (hgrouped : tree.Grouped groups) (hgrouped' : tree'.Grouped groups)
    (hgroups : tree.groups = []) (hgroups' : tree'.groups = []) (hstart : start ≤ text.size)
    (hiff : (∃ found, attempt (Program.ofTree tree groups) text .unlimited true start =
        .ok (some found)) ↔
      ∃ found, attempt (Program.ofTree tree' groups) text .unlimited true start =
        .ok (some found)) :
    attempt (Program.ofTree tree groups) text .unlimited true start =
      attempt (Program.ofTree tree' groups) text .unlimited true start := by
  have hmatch {tree : Tree} {found : Match} (hgrouped : tree.Grouped groups)
      (hgroups : tree.groups = [])
      (hattempt : attempt (Program.ofTree tree groups) text .unlimited true start =
        .ok (some found)) :
      found = (Outcome.start text.size).toMatch start groups := by
    rw [attempt_ofTree hgrouped true hstart] at hattempt
    obtain ⟨out, hout, rfl⟩ := Option.map_eq_some_iff.mp (Except.ok.inj hattempt)
    have hcounts : out.offset = text.size := by
      simpa [Outcome.counts] using List.find?_some hout
    have hcaptures := Tree.captures_of_mem_outcomes hgroups (List.mem_of_find?_eq_some hout)
    have hend : out = Outcome.start text.size := by
      obtain ⟨offset, captures⟩ := out
      exact congrArg₂ Outcome.mk hcounts hcaptures
    rw [hend]
  obtain ⟨answer, hanswer⟩ : ∃ answer, attempt (Program.ofTree tree groups) text .unlimited true
      start = .ok answer := ⟨_, attempt_ofTree hgrouped true hstart⟩
  obtain ⟨answer', hanswer'⟩ : ∃ answer, attempt (Program.ofTree tree' groups) text .unlimited
      true start = .ok answer := ⟨_, attempt_ofTree hgrouped' true hstart⟩
  rw [hanswer, hanswer'] at hiff ⊢
  cases answer with
  | some found =>
      obtain ⟨found', hfound'⟩ := hiff.mp ⟨found, rfl⟩
      rw [hfound'] at hanswer' ⊢
      rw [hmatch hgrouped hgroups hanswer, hmatch hgrouped' hgroups' hanswer']
  | none =>
      cases answer' with
      | none => rfl
      | some found' =>
          obtain ⟨found, hfound⟩ := hiff.mpr ⟨found', rfl⟩
          cases hfound

/-- What the program of a loop that asks for rounds finds, and how it compares with the program of
as many copies in front of a loop that asks for none. Each of the required rounds but the last is a
plain one. The last may be followed by others as long as each has consumed something, and a round
that consumes nothing counts and is the last.

So both programs find the same match if the rounds are eager: if they cannot be empty, if the form
of the body tells it, or at least in this text. They also do if the loop is lazy and the match may
end anywhere. Without backreferences both find a match or neither does, which is the same one if
the end is anchored and nothing is captured. -/
theorem attempt_loop_and_unrolled {maxUnroll : Nat} {pattern : Bytes} {tree body : Tree}
    {greedy : Bool} {count : Nat} {looped unrolled : Program} {text : Text} {start : Nat}
    (hread : (readPattern pattern).result = .ok tree) (hbody : body ∈ tree.nodes)
    (hcount : 1 ≤ count)
    (hlooped : Program.lower maxUnroll (.rep body ⟨count, none, greedy⟩)
      (readPattern pattern).groups = .ok looped)
    (hunrolled : Program.lower maxUnroll (body.unrolled greedy count)
      (readPattern pattern).groups = .ok unrolled)
    (hstart : start ≤ text.size) :
    (∀ anchoredEnd, attempt looped text .unlimited anchoredEnd start =
      .ok ((((rounds (body.outcomes text) (count - 1) (.start start)).flatMap fun there =>
          someRounds (body.outcomes text) greedy (text.size - there.offset) there).find?
        (·.counts anchoredEnd text)).map (·.toMatch start (readPattern pattern).groups))) ∧
    (body.nullable = false ∨ body.isEager = true ∨ body.Eager text → ∀ anchoredEnd,
      attempt looped text .unlimited anchoredEnd start =
        attempt unrolled text .unlimited anchoredEnd start) ∧
    (greedy = false →
      attempt looped text .unlimited false start = attempt unrolled text .unlimited false start) ∧
    (body.BackrefFree →
      (∀ anchoredEnd,
        (∃ found, attempt looped text .unlimited anchoredEnd start = .ok (some found)) ↔
          ∃ found, attempt unrolled text .unlimited anchoredEnd start = .ok (some found)) ∧
      (body.groups = [] →
        attempt looped text .unlimited true start =
          attempt unrolled text .unlimited true start)) := by
  obtain ⟨before, rfl⟩ : ∃ before, count = before + 1 := ⟨count - 1, by omega⟩
  rw [ofTree_of_lower hlooped, ofTree_of_lower hunrolled]
  have hnode := (grouped_of_readPattern hread).of_mem_nodes hbody
  have hgrouped : (Tree.rep body ⟨before + 1, none, greedy⟩).Grouped (readPattern pattern).groups :=
    hnode
  have hgrouped' : (body.unrolled greedy (before + 1)).Grouped (readPattern pattern).groups :=
    Tree.grouped_unrolled hnode (before + 1)
  refine ⟨?_, ?_, ?_, ?_⟩
  · intro anchoredEnd
    exact attempt_ofTree hgrouped anchoredEnd hstart
  · intro hrounds anchoredEnd
    have heager : body.Eager text := by
      rcases hrounds with hnullable | heager | heager
      · exact Tree.eager_of_not_nullable hnullable text
      · exact Tree.eager_of_isEager heager text
      · exact heager
    rw [attempt_ofTree hgrouped anchoredEnd hstart, attempt_ofTree hgrouped' anchoredEnd hstart,
      Tree.loop_sameFirst_unrolled heager before (Outcome.within_start hstart)]
  · rintro rfl
    have hfirst (outcomes : List Outcome) :
        outcomes.find? (·.counts false text) = outcomes.head? := by
      cases outcomes <;> rfl
    rw [attempt_ofTree hgrouped false hstart, attempt_ofTree hgrouped' false hstart, hfirst, hfirst,
      Tree.head?_loop_eq_unrolled]
  · intro hfree
    have hordered : body.Ordered :=
      (inherited_of_readPattern Tree.inherited_ordered hread).of_mem_nodes hbody
    have hsame := exists_attempt_iff_of_derives_iff hgrouped hgrouped' hfree
      (Tree.backrefFree_unrolled hfree (before + 1)) (Tree.ordered_loop hordered (before + 1))
      (Tree.ordered_unrolled hordered (before + 1)) hstart
      fun stop => (Tree.derives_unrolled_iff (before + 1)).symm
    refine ⟨hsame, ?_⟩
    intro hgroups
    exact attempt_eq_of_isSome_iff hgrouped hgrouped' hgroups
      (Tree.groups_unrolled hgroups (before + 1)) hstart (hsame true)

/-- Two rounds or more of `(a|b)` on the text `ab`, and one round or more of `(?:a?)`, which may be
empty but is eager, on the text `aa`. -/
theorem attempt_loop_and_unrolled_of_two_rounds :
    let either := Tree.group 0 (some 1) (.alt (.atom 1 (.byte 97)) (.atom 3 (.byte 98)))
    let optional := Tree.group 0 none (.rep (.atom 3 (.byte 97)) ⟨0, some 1, true⟩)
    (attempt (Program.ofTree (.rep either ⟨2, none, true⟩) 1) #[97, 98] .unlimited false 0 =
        .ok (some ⟨⟨0, 2⟩, [some ⟨0, 2⟩, some ⟨1, 2⟩]⟩) ∧
      attempt (Program.ofTree (.rep either ⟨2, none, true⟩) 1) #[97, 98] .unlimited false 0 =
        attempt (Program.ofTree (either.unrolled true 2) 1) #[97, 98] .unlimited false 0) ∧
    optional.nullable = true ∧
    attempt (Program.ofTree (.rep optional ⟨1, none, true⟩) 0) #[97, 97] .unlimited false 0 =
      attempt (Program.ofTree (optional.unrolled true 1) 0) #[97, 97] .unlimited false 0 := by
  intro either optional
  have hread : (readPattern (ascii "(a|b)")).result = .ok either := rfl
  have hbody : either ∈ either.nodes := List.mem_cons_self
  have hlooped : Program.lower 2000 (.rep either ⟨2, none, true⟩)
      (readPattern (ascii "(a|b)")).groups =
        .ok (Program.ofTree (.rep either ⟨2, none, true⟩) 1) := rfl
  have hunrolled : Program.lower 2000 (either.unrolled true 2)
      (readPattern (ascii "(a|b)")).groups = .ok (Program.ofTree (either.unrolled true 2) 1) := rfl
  have hstart : 0 ≤ Array.size (#[97, 98] : Text) := Nat.zero_le _
  obtain ⟨hmeaning, hsame, -⟩ :=
    attempt_loop_and_unrolled hread hbody (Nat.le_succ 1) hlooped hunrolled hstart
  have hreadOptional : (readPattern (ascii "(?:a?)")).result = .ok optional := rfl
  have hbodyOptional : optional ∈ optional.nodes := List.mem_cons_self
  obtain ⟨-, heager, -⟩ := attempt_loop_and_unrolled hreadOptional hbodyOptional (Nat.le_refl 1)
    (rfl : Program.lower 2000 _ _ = _) (rfl : Program.lower 2000 _ _ = _)
    (Nat.zero_le (Array.size (#[97, 97] : Text)))
  refine ⟨⟨?_, hsame (.inl rfl) false⟩, rfl, heager (.inr (.inl rfl)) false⟩
  rw [hmeaning false]
  rfl

/-- The loop of `(a?)+` and the copies `(a?)(a?)*` do not find the same match on the text `a`: the
loop keeps a second round, which consumes nothing, and captures the empty text behind the `a`. -/
theorem not_forall_attempt_loop_eq_unrolled :
    ¬ ∀ (maxUnroll : Nat) (pattern : Bytes) (tree body : Tree) (greedy : Bool) (count : Nat)
      (looped unrolled : Program) (text : Text) (start : Nat) (anchoredEnd : Bool),
      (readPattern pattern).result = .ok tree → body ∈ tree.nodes → 1 ≤ count →
      Program.lower maxUnroll (.rep body ⟨count, none, greedy⟩) (readPattern pattern).groups =
        .ok looped →
      Program.lower maxUnroll (body.unrolled greedy count) (readPattern pattern).groups =
        .ok unrolled →
      start ≤ text.size →
      attempt looped text .unlimited anchoredEnd start =
        attempt unrolled text .unlimited anchoredEnd start := by
  intro h
  let body := Tree.group 0 (some 1) (.rep (.atom 1 (.byte 97)) ⟨0, some 1, true⟩)
  have hread : (readPattern (ascii "(a?)")).result = .ok body := rfl
  have hgrouped : body.Grouped 1 := grouped_of_readPattern hread
  have hgrouped' : (Tree.rep body ⟨1, none, true⟩).Grouped 1 := hgrouped
  have hsame := h 2000 (ascii "(a?)") body body true 1
    (Program.ofTree (.rep body ⟨1, none, true⟩) 1) (Program.ofTree (body.unrolled true 1) 1)
    #[97] 0 false hread List.mem_cons_self (Nat.le_refl 1) rfl rfl (Nat.zero_le 1)
  have hlooped : attempt (Program.ofTree (.rep body ⟨1, none, true⟩) 1) #[97] .unlimited false 0 =
      .ok (some ⟨⟨0, 1⟩, [some ⟨0, 1⟩, some ⟨1, 1⟩]⟩) := by
    rw [attempt_ofTree hgrouped' false (Nat.zero_le 1)]
    rfl
  have hunrolled : attempt (Program.ofTree (body.unrolled true 1) 1) #[97] .unlimited false 0 =
      .ok (some ⟨⟨0, 1⟩, [some ⟨0, 1⟩, some ⟨0, 1⟩]⟩) := by
    rw [attempt_ofTree (Tree.grouped_unrolled hgrouped 1) false (Nat.zero_le 1)]
    rfl
  rw [hlooped, hunrolled] at hsame
  exact absurd hsame (by decide)

end RegexSearch
