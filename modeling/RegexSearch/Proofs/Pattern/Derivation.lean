import RegexSearch.Proofs.Pattern.Outcomes
import RegexSearch.Proofs.Pattern.Reading

/-!
Derivations. A pattern without backreferences derives a segment of a text if the segment can be
cut into pieces that its parts derive, in any way at all: no order of preference, and no rule
against rounds that consume nothing. A pattern has an outcome at the end of every segment that it
derives. The rounds of a loop that consume nothing can be left out of a derivation, which is all
that the loops of the outcomes leave out.
-/

namespace RegexSearch

/-- So many steps of a relation, one after the other. -/
def Chained (step : Nat → Nat → Prop) : Nat → Nat → Nat → Prop
  | 0, i, j => i = j
  | count + 1, i, j => ∃ middle, step i middle ∧ Chained step count middle j

/-- The atom derives the segment of the text from `i` to `j`. -/
def Atom.Derives (text : Text) : Atom → Nat → Nat → Prop
  | byte value, i, j => text[i]? = some value ∧ j = i + 1
  | set members, i, j => ∃ b, text[i]? = some b ∧ members.contains b ∧ j = i + 1
  | any, i, j => ∃ b, text[i]? = some b ∧ !b.isNewline ∧ j = i + 1
  | backref _, _, _ => False
  | anchor kind, i, j => kind.holds text i ∧ j = i

namespace Tree

/-- The tree derives the segment of the text from `i` to `j`. -/
def Derives (text : Text) : Tree → Nat → Nat → Prop
  | atom _ a, i, j => a.Derives text i j
  | group _ _ body, i, j => body.Derives text i j
  | cat first rest, i, j => ∃ middle, first.Derives text i middle ∧ rest.Derives text middle j
  | alt first rest, i, j => first.Derives text i j ∨ rest.Derives text i j
  | rep body times, i, j =>
    ∃ count, times.min ≤ count ∧ (∀ max, times.max = some max → count ≤ max) ∧
      Chained (body.Derives text) count i j

def BackrefFree : Tree → Prop
  | atom _ a => ∀ group, a ≠ .backref group
  | group _ _ body => body.BackrefFree
  | cat first rest => first.BackrefFree ∧ rest.BackrefFree
  | alt first rest => first.BackrefFree ∧ rest.BackrefFree
  | rep body _ => body.BackrefFree

/-- The bounds of all quantifiers are in order. -/
def Ordered : Tree → Prop
  | atom .. => True
  | group _ _ body => body.Ordered
  | cat first rest => first.Ordered ∧ rest.Ordered
  | alt first rest => first.Ordered ∧ rest.Ordered
  | rep body times => times.Valid ∧ body.Ordered

theorem inherited_ordered : Inherited Ordered where
  atom := fun _ _ => trivial
  group := fun _ _ _ hbody => hbody
  cat := fun _ _ hfirst hrest => ⟨hfirst, hrest⟩
  alt := fun _ _ hfirst hrest => ⟨hfirst, hrest⟩
  rep := fun _ _ hbody _ hvalid => ⟨hvalid, hbody⟩

end Tree

/-! ### Chains -/

section Chained

variable {step : Nat → Nat → Prop} {i j : Nat}

theorem chain_add {first rest : Nat} :
    Chained step (first + rest) i j ↔
      ∃ middle, Chained step first i middle ∧ Chained step rest middle j := by
  induction first generalizing i with
  | zero => simp [Chained]
  | succ first ih =>
      rw [Nat.succ_add]
      constructor
      · rintro ⟨next, hstep, hchain⟩
        obtain ⟨middle, hfirst, hrest⟩ := ih.mp hchain
        exact ⟨middle, ⟨next, hstep, hfirst⟩, hrest⟩
      · rintro ⟨middle, ⟨next, hstep, hfirst⟩, hrest⟩
        exact ⟨next, hstep, ih.mpr ⟨middle, hfirst, hrest⟩⟩

variable (hforward : ∀ i j, step i j → i ≤ j)

include hforward

/-- The empty steps at the beginning of a chain can be left out. -/
theorem exists_chain_iff :
    (∃ count, Chained step count i j) ↔
      i = j ∨ ∃ middle, i < middle ∧ step i middle ∧ ∃ count, Chained step count middle j := by
  constructor
  · rintro ⟨count, hchain⟩
    induction count with
    | zero => exact .inl hchain
    | succ count ih =>
        obtain ⟨middle, hstep, hrest⟩ := hchain
        rcases Nat.eq_or_lt_of_le (hforward i middle hstep) with rfl | hlt
        · exact ih hrest
        · exact .inr ⟨middle, hlt, hstep, count, hrest⟩
  · rintro (rfl | ⟨middle, -, hstep, count, hrest⟩)
    · exact ⟨0, rfl⟩
    · exact ⟨count + 1, middle, hstep, hrest⟩

/-- In a chain of at least one step, the empty steps at the beginning can be left out unless they
are the last one. -/
theorem exists_chain_succ_iff :
    (∃ count, Chained step (count + 1) i j) ↔
      ∃ middle, step i middle ∧
        (middle = j ∨ (i < middle ∧ ∃ count, Chained step (count + 1) middle j)) := by
  constructor
  · rintro ⟨count, hchain⟩
    induction count with
    | zero =>
        obtain ⟨middle, hstep, hrest⟩ := hchain
        exact ⟨middle, hstep, .inl hrest⟩
    | succ count ih =>
        obtain ⟨middle, hstep, hrest⟩ := hchain
        rcases Nat.eq_or_lt_of_le (hforward i middle hstep) with rfl | hlt
        · exact ih hrest
        · exact ⟨middle, hstep, .inr ⟨hlt, count, hrest⟩⟩
  · rintro ⟨middle, hstep, rfl | ⟨-, count, hrest⟩⟩
    · exact ⟨0, middle, hstep, rfl⟩
    · exact ⟨count + 1, middle, hstep, hrest⟩

end Chained

/-! ### Outcomes and derivations -/

/-- The places that `round` lists are those that `step` leads to, whatever has been captured. -/
structure Agrees (text : Text) (round : Outcome → List Outcome) (step : Nat → Nat → Prop) :
    Prop where
  exists_iff : ∀ {here : Outcome}, here.offset ≤ text.size → ∀ stop,
    (∃ there ∈ round here, there.offset = stop) ↔ step here.offset stop
  forward : ∀ {i j : Nat}, step i j → i ≤ j
  inside : ∀ {i j : Nat}, i ≤ text.size → step i j → j ≤ text.size

namespace Agrees

variable {text : Text} {round round' : Outcome → List Outcome} {step step' : Nat → Nat → Prop}

theorem congr (h : Agrees text round step) (hstep : ∀ i j, step i j ↔ step' i j) :
    Agrees text round step' := by
  have heq : step = step' := by
    funext i j
    exact propext (hstep i j)
  rwa [← heq]

theorem bind (h : Agrees text round step) (h' : Agrees text round' step') :
    Agrees text (fun here => (round here).flatMap round')
      (fun i j => ∃ middle, step i middle ∧ step' middle j) where
  exists_iff := by
    intro here hsize stop
    constructor
    · rintro ⟨there, hthere, hstop⟩
      obtain ⟨middle, hmiddle, hthere⟩ := List.mem_flatMap.mp hthere
      have hstep := (h.exists_iff hsize _).mp ⟨middle, hmiddle, rfl⟩
      have hinside := h.inside hsize hstep
      exact ⟨middle.offset, hstep, (h'.exists_iff hinside stop).mp ⟨there, hthere, hstop⟩⟩
    · rintro ⟨_, hstep, hstep'⟩
      obtain ⟨middle, hmiddle, rfl⟩ := (h.exists_iff hsize _).mpr hstep
      have hinside := h.inside hsize hstep
      obtain ⟨there, hthere, hstop⟩ := (h'.exists_iff hinside stop).mpr hstep'
      exact ⟨there, List.mem_flatMap.mpr ⟨middle, hmiddle, hthere⟩, hstop⟩
  forward := by
    rintro i j ⟨middle, hstep, hstep'⟩
    exact Nat.le_trans (h.forward hstep) (h'.forward hstep')
  inside := by
    rintro i j hsize ⟨middle, hstep, hstep'⟩
    exact h'.inside (h.inside hsize hstep) hstep'

theorem exists_prefer_iff {greedy : Bool} {further : List Outcome} {here : Outcome} {stop : Nat} :
    (∃ there ∈ prefer greedy further here, there.offset = stop) ↔
      here.offset = stop ∨ ∃ there ∈ further, there.offset = stop := by
  simp only [mem_prefer, or_and_right, exists_or, exists_eq_left]

theorem orLeave (h : Agrees text round step) (greedy : Bool) :
    Agrees text (fun here => prefer greedy (round here) here) (fun i j => i = j ∨ step i j) where
  exists_iff := by
    intro here hsize stop
    rw [exists_prefer_iff, h.exists_iff hsize]
  forward := by
    rintro i j (rfl | hstep)
    · exact Nat.le_refl i
    · exact h.forward hstep
  inside := by
    rintro i j hsize (rfl | hstep)
    · exact hsize
    · exact h.inside hsize hstep

variable (h : Agrees text round step)

include h

theorem chain (count : Nat) : Agrees text (rounds round count) (Chained step count) := by
  induction count with
  | zero =>
      refine ⟨?_, fun heq => Nat.le_of_eq heq, fun hsize heq => heq ▸ hsize⟩
      intro here _ stop
      simp [rounds, Chained]
  | succ count ih => exact h.bind ih

theorem optional (greedy : Bool) (count : Nat) :
    Agrees text (optionals round greedy count)
      (fun i j => ∃ taken, taken ≤ count ∧ Chained step taken i j) := by
  induction count with
  | zero =>
      apply (h.chain 0).congr
      intro i j
      simp
  | succ count ih =>
      apply ((h.bind ih).orLeave greedy).congr
      intro i j
      constructor
      · rintro (rfl | ⟨middle, hstep, taken, hle, hchain⟩)
        · exact ⟨0, Nat.zero_le _, rfl⟩
        · exact ⟨taken + 1, Nat.succ_le_succ hle, middle, hstep, hchain⟩
      · rintro ⟨taken, hle, hchain⟩
        cases taken with
        | zero => exact .inl hchain
        | succ taken =>
            obtain ⟨middle, hstep, hrest⟩ := hchain
            exact .inr ⟨middle, hstep, taken, Nat.le_of_succ_le_succ hle, hrest⟩

theorem exists_starRound_iff (greedy : Bool) {again : Outcome → List Outcome}
    (rest : Nat → Nat → Prop) {here : Outcome} (hsize : here.offset ≤ text.size)
    (hagain : ∀ there : Outcome, there.offset ≤ text.size → here.offset < there.offset →
      ∀ stop, (∃ last ∈ again there, last.offset = stop) ↔ rest there.offset stop) (stop : Nat) :
    (∃ there ∈ starRound round greedy again here, there.offset = stop) ↔
      here.offset = stop ∨
        ∃ middle, here.offset < middle ∧ step here.offset middle ∧ rest middle stop := by
  rw [starRound, exists_prefer_iff]
  apply or_congr Iff.rfl
  constructor
  · rintro ⟨there, hthere, hstop⟩
    obtain ⟨middle, hmiddle, hthere⟩ := List.mem_flatMap.mp hthere
    split at hthere
    · rename_i hlt
      have hstep := (h.exists_iff hsize _).mp ⟨middle, hmiddle, rfl⟩
      have hinside := h.inside hsize hstep
      have hrest := (hagain middle hinside hlt stop).mp ⟨there, hthere, hstop⟩
      exact ⟨middle.offset, hlt, hstep, hrest⟩
    · cases hthere
  · rintro ⟨_, hlt, hstep, hrest⟩
    obtain ⟨middle, hmiddle, rfl⟩ := (h.exists_iff hsize _).mpr hstep
    have hinside := h.inside hsize hstep
    obtain ⟨there, hthere, hstop⟩ := (hagain middle hinside hlt stop).mpr hrest
    refine ⟨there, List.mem_flatMap.mpr ⟨middle, hmiddle, ?_⟩, hstop⟩
    rw [if_pos hlt]
    exact hthere

theorem exists_plusRound_iff (greedy : Bool) {again : Outcome → List Outcome}
    (rest : Nat → Nat → Prop) {here : Outcome} (hsize : here.offset ≤ text.size)
    (hagain : ∀ there : Outcome, there.offset ≤ text.size → here.offset < there.offset →
      ∀ stop, (∃ last ∈ again there, last.offset = stop) ↔ rest there.offset stop) (stop : Nat) :
    (∃ there ∈ plusRound round greedy again here, there.offset = stop) ↔
      ∃ middle, step here.offset middle ∧
        (middle = stop ∨ (here.offset < middle ∧ rest middle stop)) := by
  constructor
  · rintro ⟨there, hthere, hstop⟩
    obtain ⟨middle, hmiddle, hthere⟩ := List.mem_flatMap.mp hthere
    have hstep := (h.exists_iff hsize _).mp ⟨middle, hmiddle, rfl⟩
    have hinside := h.inside hsize hstep
    refine ⟨middle.offset, hstep, ?_⟩
    rcases exists_prefer_iff.mp ⟨there, hthere, hstop⟩ with hleave | ⟨last, hlast, hstop⟩
    · exact .inl hleave
    · split at hlast
      · rename_i hlt
        exact .inr ⟨hlt, (hagain middle hinside hlt stop).mp ⟨last, hlast, hstop⟩⟩
      · cases hlast
  · rintro ⟨_, hstep, hrest⟩
    obtain ⟨middle, hmiddle, rfl⟩ := (h.exists_iff hsize _).mpr hstep
    have hinside := h.inside hsize hstep
    have hprefer : ∃ there ∈ prefer greedy
        (if here.offset < middle.offset then again middle else []) middle,
        there.offset = stop := by
      rw [exists_prefer_iff]
      rcases hrest with hleave | ⟨hlt, hrest⟩
      · exact .inl hleave
      · rw [if_pos hlt]
        exact .inr ((hagain middle hinside hlt stop).mpr hrest)
    obtain ⟨there, hthere, hstop⟩ := hprefer
    exact ⟨there, List.mem_flatMap.mpr ⟨middle, hmiddle, hthere⟩, hstop⟩

theorem star (greedy : Bool) :
    Agrees text (fun here => anyRounds round greedy (text.size - here.offset) here)
      (fun i j => ∃ count, Chained step count i j) where
  exists_iff := by
    intro here hsize
    apply loop_induction (fun _ hinside => hinside) (anyRounds_zero round greedy)
      (anyRounds_succ round greedy) ?_ hsize (Nat.le_refl _) (P := fun here outcomes => ∀ stop,
        (∃ there ∈ outcomes, there.offset = stop) ↔ ∃ count, Chained step count here.offset stop)
    intro again here hsize hagain stop
    rw [exists_chain_iff fun _ _ => h.forward]
    exact h.exists_starRound_iff greedy (fun i j => ∃ count, Chained step count i j) hsize hagain
      stop
  forward := by
    rintro i j ⟨count, hchain⟩
    exact (h.chain count).forward hchain
  inside := by
    rintro i j hsize ⟨count, hchain⟩
    exact (h.chain count).inside hsize hchain

theorem plus (greedy : Bool) :
    Agrees text (fun here => someRounds round greedy (text.size - here.offset) here)
      (fun i j => ∃ count, Chained step (count + 1) i j) where
  exists_iff := by
    intro here hsize
    apply loop_induction (fun _ hinside => hinside) (someRounds_zero round greedy)
      (someRounds_succ round greedy) ?_ hsize (Nat.le_refl _) (P := fun here outcomes => ∀ stop,
        (∃ there ∈ outcomes, there.offset = stop) ↔
          ∃ count, Chained step (count + 1) here.offset stop)
    intro again here hsize hagain stop
    rw [exists_chain_succ_iff fun _ _ => h.forward]
    exact h.exists_plusRound_iff greedy (fun i j => ∃ count, Chained step (count + 1) i j) hsize
      hagain stop
  forward := by
    rintro i j ⟨count, hchain⟩
    exact (h.chain (count + 1)).forward hchain
  inside := by
    rintro i j hsize ⟨count, hchain⟩
    exact (h.chain (count + 1)).inside hsize hchain

theorem repetition {times : Quantifier} (hvalid : times.Valid) :
    Agrees text (times.outcomes round text) (fun i j =>
      ∃ count, times.min ≤ count ∧ (∀ max, times.max = some max → count ≤ max) ∧
        Chained step count i j) := by
  obtain ⟨min, max, greedy⟩ := times
  cases max with
  | some max =>
      have hle : min ≤ max := hvalid max rfl
      apply ((h.chain min).bind (h.optional greedy (max - min))).congr
      intro i j
      constructor
      · rintro ⟨middle, hmin, taken, htaken, hrest⟩
        refine ⟨min + taken, Nat.le_add_right _ _, ?_, chain_add.mpr ⟨middle, hmin, hrest⟩⟩
        rintro _ ⟨⟩
        have hsum : min + (max - min) = max := Nat.add_sub_cancel' hle
        rw [← hsum]
        exact Nat.add_le_add_left htaken min
      · rintro ⟨count, hmin, hmax, hchain⟩
        have hcount : count ≤ max := hmax max rfl
        obtain ⟨taken, rfl⟩ := Nat.exists_eq_add_of_le hmin
        obtain ⟨middle, hfirst, hrest⟩ := chain_add.mp hchain
        exact ⟨middle, hfirst, taken, Nat.le_sub_of_add_le' hcount, hrest⟩
  | none =>
      cases min with
      | zero =>
          apply (h.star greedy).congr
          intro i j
          simp
      | succ before =>
          apply ((h.chain before).bind (h.plus greedy)).congr
          intro i j
          constructor
          · rintro ⟨middle, hbefore, taken, hrest⟩
            have hmin : before + 1 ≤ before + (taken + 1) := by omega
            refine ⟨before + (taken + 1), hmin, ?_, chain_add.mpr ⟨middle, hbefore, hrest⟩⟩
            rintro _ ⟨⟩
          · rintro ⟨count, hmin, -, hchain⟩
            obtain ⟨taken, rfl⟩ := Nat.exists_eq_add_of_le hmin
            rw [Nat.add_assoc, Nat.add_comm 1] at hchain
            obtain ⟨middle, hfirst, hrest⟩ := chain_add.mp hchain
            exact ⟨middle, hfirst, taken, hrest⟩

end Agrees

theorem agrees_consumeIf (text : Text) (condition : Byte → Bool) :
    Agrees text (·.consumeIf text condition)
      (fun i j => ∃ b, text[i]? = some b ∧ condition b ∧ j = i + 1) where
  exists_iff := by
    intro here _ stop
    constructor
    · rintro ⟨there, hthere, rfl⟩
      obtain ⟨b, hbyte, hb, rfl⟩ := Outcome.mem_consumeIf.mp hthere
      exact ⟨b, hbyte, hb, rfl⟩
    · rintro ⟨b, hbyte, hb, rfl⟩
      exact ⟨here.advance 1, Outcome.mem_consumeIf.mpr ⟨b, hbyte, hb, rfl⟩, rfl⟩
  forward := by
    rintro i j ⟨b, -, -, rfl⟩
    exact Nat.le_succ i
  inside := by
    rintro i j - ⟨b, hbyte, -, rfl⟩
    exact (Array.getElem?_eq_some_iff.mp hbyte).1

theorem Atom.agrees {text : Text} {a : Atom} (hfree : ∀ group, a ≠ .backref group) :
    Agrees text (fun here => a.outcomes text here) (a.Derives text) := by
  cases a with
  | byte value =>
      apply (agrees_consumeIf text (· == value)).congr
      intro i j
      constructor
      · rintro ⟨b, hbyte, hb, hstop⟩
        rw [beq_iff_eq.mp hb] at hbyte
        exact ⟨hbyte, hstop⟩
      · rintro ⟨hbyte, hstop⟩
        exact ⟨value, hbyte, beq_self_eq_true value, hstop⟩
  | set members => exact agrees_consumeIf text members.contains
  | any => exact agrees_consumeIf text (!·.isNewline)
  | backref group => exact absurd rfl (hfree group)
  | anchor kind =>
      refine ⟨?_, ?_, ?_⟩
      · intro here _ stop
        simp only [outcomes, Derives]
        by_cases hholds : kind.holds text here.offset <;> simp [hholds, eq_comm]
      · rintro i j ⟨-, rfl⟩
        exact Nat.le_refl j
      · rintro i j hsize ⟨-, rfl⟩
        exact hsize

/-- The outcomes of a tree without backreferences end where the segments end that it derives. -/
theorem Tree.agrees {text : Text} {tree : Tree} (hfree : tree.BackrefFree)
    (hordered : tree.Ordered) : Agrees text (tree.outcomes text) (tree.Derives text) := by
  induction tree with
  | atom position a => exact Atom.agrees hfree
  | group position index body ih =>
      have hbody := ih hfree hordered
      cases index with
      | none => exact hbody
      | some index =>
          refine ⟨?_, hbody.forward, hbody.inside⟩
          intro here hsize stop
          change _ ↔ body.Derives text here.offset stop
          rw [← hbody.exists_iff hsize stop]
          simp [outcomes, Outcome.close]
  | cat first rest ihf ihr => exact (ihf hfree.1 hordered.1).bind (ihr hfree.2 hordered.2)
  | alt first rest ihf ihr =>
      have hfirst := ihf hfree.1 hordered.1
      have hrest := ihr hfree.2 hordered.2
      refine ⟨?_, ?_, ?_⟩
      · intro here hsize stop
        simp only [outcomes, Derives, List.mem_append, or_and_right, exists_or,
          hfirst.exists_iff hsize, hrest.exists_iff hsize]
      · rintro i j (hstep | hstep)
        · exact hfirst.forward hstep
        · exact hrest.forward hstep
      · rintro i j hsize (hstep | hstep)
        · exact hfirst.inside hsize hstep
        · exact hrest.inside hsize hstep
  | rep body times ih => exact (ih hfree hordered.2).repetition hordered.1

end RegexSearch
