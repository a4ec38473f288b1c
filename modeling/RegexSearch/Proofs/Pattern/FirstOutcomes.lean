import RegexSearch.Proofs.Pattern.Outcomes

/-!
Of the outcomes of a pattern an attempt takes the first one that it accepts. Two lists of outcomes
therefore serve an attempt alike if they have the same first outcome under every condition; an
outcome that has come before is of no use when it comes again.

A pattern is eager if, to an attempt, the empty outcome comes behind all others and captures
nothing. The form of most patterns tells that they are: only a lazy option, an alternative behind
an empty one and a group around an empty body may spoil it.
-/

namespace RegexSearch

/-- The lists have the same first outcome under every condition. -/
def SameFirst (outcomes outcomes' : List Outcome) : Prop :=
  ∀ condition : Outcome → Bool, outcomes.find? condition = outcomes'.find? condition

namespace SameFirst

variable {outcomes outcomes' outcomes'' : List Outcome}

protected theorem refl (outcomes : List Outcome) : SameFirst outcomes outcomes := fun _ => rfl

protected theorem symm (h : SameFirst outcomes outcomes') : SameFirst outcomes' outcomes :=
  fun condition => (h condition).symm

protected theorem trans (h : SameFirst outcomes outcomes') (h' : SameFirst outcomes' outcomes'') :
    SameFirst outcomes outcomes'' :=
  fun condition => (h condition).trans (h' condition)

theorem append {further further' : List Outcome} (h : SameFirst outcomes outcomes')
    (hfurther : SameFirst further further') :
    SameFirst (outcomes ++ further) (outcomes' ++ further') := by
  intro condition
  rw [List.find?_append, List.find?_append, h condition, hfurther condition]

/-- Lists that have the same first outcome under every condition have the same outcomes. -/
theorem mem_iff (h : SameFirst outcomes outcomes') (out : Outcome) :
    out ∈ outcomes ↔ out ∈ outcomes' := by
  classical
  have hsome (list : List Outcome) :
      out ∈ list ↔ (list.find? fun other => decide (other = out)).isSome := by
    simp [List.find?_isSome]
  rw [hsome, hsome, h]

theorem flatMap_right {further further' : Outcome → List Outcome}
    (h : ∀ out ∈ outcomes, SameFirst (further out) (further' out)) :
    SameFirst (outcomes.flatMap further) (outcomes.flatMap further') := by
  induction outcomes with
  | nil => exact .refl []
  | cons out outcomes ih =>
      obtain ⟨hout, hrest⟩ := List.forall_mem_cons.mp h
      exact hout.append (ih hrest)

/-- What goes on from an outcome that has come before finds nothing new. -/
theorem flatMap_left (h : SameFirst outcomes outcomes') (further : Outcome → List Outcome) :
    SameFirst (outcomes.flatMap further) (outcomes'.flatMap further) := by
  intro condition
  -- the first outcome of the whole comes from the first place that has one
  have hfind (places : List Outcome) :
      (places.flatMap further).find? condition =
        (places.find? fun place => ((further place).find? condition).isSome).bind fun place =>
          (further place).find? condition := by
    induction places with
    | nil => rfl
    | cons place places ih =>
        rw [List.flatMap_cons, List.find?_append, ih, List.find?_cons]
        cases hplace : (further place).find? condition <;> simp [hplace]
  rw [hfind, hfind, h]

theorem flatMap {further further' : Outcome → List Outcome} (h : SameFirst outcomes outcomes')
    (hfurther : ∀ out ∈ outcomes', SameFirst (further out) (further' out)) :
    SameFirst (outcomes.flatMap further) (outcomes'.flatMap further') :=
  (h.flatMap_left further).trans (flatMap_right hfurther)

variable {here : Outcome} {greedy : Bool}

theorem prefer (h : SameFirst outcomes outcomes') :
    SameFirst (prefer greedy outcomes here) (prefer greedy outcomes' here) := by
  cases greedy with
  | true => exact h.append (.refl [here])
  | false => exact (SameFirst.refl [here]).append h

/-- Leaving a second time is as good as leaving once. -/
theorem append_prefer (outcomes : List Outcome) :
    SameFirst (outcomes ++ RegexSearch.prefer greedy outcomes here) (outcomes ++ [here]) := by
  intro condition
  cases greedy <;> cases hfind : outcomes.find? condition <;>
    simp [RegexSearch.prefer, List.find?_append, List.find?_cons, hfind]

theorem prefer_append_self (outcomes : List Outcome) :
    SameFirst (RegexSearch.prefer greedy (outcomes ++ [here]) here)
      (RegexSearch.prefer greedy outcomes here) := by
  intro condition
  cases greedy <;> cases hfind : outcomes.find? condition <;> cases hhere : condition here <;>
    simp [RegexSearch.prefer, List.find?_append, hfind, hhere]

end SameFirst

/-- To an attempt, the outcomes go on from `here`, but for a last one that may be `here` itself. -/
def Outcome.Eager (here : Outcome) (outcomes : List Outcome) : Prop :=
  ∃ further last, (∀ there ∈ further, here.offset < there.offset) ∧ (last = [] ∨ last = [here]) ∧
    SameFirst outcomes (further ++ last)

namespace Outcome.Eager

variable {here : Outcome} {outcomes : List Outcome}

theorem of_lt (h : ∀ there ∈ outcomes, here.offset < there.offset) : here.Eager outcomes :=
  ⟨outcomes, [], h, .inl rfl, by rw [List.append_nil]; exact .refl outcomes⟩

theorem self (here : Outcome) : here.Eager [here] :=
  ⟨[], [here], by simp, .inr rfl, .refl [here]⟩

theorem of_sameFirst {outcomes' : List Outcome} (h : here.Eager outcomes)
    (hsame : SameFirst outcomes' outcomes) : here.Eager outcomes' := by
  obtain ⟨further, last, hfurther, hlast, houtcomes⟩ := h
  exact ⟨further, last, hfurther, hlast, hsame.trans houtcomes⟩

/-- What consumes something may come in front. -/
theorem append_left {first : List Outcome} (hfirst : ∀ there ∈ first, here.offset < there.offset)
    (h : here.Eager outcomes) : here.Eager (first ++ outcomes) := by
  obtain ⟨further, last, hfurther, hlast, hsame⟩ := h
  refine ⟨first ++ further, last, ?_, hlast, ?_⟩
  · intro there hthere
    rcases List.mem_append.mp hthere with hthere | hthere
    · exact hfirst there hthere
    · exact hfurther there hthere
  · rw [List.append_assoc]
    exact (SameFirst.refl first).append hsame

/-- Leaving may come last. -/
theorem append_self (h : here.Eager outcomes) : here.Eager (outcomes ++ [here]) := by
  obtain ⟨further, last, hfurther, hlast, hsame⟩ := h
  have hagain : SameFirst (prefer true (further ++ [here]) here)
      (prefer true further here) := SameFirst.prefer_append_self further
  refine ⟨further, [here], hfurther, .inr rfl, (hsame.append (.refl [here])).trans ?_⟩
  rcases hlast with rfl | rfl
  · rw [List.append_nil]
    exact .refl _
  · exact hagain

/-- Eager outcomes may be gone on from, if what goes on from `here` is eager again. -/
theorem flatMap {go : Outcome → List Outcome} (h : here.Eager outcomes)
    (hgo : ∀ middle, ∀ there ∈ go middle, middle.offset ≤ there.offset)
    (hhere : here.Eager (go here)) : here.Eager (outcomes.flatMap go) := by
  obtain ⟨further, last, hfurther, hlast, hsame⟩ := h
  have hlt : ∀ there ∈ further.flatMap go, here.offset < there.offset := by
    intro there hthere
    obtain ⟨middle, hmiddle, hthere⟩ := List.mem_flatMap.mp hthere
    exact Nat.lt_of_lt_of_le (hfurther middle hmiddle) (hgo middle there hthere)
  have hflat := hsame.flatMap_left go
  rw [List.flatMap_append] at hflat
  refine of_sameFirst (append_left hlt ?_) hflat
  rcases hlast with rfl | rfl
  · exact of_lt fun there hthere => nomatch hthere
  · rw [List.flatMap_singleton]
    exact hhere

end Outcome.Eager

/-! ### Repetitions of eager rounds -/

section Repetition

variable {round : Outcome → List Outcome} {greedy : Bool} {here : Outcome}
  (hle : ∀ here, ∀ there ∈ round here, here.offset ≤ there.offset)

include hle

/-- A greedy loop that asks for no round is eager, whatever its rounds are. -/
theorem eager_anyRounds (left : Nat) : here.Eager (anyRounds round true left here) := by
  cases left with
  | zero => exact .self here
  | succ left =>
      have hlt : ∀ there ∈ (round here).flatMap fun middle =>
          if here.offset < middle.offset then anyRounds round true left middle else [],
          here.offset < there.offset := by
        intro there hthere
        obtain ⟨middle, -, hthere⟩ := List.mem_flatMap.mp hthere
        split at hthere
        · rename_i hmiddle
          have hrest := rel_of_mem_anyRounds (fun a b => a.offset ≤ b.offset)
            (fun _ => Nat.le_refl _) (fun _ _ _ => Nat.le_trans) hle hthere
          exact Nat.lt_of_lt_of_le hmiddle hrest
        · cases hthere
      exact (Outcome.Eager.of_lt hlt).append_self

theorem offset_le_of_mem_optionals {count : Nat} {there : Outcome}
    (h : there ∈ optionals round greedy count here) : here.offset ≤ there.offset :=
  rel_of_mem_optionals (fun a b => a.offset ≤ b.offset) (fun _ => Nat.le_refl _)
    (fun _ _ _ => Nat.le_trans) hle h

theorem offset_le_of_mem_someRounds {left : Nat} {there : Outcome}
    (h : there ∈ someRounds round greedy left here) : here.offset ≤ there.offset :=
  rel_of_mem_someRounds (fun a b => a.offset ≤ b.offset) (fun _ _ _ => Nat.le_trans) hle h

variable (hround : here.Eager (round here))

include hround

theorem eager_rounds (count : Nat) : here.Eager (rounds round count here) := by
  induction count with
  | zero => exact .self here
  | succ count ih =>
      refine hround.flatMap ?_ ih
      intro middle there hthere
      exact rel_of_mem_rounds (fun a b => a.offset ≤ b.offset) (fun _ => Nat.le_refl _)
        (fun _ _ _ => Nat.le_trans) hle hthere

theorem eager_optionals (count : Nat) : here.Eager (optionals round true count here) := by
  induction count with
  | zero => exact .self here
  | succ count ih =>
      refine Outcome.Eager.append_self (hround.flatMap ?_ ih)
      intro middle there hthere
      exact offset_le_of_mem_optionals hle hthere

theorem eager_someRounds (left : Nat) : here.Eager (someRounds round greedy left here) := by
  cases left with
  | zero => exact hround
  | succ left =>
      refine hround.flatMap ?_ ?_
      · intro middle there hthere
        split at hthere
        · rcases mem_prefer.mp hthere with rfl | hthere
          · exact Nat.le_refl _
          · exact offset_le_of_mem_someRounds hle hthere
        · obtain rfl := List.mem_singleton.mp hthere
          exact Nat.le_refl _
      · rw [if_neg (Nat.lt_irrefl _)]
        exact .self here

end Repetition

namespace Tree

/-- The tree is eager in this text, wherever it begins. -/
def Eager (text : Text) (tree : Tree) : Prop :=
  ∀ here : Outcome, here.Within text → here.Eager (tree.outcomes text here)

/-- The form of a tree tells that it is eager. -/
def isEager : Tree → Bool
  | atom .. => true
  | group _ none body => body.isEager
  | group _ (some _) body => !body.nullable
  | cat first rest => !(first.nullable && rest.nullable) || first.isEager && rest.isEager
  | alt first rest => !first.nullable && rest.isEager
  | rep body times =>
    !(times.min == 0 || body.nullable) ||
      match times.max, times.min with
      | none, 0 => times.greedy
      | none, _ + 1 => body.isEager
      | some max, min => body.isEager && (times.greedy || max ≤ min)

theorem eager_of_not_nullable {tree : Tree} (h : tree.nullable = false) (text : Text) :
    tree.Eager text :=
  fun _ _ => .of_lt fun _ => offset_lt_of_mem_outcomes h

/-- An atom has one outcome at most. -/
theorem eager_atom (position : Nat) (a : Atom) (text : Text) : (atom position a).Eager text := by
  intro here _
  have hbyte (condition : Byte → Bool) : here.Eager (here.consumeIf text condition) := by
    apply Outcome.Eager.of_lt
    intro there hthere
    obtain ⟨b, -, -, rfl⟩ := Outcome.mem_consumeIf.mp hthere
    exact Nat.lt_succ_self _
  have hnone : here.Eager [] := .of_lt fun _ hthere => nomatch hthere
  cases a with
  | byte value => exact hbyte _
  | set members => exact hbyte _
  | any => exact hbyte _
  | backref group =>
      simp only [outcomes, Atom.outcomes]
      cases here.captures group with
      | none => exact hnone
      | some span =>
          simp only [Option.elim_some, Outcome.consumeCopy]
          split
          · cases hlength : span.length with
            | zero => exact .self here
            | succ length =>
                apply Outcome.Eager.of_lt
                intro there hthere
                rw [List.mem_singleton.mp hthere]
                exact Nat.lt_add_of_pos_right (Nat.succ_pos length)
          · exact hnone
  | anchor kind =>
      simp only [outcomes, Atom.outcomes]
      split
      · exact .self here
      · exact hnone

theorem eager_of_isEager {tree : Tree} (h : tree.isEager = true) (text : Text) :
    tree.Eager text := by
  induction tree with
  | atom position a => exact eager_atom position a text
  | group position index body ih =>
      cases index with
      | none => exact ih h
      | some index =>
          have hnullable : body.nullable = false := by simpa [isEager] using h
          have hgroup : (group position (some index) body).nullable = false := hnullable
          exact eager_of_not_nullable hgroup text
  | cat first rest ihf ihr =>
      cases hnullable : (cat first rest).nullable with
      | false => exact eager_of_not_nullable hnullable text
      | true =>
          have hboth : first.isEager = true ∧ rest.isEager = true := by
            have hparts : (first.nullable && rest.nullable) = true := hnullable
            simpa [isEager, hparts] using h
          intro here hhere
          refine (ihf hboth.1 here hhere).flatMap ?_ (ihr hboth.2 here hhere)
          intro middle there hthere
          exact offset_le_of_mem_outcomes hthere
  | alt first rest ihf ihr =>
      obtain ⟨hfirst, hrest⟩ : first.nullable = false ∧ rest.isEager = true := by
        simpa [isEager] using h
      intro here hhere
      exact (ihr hrest here hhere).append_left fun _ hthere =>
        offset_lt_of_mem_outcomes hfirst hthere
  | rep body times ih =>
      cases hnullable : (rep body times).nullable with
      | false => exact eager_of_not_nullable hnullable text
      | true =>
          have hparts : (times.min == 0 || body.nullable) = true := hnullable
          rw [isEager, hparts, Bool.not_true, Bool.false_or] at h
          have hle (here there : Outcome) (hthere : there ∈ body.outcomes text here) :
              here.offset ≤ there.offset := offset_le_of_mem_outcomes hthere
          intro here hhere
          obtain ⟨min, max, greedy⟩ := times
          cases max with
          | none =>
              cases min with
              | zero =>
                  have hgreedy : greedy = true := h
                  subst hgreedy
                  exact eager_anyRounds hle _
              | succ before =>
                  have hbody := ih h here hhere
                  refine (eager_rounds hle hbody before).flatMap ?_ (eager_someRounds hle hbody _)
                  intro middle there hthere
                  exact offset_le_of_mem_someRounds hle hthere
          | some max =>
              obtain ⟨hbody, hlast⟩ : body.isEager = true ∧ (greedy = true ∨ max ≤ min) := by
                simpa using h
              have hbody := ih hbody here hhere
              refine (eager_rounds hle hbody min).flatMap ?_ ?_
              · intro middle there hthere
                exact offset_le_of_mem_optionals hle hthere
              · rcases hlast with hgreedy | hmax
                · have hgreedy : greedy = true := hgreedy
                  subst hgreedy
                  exact eager_optionals hle hbody _
                · have hnone : max - min = 0 := Nat.sub_eq_zero_of_le hmax
                  rw [hnone]
                  exact .self here

end Tree

end RegexSearch
