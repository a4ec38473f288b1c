import RegexSearch.Proofs.Program.Parts
import RegexSearch.Proofs.Program.Stretches

/-!
Rounds. The code of a part stands as a stretch in the code of the tree, wherever the part is laid
out. So does the code of one round of a loop, from its mark to its check if the loop is guarded,
and from its body to the branch behind it if it is not.
-/

namespace RegexSearch

/-! ### The rounds of a repetition -/

section Rounds

variable {body : Tree} {here place : Place}

theorem avoids_requiredRounds {first last count : Nat}
    (hapart : here.pc + count * body.codeSize ≤ first ∨ last ≤ here.pc) :
    Avoids first last
      (requiredRounds (fun place => body.code place) (·.after body) count here) := by
  have hconfined := confined_requiredRounds
    (fun hfirst hlast => confined_code (List.Subset.refl body.groups)
      (List.Subset.refl body.references) hfirst hlast)
    (Place.Le.refl here) (Place.Le.refl (behindRounds (·.after body) count here))
  apply hconfined.avoids
  rwa [Place.behindRounds_after]

theorem stands_requiredRounds {count : Nat}
    (h : place ∈ requiredPlaces (·.after body) count here) :
    StandsIn here.pc (requiredRounds (fun place => body.code place) (·.after body) count here)
      place.pc (body.code place) := by
  induction count generalizing here with
  | zero => cases h
  | succ count ih =>
      have hlength := body.length_code here
      rw [requiredPlaces, List.mem_cons] at h
      rcases h with rfl | h
      · apply (StandsIn.refl _ _).append_right
        exact avoids_requiredRounds (.inr (by rw [hlength]; rfl))
      · apply (ih h).append_left (by rw [hlength]; rfl)
        exact body.avoids_code (.inl (Nat.le_refl _))

/-- Optional rounds lead to themselves and to the exit. -/
theorem avoids_optionalRounds {greedy : Bool} {first last exit count : Nat}
    (hexit : here.pc + count * (body.codeSize + 1) ≤ exit) (hapart : last ≤ here.pc) :
    Avoids first last (optionalRounds (fun place => body.code place) (·.after body) greedy exit
      count here) := by
  have hbehind := Place.behindRounds_skip_after body count here
  let stop := behindRounds (fun place => (place.skip 1).after body) count here
  have hstop : stop.Le ⟨exit, stop.set, stop.slot⟩ :=
    ⟨by simpa only [stop, hbehind] using hexit, Nat.le_refl _, Nat.le_refl _⟩
  have hconfined : Confined here ⟨exit, stop.set, stop.slot⟩ body.groups body.references
      (optionalRounds (fun place => body.code place) (·.after body) greedy exit count here) :=
    confined_optionalRounds
      (fun hfirst hlast => confined_code (List.Subset.refl body.groups)
        (List.Subset.refl body.references) hfirst hlast)
      (Place.Le.refl here) ⟨Nat.le_of_add_right_le hexit, Nat.le_refl exit⟩ hstop
  exact hconfined.avoids (.inr hapart)

theorem stands_optionalRounds {greedy : Bool} {exit count : Nat}
    (hexit : here.pc + count * (body.codeSize + 1) ≤ exit)
    (h : place ∈ optionalPlaces (·.after body) count here) :
    StandsIn here.pc (optionalRounds (fun place => body.code place) (·.after body) greedy exit
      count here) place.pc (body.code place) := by
  induction count generalizing here with
  | zero => cases h
  | succ count ih =>
      let next := (here.skip 1).after body
      have hlength := body.length_code (here.skip 1)
      have hnext : next.pc = here.pc + (body.codeSize + 1) := by
        simp only [next, Place.after, Place.skip]
        omega
      rw [Nat.succ_mul] at hexit
      have hexit' : next.pc + count * (body.codeSize + 1) ≤ exit := by omega
      rw [optionalPlaces_succ, List.mem_cons] at h
      rcases h with rfl | h
      · refine StandsIn.between [_] rfl ?_ ?_
        · apply Avoids.loopSplit (.inl (Nat.le_refl _)) (.inr ?_) avoids_nil
          rw [hlength]
          simp only [Place.skip]
          omega
        · apply avoids_optionalRounds hexit'
          rw [hlength]
          rfl
      · apply (ih hexit' h).append_left
        · rw [List.length_cons, hlength]
          exact hnext
        · refine Avoids.loopSplit (.inl ?_) (.inr ?_) (body.avoids_code (.inl ?_))
          · omega
          · rwa [length_optionalRounds body.length_code]
          · exact Nat.le_refl _

/-- The instructions of one round of a loop around a body that is laid out at a place. -/
inductive IsRound (body : Tree) (place : Place) : Loop → List Instr → Prop
  | guarded {slot first : Nat} (middle : List Instr) (hnullable : body.nullable = true) :
    IsRound body place ⟨some slot, first, first + middle.length + 1⟩
      (.mark slot :: middle ++ [.check slot])
  | bare {branch : Instr} (hnullable : body.nullable = false)
    (hbranch : Avoids place.pc (place.pc + body.codeSize + 1) [branch]) :
    IsRound body place ⟨none, place.pc, place.pc + body.codeSize⟩ (body.code place ++ [branch])

/-- The last instruction of a round leads to its beginning or out of it. -/
theorem IsRound.exists_last {loop : Loop} {round : List Instr} (h : IsRound body place loop round) :
    ∃ inner instr, round = inner ++ [instr] ∧ loop.last = loop.first + inner.length ∧
      Avoids loop.first (loop.last + 1) [instr] := by
  cases h with
  | guarded middle hnullable =>
      exact ⟨_, _, rfl, rfl, avoids_cons.mpr ⟨nofun, avoids_nil⟩⟩
  | bare hnullable hbranch =>
      exact ⟨_, _, rfl, by rw [body.length_code], hbranch⟩

/-- The body of a loop stands in its round, and the round in the loop. -/
def HasRound (body : Tree) (base : Nat) (code : List Instr) (place : Place) (loop : Loop) : Prop :=
  ∃ round, StandsIn base code loop.first round ∧
    StandsIn loop.first round place.pc (body.code place) ∧ IsRound body place loop round

theorem hasRound_guarded (before tail behind : List Instr) {base slot first last : Nat}
    (hnullable : body.nullable = true) (hfirst : first = base + before.length)
    (hplace : place.pc = first + 1) (hlast : last = place.pc + body.codeSize + tail.length)
    (htail : Avoids place.pc (place.pc + body.codeSize) tail)
    (haround : Avoids first (last + 1) (before ++ behind)) :
    HasRound body base (before ++ (.mark slot :: (body.code place ++ tail) ++ [.check slot]) ++
      behind) place ⟨some slot, first, last⟩ := by
  have hlength := body.length_code place
  have hend : last = first + (body.code place ++ tail).length + 1 := by
    rw [List.length_append, hlength, hlast, hplace]
    omega
  have hround : (Instr.mark slot :: (body.code place ++ tail) ++ [Instr.check slot]).length +
      first = last + 1 := by
    simp only [List.cons_append, List.length_cons, List.length_append, List.length_nil] at hend ⊢
    omega
  rw [← hround, Nat.add_comm] at haround
  obtain ⟨hbefore, hbehind⟩ := avoids_append.mp haround
  refine ⟨_, .between before hfirst hbefore hbehind, ?_, hend ▸ .guarded _ hnullable⟩
  have hrest : Avoids place.pc (place.pc + (body.code place).length) (tail ++ [.check slot]) := by
    rw [hlength]
    exact avoids_append.mpr ⟨htail, avoids_cons.mpr ⟨nofun, avoids_nil⟩⟩
  have hinside : StandsIn first ([.mark slot] ++ body.code place ++ (tail ++ [.check slot]))
      place.pc (body.code place) :=
    .between [.mark slot] hplace (avoids_cons.mpr ⟨nofun, avoids_nil⟩) hrest
  simpa using hinside

theorem hasRound_bare (before behind : List Instr) {base : Nat} {branch : Instr}
    (hnullable : body.nullable = false) (hplace : place.pc = base + before.length)
    (hbranch : Avoids place.pc (place.pc + body.codeSize + 1) [branch])
    (haround : Avoids place.pc (place.pc + body.codeSize + 1) (before ++ behind)) :
    HasRound body base (before ++ (body.code place ++ [branch]) ++ behind) place
      ⟨none, place.pc, place.pc + body.codeSize⟩ := by
  have hlength := body.length_code place
  obtain ⟨hbefore, hbehind⟩ := avoids_append.mp haround
  refine ⟨_, .between before hplace ?_ ?_, ?_, .bare hnullable hbranch⟩
  · rwa [List.length_append, hlength]
  · rwa [List.length_append, hlength]
  · apply (StandsIn.refl _ _).append_right
    rw [hlength]
    exact hbranch.mono (Nat.le_refl _) (Nat.le_succ _)

theorem hasRound_starLoop (body : Tree) (greedy : Bool) (here : Place) :
    HasRound body here.pc
      (starLoop (fun place => body.code place) (·.after body) greedy body.nullable here)
      (if body.nullable then ⟨here.pc + 2, here.set, here.slot + 1⟩ else here.skip 1)
      (body.starRound here.slot here.pc) := by
  unfold starLoop Tree.starRound
  cases hnullable : body.nullable with
  | true =>
      simp only [if_true]
      let inside : Place := ⟨here.pc + 2, here.set, here.slot + 1⟩
      have hround : HasRound body here.pc _ inside
          ⟨some here.slot, here.pc + 1, here.pc + 2 + body.codeSize⟩ :=
        hasRound_guarded
          [Instr.loopSplit greedy (here.pc + 1) ((inside.after body).pc + 2)] []
          [Instr.jump here.pc] hnullable rfl rfl rfl avoids_nil
          (.loopSplit (.inl (Nat.le_refl _)) (.inr ?_) (.jump (.inl (Nat.le_succ _)) avoids_nil))
      · simpa using hround
      · simp only [inside, Place.after]
        omega
  | false =>
      simp only [Bool.false_eq_true, if_false]
      have hbranch : Avoids (here.skip 1).pc ((here.skip 1).pc + body.codeSize + 1)
          [.jump here.pc] := .jump (.inl (Nat.le_succ _)) avoids_nil
      have hround := hasRound_bare
        [Instr.loopSplit greedy (here.pc + 1) (((here.skip 1).after body).pc + 1)] [] hnullable rfl
        hbranch (.loopSplit (.inl (Nat.le_refl _)) (.inr (Nat.le_refl _)) avoids_nil)
      rw [List.append_nil] at hround
      exact hround

theorem hasRound_plusLoop (body : Tree) (greedy : Bool) (slot : Nat) (here : Place) :
    HasRound body here.pc
      (plusLoop (fun place => body.code place) (·.after body) greedy body.nullable slot here)
      (if body.nullable then here.skip 1 else here) (body.plusRound slot here.pc) := by
  unfold plusLoop Tree.plusRound
  cases hnullable : body.nullable with
  | true =>
      simp only [if_true]
      let last := ((here.skip 1).after body).pc
      have hround : HasRound body here.pc _ (here.skip 1)
          ⟨some slot, here.pc, here.pc + 2 + body.codeSize⟩ :=
        hasRound_guarded [] [Instr.loopSplit greedy (last + 1) (last + 3)] [Instr.jump here.pc]
          hnullable rfl rfl ?_ (.loopSplit (.inr (Nat.le_succ _)) (.inr ?_) avoids_nil)
          (.jump (.inl (Nat.le_refl _)) avoids_nil)
      · simpa using hround
      · simp only [Place.skip, List.length_singleton]
        omega
      · simp only [last, Place.after]
        omega
  | false =>
      simp only [Bool.false_eq_true, if_false]
      have hbranch : Avoids here.pc (here.pc + body.codeSize + 1)
          [Instr.loopSplit greedy here.pc ((here.after body).pc + 1)] :=
        .loopSplit (.inl (Nat.le_refl _)) (.inr (Nat.le_refl _)) avoids_nil
      have hround := hasRound_bare [] [] hnullable rfl hbranch avoids_nil
      simpa using hround

theorem avoids_plusLoop {greedy : Bool} {slot first last : Nat} (hapart : last ≤ here.pc) :
    Avoids first last
      (plusLoop (fun place => body.code place) (·.after body) greedy body.nullable slot here) := by
  unfold plusLoop
  cases body.nullable with
  | true =>
      have hbehind : last ≤ ((here.skip 1).after body).pc :=
        Nat.le_trans (Nat.le_succ_of_le hapart) (Nat.le_add_right _ _)
      refine avoids_append.mpr ⟨avoids_cons.mpr
        ⟨nofun, body.avoids_code (.inr (Nat.le_succ_of_le hapart))⟩, ?_⟩
      exact .loopSplit (.inr (Nat.le_succ_of_le hbehind)) (.inr (Nat.le_add_right_of_le hbehind))
        (avoids_cons.mpr ⟨nofun, .jump (.inr hapart) avoids_nil⟩)
  | false =>
      have hbehind : last ≤ (here.after body).pc := Nat.le_add_right_of_le hapart
      refine avoids_append.mpr ⟨body.avoids_code (.inr hapart), ?_⟩
      exact .loopSplit (.inr hapart) (.inr (Nat.le_succ_of_le hbehind)) avoids_nil

/-- A loop stands behind the rounds that it requires before. -/
theorem HasRound.append_left {base start : Nat} {before code : List Instr} {loop : Loop}
    (h : HasRound body start code place loop) (hstart : start = base + before.length)
    (hbefore : Avoids start (start + code.length) before) :
    HasRound body base (before ++ code) place loop := by
  obtain ⟨round, hround, hbody, hinstrs⟩ := h
  exact ⟨round, hround.append_left hstart hbefore, hbody, hinstrs⟩

theorem HasRound.of_stands {base start : Nat} {middle code : List Instr} {loop : Loop}
    (h : HasRound body start middle place loop) (hstands : StandsIn base code start middle) :
    HasRound body base code place loop := by
  obtain ⟨round, hround, hbody, hinstrs⟩ := h
  exact ⟨round, hstands.trans hround, hbody, hinstrs⟩

theorem HasRound.stands {base : Nat} {code : List Instr} {loop : Loop}
    (h : HasRound body base code place loop) : StandsIn base code place.pc (body.code place) := by
  obtain ⟨round, hround, hbody, -⟩ := h
  exact hround.trans hbody

end Rounds

namespace Tree

variable {body : Tree} {times : Quantifier} {here place : Place}

/-- A loop that requires rounds has the last of these for its body. -/
theorem hasRound_atLeast (body : Tree) (before : Nat) (greedy : Bool) (here : Place) :
    let first : Place := if body.nullable then { here with slot := here.slot + 1 } else here
    let last := behindRounds (·.after body) before first
    HasRound body here.pc ((rep body ⟨before + 1, none, greedy⟩).code here)
      (if body.nullable then last.skip 1 else last)
      (body.plusRound here.slot (here.pc + before * body.codeSize)) := by
  intro first last
  have hpc : first.pc = here.pc := pc_firstRound body.nullable here
  have hlast : last.pc = here.pc + before * body.codeSize :=
    pc_behindRounds body body.nullable before here
  have hround := hasRound_plusLoop body greedy here.slot last
  rw [hlast] at hround
  apply hround.append_left
  · rw [length_requiredRounds body.length_code]
  · apply avoids_requiredRounds
    rw [hpc]
    exact .inl (Nat.le_refl _)

/-- The body of a repetition stands in its code wherever it is written. -/
theorem stands_body (h : place ∈ times.places (·.after body) body.nullable here) :
    StandsIn here.pc ((rep body times).code here) place.pc (body.code place) := by
  obtain ⟨min, max, greedy⟩ := times
  cases max with
  | none =>
      cases min with
      | zero =>
          rw [List.mem_singleton.mp h]
          exact (hasRound_starLoop body greedy here).stands
      | succ before =>
          rcases List.mem_append.mp h with h | h
          · have hrounds := stands_requiredRounds h
            rw [pc_firstRound] at hrounds
            apply hrounds.append_right
            apply avoids_plusLoop
            rw [length_requiredRounds body.length_code, pc_behindRounds]
          · rw [List.mem_singleton.mp h]
            exact (hasRound_atLeast body before greedy here).stands
  | some max =>
      let optional := behindRounds (·.after body) min here
      have hpc : optional.pc = here.pc + min * body.codeSize :=
        congrArg Place.pc (Place.behindRounds_after body min here)
      have hexit : optional.pc + (max - min) * (body.codeSize + 1) ≤
          optional.pc + (max - min) * (((optional.skip 1).after body).pc - optional.pc) := by
        apply Nat.add_le_add_left
        apply Nat.mul_le_mul_left
        simp only [Place.after, Place.skip]
        omega
      rcases List.mem_append.mp h with h | h
      · apply (stands_requiredRounds h).append_right
        apply avoids_optionalRounds hexit
        rw [length_requiredRounds body.length_code, hpc]
      · apply (stands_optionalRounds hexit h).append_left
        · rw [length_requiredRounds body.length_code, hpc]
        · apply avoids_requiredRounds
          rw [hpc]
          exact .inl (Nat.le_refl _)

/-- A loop has its round in the code of its repetition, around one of the bodies there. -/
theorem hasRound_of_loop? {loop : Loop} (h : (rep body times).loop? here = some loop) :
    ∃ place ∈ times.places (·.after body) body.nullable here,
      HasRound body here.pc ((rep body times).code here) place loop := by
  obtain ⟨min, max, greedy⟩ := times
  cases max with
  | some max => cases min <;> cases h
  | none =>
      cases min with
      | zero =>
          cases h
          exact ⟨_, List.mem_singleton_self _, hasRound_starLoop body greedy here⟩
      | succ before =>
          cases h
          exact ⟨_, List.mem_append_right _ (List.mem_singleton_self _),
            hasRound_atLeast body before greedy here⟩

/-! ### All parts -/

theorem stands_first (first rest : Tree) (here : Place) :
    StandsIn here.pc ((alt first rest).code here) (here.skip 1).pc (first.code (here.skip 1)) := by
  let left := here.skip 1
  let right := (left.after first).skip 1
  have hlength := first.length_code left
  have hbehind : left.pc + (first.code left).length ≤ right.pc := by
    rw [hlength]
    exact Nat.le_succ _
  have hsplit : ∀ target ∈ (Instr.split left.pc right.pc).targets,
      target ≤ left.pc ∨ left.pc + (first.code left).length ≤ target := by
    simp [Instr.targets, hbehind]
  exact .between [.split left.pc right.pc] rfl (avoids_cons.mpr ⟨hsplit, avoids_nil⟩)
    (.jump (.inr (Nat.le_add_right_of_le hbehind)) (rest.avoids_code (.inr hbehind)))

theorem stands_rest (first rest : Tree) (here : Place) :
    StandsIn here.pc ((alt first rest).code here) (((here.skip 1).after first).skip 1).pc
      (rest.code (((here.skip 1).after first).skip 1)) := by
  let left := here.skip 1
  let right := (left.after first).skip 1
  have hlength := rest.length_code right
  have hbefore : left.pc ≤ right.pc := Nat.le_succ_of_le (Nat.le_add_right _ _)
  have hsplit : ∀ target ∈ (Instr.split left.pc right.pc).targets,
      target ≤ right.pc ∨ right.pc + (rest.code right).length ≤ target := by
    simp [Instr.targets, hbefore]
  have hcode : (alt first rest).code here = .split left.pc right.pc :: first.code left ++
      [.jump (right.pc + rest.codeSize)] ++ rest.code right := by
    simp [code, left, right]
  rw [hcode]
  apply (StandsIn.refl right.pc _).append_left
  · simp only [right, left, Place.after, Place.skip, List.cons_append, List.length_cons,
      List.length_append, List.length_nil, first.length_code]
    omega
  · refine avoids_append.mpr
      ⟨avoids_cons.mpr ⟨hsplit, first.avoids_code (.inl (Nat.le_succ _))⟩, ?_⟩
    exact .jump (.inr (by rw [hlength])) avoids_nil

/-- The code of a part stands in the code of the tree. -/
theorem stands_of_mem_parts {tree part : Tree} (h : (part, place) ∈ tree.parts here) :
    StandsIn here.pc (tree.code here) place.pc (part.code place) := by
  induction tree generalizing here with
  | atom position a =>
      cases List.mem_singleton.mp h
      exact .refl _ _
  | group position index body ih =>
      cases index with
      | none =>
          rcases List.mem_cons.mp h with h | h
          · cases h
            exact .refl _ _
          · exact ih h
      | some index =>
          rcases List.mem_cons.mp h with h | h
          · cases h
            exact .refl _ _
          · have hbody : StandsIn here.pc ([.openGroup index] ++ body.code (here.skip 1) ++
                [.closeGroup index]) (here.skip 1).pc (body.code (here.skip 1)) :=
              .between [_] rfl (avoids_cons.mpr ⟨nofun, avoids_nil⟩)
                (avoids_cons.mpr ⟨nofun, avoids_nil⟩)
            exact hbody.trans (ih h)
  | cat first rest ihf ihr =>
      have hlength := first.length_code here
      rcases List.mem_cons.mp h with h | h
      · cases h
        exact .refl _ _
      · rcases List.mem_append.mp h with h | h
        · apply (ihf h).append_right
          exact rest.avoids_code (.inr (by rw [hlength]; rfl))
        · apply (ihr h).append_left (by rw [hlength]; rfl)
          exact first.avoids_code (.inl (Nat.le_refl _))
  | alt first rest ihf ihr =>
      rcases List.mem_cons.mp h with h | h
      · cases h
        exact .refl _ _
      · rcases List.mem_append.mp h with h | h
        · exact (stands_first first rest here).trans (ihf h)
        · exact (stands_rest first rest here).trans (ihr h)
  | rep body times ih =>
      rcases List.mem_cons.mp h with h | h
      · cases h
        exact .refl _ _
      · obtain ⟨round, hround, h⟩ := List.mem_flatMap.mp h
        exact (stands_body hround).trans (ih h)

/-! ### Loops -/

theorem hasRound_of_mem_loops {tree : Tree} {loop : Loop} (h : loop ∈ tree.loops here) :
    ∃ body place, HasRound body here.pc (tree.code here) place loop := by
  obtain ⟨⟨part, place⟩, hpart, hloop⟩ := List.mem_filterMap.mp h
  cases part with
  | rep body times =>
      obtain ⟨inside, -, hround⟩ := hasRound_of_loop? hloop
      exact ⟨body, inside, hround.of_stands (stands_of_mem_parts hpart)⟩
  | _ => cases hloop

end Tree

/-- The code of a program around that of its tree has no branches. -/
theorem stands_ofTree (tree : Tree) (groups : Nat) :
    StandsIn 0 (Program.ofTree tree groups).code.toList 1 (tree.code ⟨1, 0, 0⟩) :=
  .between [.openGroup 0] rfl
    (avoids_cons.mpr ⟨nofun, avoids_nil⟩)
    (avoids_cons.mpr ⟨nofun, avoids_cons.mpr ⟨nofun, avoids_nil⟩⟩)

end RegexSearch
