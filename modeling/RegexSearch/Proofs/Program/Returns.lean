import RegexSearch.Proofs.Program.Parts

/-!
Branches back. The code of a tree leads forward but for its loops: every branch back stands
behind a round of one of the loops that are listed for the tree, and leads to its beginning. So
the list leaves out no loop.
-/

namespace RegexSearch

/-- Every branch back in code that is laid out from `base` on leads to the beginning of a round of
one of the loops, from behind that round. -/
def Returns (loops : List Loop) (base : Nat) (code : List Instr) : Prop :=
  ∀ index instr, code[index]? = some instr → ∀ target ∈ instr.targets, target ≤ base + index →
    ∃ loop ∈ loops, target ≤ loop.first ∧ loop.back = base + index

section Returns

variable {loops more : List Loop} {base : Nat} {code rest : List Instr} {instr : Instr}
  {body : Tree} {here : Place}

theorem returns_nil : Returns loops base [] := by
  intro index instr h
  cases h

theorem Returns.cons (hinstr : ∀ target ∈ instr.targets, target ≤ base →
      ∃ loop ∈ loops, target ≤ loop.first ∧ loop.back = base)
    (hcode : Returns loops (base + 1) code) : Returns loops base (instr :: code) := by
  intro index other hother target htarget hback
  cases index with
  | zero =>
      cases hother
      exact hinstr target htarget hback
  | succ index =>
      rw [Nat.add_comm index, ← Nat.add_assoc] at hback ⊢
      exact hcode index other hother target htarget hback

theorem Returns.forward (hinstr : ∀ target ∈ instr.targets, base < target)
    (hcode : Returns loops (base + 1) code) : Returns loops base (instr :: code) :=
  .cons (fun target htarget hback =>
    absurd hback (Nat.not_le_of_lt (hinstr target htarget))) hcode

theorem Returns.plain (hinstr : instr.targets = []) (hcode : Returns loops (base + 1) code) :
    Returns loops base (instr :: code) := by
  refine .forward ?_ hcode
  rw [hinstr]
  exact List.forall_mem_nil _

theorem Returns.append (hcode : Returns loops base code)
    (hrest : Returns loops (base + code.length) rest) : Returns loops base (code ++ rest) := by
  induction code generalizing base with
  | nil => exact hrest
  | cons instr code ih =>
      rw [List.length_cons, Nat.add_comm code.length, ← Nat.add_assoc] at hrest
      refine .cons (hcode 0 instr rfl) (ih ?_ hrest)
      intro index other hother target htarget hback
      rw [Nat.add_assoc, Nat.add_comm 1] at hback ⊢
      exact hcode (index + 1) other hother target htarget hback

theorem Returns.mono (h : Returns loops base code) (hsub : loops ⊆ more) :
    Returns more base code := by
  intro index instr hinstr target htarget hback
  obtain ⟨loop, hloop, hbranch⟩ := h index instr hinstr target htarget hback
  exact ⟨loop, hsub hloop, hbranch⟩

theorem lt_of_mem_loopSplit {greedy : Bool} {first exit : Nat} (hfirst : base < first)
    (hexit : base < exit) : ∀ target ∈ (Instr.loopSplit greedy first exit).targets,
      base < target := by
  cases greedy <;> simp [Instr.loopSplit, Instr.targets, hfirst, hexit]

theorem returns_requiredRounds {count : Nat}
    (hbody : ∀ place ∈ requiredPlaces (·.after body) count here,
      Returns loops place.pc (body.code place)) :
    Returns loops here.pc
      (requiredRounds (fun place => body.code place) (·.after body) count here) := by
  induction count generalizing here with
  | zero => exact returns_nil
  | succ count ih =>
      obtain ⟨hfirst, hrest⟩ := List.forall_mem_cons.mp hbody
      apply hfirst.append
      rw [body.length_code]
      exact ih hrest

theorem returns_optionalRounds {greedy : Bool} {exit count : Nat}
    (hexit : here.pc + count * (body.codeSize + 1) ≤ exit)
    (hbody : ∀ place ∈ optionalPlaces (·.after body) count here,
      Returns loops place.pc (body.code place)) :
    Returns loops here.pc (optionalRounds (fun place => body.code place) (·.after body) greedy exit
      count here) := by
  induction count generalizing here with
  | zero => exact returns_nil
  | succ count ih =>
      obtain ⟨hfirst, hrest⟩ := List.forall_mem_cons.mp hbody
      rw [Nat.succ_mul] at hexit
      refine .forward (lt_of_mem_loopSplit (Nat.lt_succ_self _) (by omega)) (hfirst.append ?_)
      rw [body.length_code]
      apply ih _ hrest
      simp only [Place.after, Place.skip]
      omega

theorem returns_starLoop {greedy : Bool} (hloop : body.starRound here.slot here.pc ∈ loops)
    (hbody : ∀ place : Place, place = (if body.nullable then ⟨here.pc + 2, here.set, here.slot + 1⟩
      else here.skip 1) → Returns loops place.pc (body.code place)) :
    Returns loops here.pc
      (starLoop (fun place => body.code place) (·.after body) greedy body.nullable here) := by
  unfold starLoop
  unfold Tree.starRound at hloop
  cases hnullable : body.nullable with
  | true =>
      simp only [hnullable, if_true] at hloop hbody ⊢
      refine .forward (lt_of_mem_loopSplit (Nat.lt_succ_self _) ?_) (.plain rfl ?_)
      · simp only [Place.after]
        omega
      · refine (hbody _ rfl).append (.plain rfl (.cons ?_ returns_nil))
        intro target htarget _
        cases List.mem_singleton.mp htarget
        refine ⟨_, hloop, Nat.le_succ _, ?_⟩
        simp [Loop.back, body.length_code]
  | false =>
      simp only [hnullable, Bool.false_eq_true, if_false] at hloop hbody ⊢
      refine .forward (lt_of_mem_loopSplit (Nat.lt_succ_self _) ?_) ?_
      · simp only [Place.after, Place.skip]
        omega
      · refine (hbody _ rfl).append (.cons ?_ returns_nil)
        intro target htarget _
        cases List.mem_singleton.mp htarget
        refine ⟨_, hloop, Nat.le_succ _, ?_⟩
        simp [Loop.back, body.length_code, Place.skip]

theorem returns_plusLoop {greedy : Bool} {slot : Nat} (hloop : body.plusRound slot here.pc ∈ loops)
    (hbody : ∀ place : Place, place = (if body.nullable then here.skip 1 else here) →
      Returns loops place.pc (body.code place)) :
    Returns loops here.pc
      (plusLoop (fun place => body.code place) (·.after body) greedy body.nullable slot here) := by
  unfold plusLoop
  unfold Tree.plusRound at hloop
  cases hnullable : body.nullable with
  | true =>
      simp only [hnullable, if_true] at hloop hbody ⊢
      refine .plain rfl ((hbody _ rfl).append ?_)
      rw [body.length_code]
      refine .forward (lt_of_mem_loopSplit (Nat.lt_succ_self _) ?_)
        (.plain rfl (.cons ?_ returns_nil))
      · simp only [Place.after]
        omega
      · intro target htarget _
        cases List.mem_singleton.mp htarget
        refine ⟨_, hloop, Nat.le_refl _, ?_⟩
        simp only [Loop.back, Place.skip, Option.isSome_some, if_true]
        omega
  | false =>
      simp only [hnullable, Bool.false_eq_true, if_false] at hloop hbody ⊢
      refine (hbody _ rfl).append (.cons ?_ returns_nil)
      rw [body.length_code]
      intro target htarget hback
      have hexit : target ≠ (here.after body).pc + 1 := Nat.ne_of_lt (Nat.lt_succ_of_le hback)
      have hhead : target = here.pc := by
        cases greedy <;> simpa [Instr.loopSplit, Instr.targets, hexit] using htarget
      exact ⟨_, hloop, Nat.le_of_eq hhead, rfl⟩

namespace Tree

theorem returns_rep {times : Quantifier}
    (hloop : ∀ loop, (rep body times).loop? here = some loop → loop ∈ loops)
    (hbody : ∀ place ∈ times.places (·.after body) body.nullable here,
      Returns loops place.pc (body.code place)) :
    Returns loops here.pc ((rep body times).code here) := by
  obtain ⟨min, max, greedy⟩ := times
  cases max with
  | none =>
      cases min with
      | zero => exact returns_starLoop (hloop _ rfl) fun place h => hbody place (h ▸ .head _)
      | succ before =>
          have hfirst := pc_firstRound body.nullable here
          have hlast := pc_behindRounds body body.nullable before here
          obtain ⟨hrequired, hround⟩ := List.forall_mem_append.mp hbody
          have hrounds := returns_requiredRounds hrequired
          rw [hfirst] at hrounds
          apply hrounds.append
          rw [length_requiredRounds body.length_code, ← hlast]
          apply returns_plusLoop
          · rw [hlast]
            exact hloop _ rfl
          · exact fun place h => hround place (h ▸ .head _)
  | some max =>
      let optional := behindRounds (·.after body) min here
      have hpc : optional.pc = here.pc + min * body.codeSize :=
        congrArg Place.pc (Place.behindRounds_after body min here)
      obtain ⟨hrequired, hoptional⟩ := List.forall_mem_append.mp hbody
      apply (returns_requiredRounds hrequired).append
      rw [length_requiredRounds body.length_code, ← hpc]
      refine returns_optionalRounds ?_ hoptional
      apply Nat.add_le_add_left
      apply Nat.mul_le_mul_left
      simp only [Place.after, Place.skip]
      omega

/-- Every branch back in the code of a tree belongs to one of its loops. -/
theorem returns_code (tree : Tree) (here : Place) :
    Returns (tree.loops here) here.pc (tree.code here) := by
  induction tree generalizing here with
  | atom position a => exact .plain (by cases a <;> rfl) returns_nil
  | group position index body ih =>
      cases index with
      | none => exact ih here
      | some index => exact .plain rfl ((ih (here.skip 1)).append (.plain rfl returns_nil))
  | cat first rest ihf ihr =>
      rw [loops_cat]
      refine ((ihf here).mono (List.subset_append_left _ _)).append ?_
      rw [first.length_code]
      exact (ihr (here.after first)).mono (List.subset_append_right _ _)
  | alt first rest ihf ihr =>
      have hfirst := (ihf (here.skip 1)).mono
        (List.subset_append_left _ (rest.loops (((here.skip 1).after first).skip 1)))
      have hrest := (ihr (((here.skip 1).after first).skip 1)).mono
        (List.subset_append_right (first.loops (here.skip 1)) _)
      have hlength := first.length_code (here.skip 1)
      rw [loops_alt]
      refine .forward ?_ (hfirst.append (.forward ?_ ?_))
      · simp only [Instr.targets, List.forall_mem_cons, Place.skip, Place.after]
        exact ⟨Nat.lt_succ_self _, by omega, List.forall_mem_nil _⟩
      · rw [hlength]
        simp only [Instr.targets, List.forall_mem_cons, Place.skip, Place.after]
        exact ⟨by omega, List.forall_mem_nil _⟩
      · rw [hlength]
        exact hrest
  | rep body times ih =>
      rw [loops_rep]
      apply returns_rep
      · intro loop hloop
        exact List.mem_append_left _ (Option.mem_toList.mpr hloop)
      · intro place hplace
        apply (ih place).mono
        exact fun loop hloop =>
          List.mem_append_right _ (List.mem_flatMap.mpr ⟨place, hplace, hloop⟩)

end Tree

end Returns

theorem returns_ofTree (tree : Tree) (groups : Nat) :
    Returns (tree.loops ⟨1, 0, 0⟩) 0 (Program.ofTree tree groups).code.toList :=
  .plain rfl ((tree.returns_code ⟨1, 0, 0⟩).append (.plain rfl (.plain rfl returns_nil)))

end RegexSearch
