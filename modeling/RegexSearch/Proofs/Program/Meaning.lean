import RegexSearch.Proofs.Machine.Loops
import RegexSearch.Proofs.Pattern.Groups

/-!
Programs mean what their patterns mean. Wherever a tree is laid in a program, its code implements
the outcomes of the tree, by induction on the tree: its parts are laid at the places that the
layout gives them, and the rules for stretches of a program put their meanings together.
-/

namespace RegexSearch

namespace Tree

/-- The groups and the loop slots of a tree at a place. -/
def scope (tree : Tree) (here : Place) : Scope :=
  ⟨tree.groups, here.slot, here.slot + tree.loopCount⟩

theorem behindRounds_pc (tree : Tree) (count : Nat) (here : Place) :
    (behindRounds (·.after tree) count here).pc = here.pc + count * tree.codeSize := by
  induction count generalizing here with
  | zero => simp [behindRounds]
  | succ count ih =>
      rw [behindRounds, ih, Nat.succ_mul]
      simp only [Place.after]
      omega

theorem le_behindRounds_slot (tree : Tree) (count : Nat) (here : Place) :
    here.slot ≤ (behindRounds (·.after tree) count here).slot := by
  induction count generalizing here with
  | zero => exact Nat.le_refl _
  | succ count ih => exact Nat.le_trans (Nat.le_add_right _ _) (ih (here.after tree))

/-- A program has the sets of so many copies of a tree from a place on, and their loop slots lie in
a scope. -/
structure Copies (program : Program) (scope : Scope) (here : Place) (count : Nat) (tree : Tree) :
    Prop where
  sets : LaidAt program.sets here.set (List.replicate count tree.sets).flatten
  groups : tree.groups ⊆ scope.groups
  low : scope.low ≤ here.slot
  high : here.slot + count * tree.loopCount ≤ scope.high
  loops : scope.high ≤ program.loops

namespace Copies

variable {program : Program} {scope : Scope} {here : Place} {count : Nat} {tree : Tree}

theorem skip (h : tree.Copies program scope here count) (instrs : Nat) :
    tree.Copies program scope (here.skip instrs) count :=
  ⟨h.sets, h.groups, h.low, h.high, h.loops⟩

theorem laid (h : tree.Copies program scope here (count + 1))
    (hcode : LaidAt program.code here.pc (tree.code here)) : tree.Laid program here where
  code := hcode
  sets := by
    have hsets := h.sets
    rw [List.replicate_succ, List.flatten_cons, laidAt_append] at hsets
    exact hsets.1
  slots := by
    have hhigh := h.high
    have hloops := h.loops
    rw [Nat.succ_mul] at hhigh
    omega

theorem inside (h : tree.Copies program scope here (count + 1)) :
    (tree.scope here).Inside scope where
  groups := h.groups
  low := h.low
  high := by
    have hhigh := h.high
    rw [Nat.succ_mul] at hhigh
    change here.slot + tree.loopCount ≤ scope.high
    omega

theorem rest (h : tree.Copies program scope here (count + 1)) :
    tree.Copies program scope (here.after tree) count where
  sets := by
    have hsets := h.sets
    rw [List.replicate_succ, List.flatten_cons, laidAt_append] at hsets
    exact hsets.2
  groups := h.groups
  low := Nat.le_trans h.low (Nat.le_add_right _ _)
  high := by
    have hhigh := h.high
    rw [Nat.succ_mul] at hhigh
    change here.slot + tree.loopCount + count * tree.loopCount ≤ scope.high
    omega
  loops := h.loops

theorem behind {before : Nat} (h : tree.Copies program scope here (before + count)) :
    tree.Copies program scope (behindRounds (·.after tree) before here) count := by
  induction before generalizing here with
  | zero => rwa [Nat.zero_add] at h
  | succ before ih =>
      rw [Nat.succ_add] at h
      exact ih h.rest

theorem front {more : Nat} (h : tree.Copies program scope here (count + more)) :
    tree.Copies program scope here count where
  sets := by
    have hsets := h.sets
    rw [List.replicate_add, List.flatten_append, laidAt_append] at hsets
    exact hsets.1
  groups := h.groups
  low := h.low
  high := by
    have hhigh := h.high
    rw [Nat.add_mul] at hhigh
    omega
  loops := h.loops

/-- A counted repetition has its copies from its own place on. -/
theorem of_counted {min max : Nat} {greedy : Bool}
    (h : (rep tree ⟨min, some max, greedy⟩).Laid program here) :
    tree.Copies program ((rep tree ⟨min, some max, greedy⟩).scope here) here
      (min + (max - min)) where
  sets := h.sets
  groups := List.Subset.refl _
  low := Nat.le_refl _
  high := by simp [scope, loopCount, Quantifier.copies]
  loops := h.slots

/-- The copies in a loop come behind the slot of its own mark. -/
theorem of_loop {min : Nat} {greedy : Bool} (h : (rep tree ⟨min, none, greedy⟩).Laid program here) :
    tree.Copies program ((rep tree ⟨min, none, greedy⟩).scope here)
      (if tree.nullable then { here with slot := here.slot + 1 } else here) (Max.max min 1) where
  sets := by cases tree.nullable <;> exact h.sets
  groups := List.Subset.refl _
  low := by cases tree.nullable <;> simp [scope]
  high := by
    cases hnullable : tree.nullable <;> simp [scope, loopCount, Quantifier.copies, hnullable]
    omega
  loops := h.slots

end Copies

end Tree

namespace Machine

variable {machine : Machine} {scope : Scope} {body : Tree}

section Repetition

variable (hbody : ∀ here, body.Laid machine.program here →
  machine.Implements (body.scope here) here.pc (here.after body).pc (body.outcomes machine.text))

include hbody

theorem implements_requiredRounds {count : Nat} {here : Place}
    (hcode : LaidAt machine.program.code here.pc
      (requiredRounds (fun place => body.code place) (·.after body) count here))
    (hcopies : body.Copies machine.program scope here count) :
    machine.Implements scope here.pc (behindRounds (·.after body) count here).pc
      (rounds (body.outcomes machine.text) count) := by
  induction count generalizing here with
  | zero => exact .skip
  | succ count ih =>
      obtain ⟨hfirst, hrest⟩ := laidAt_append.mp hcode
      rw [Tree.length_code] at hrest
      have hround := (hbody here (hcopies.laid hfirst)).mono hcopies.inside
      exact hround.seq (ih hrest hcopies.rest)

theorem implements_optionalRounds {greedy : Bool} {exit count : Nat} {here : Place}
    (hcode : LaidAt machine.program.code here.pc
      (optionalRounds (fun place => body.code place) (·.after body) greedy exit count here))
    (hexit : exit = here.pc + count * (body.codeSize + 1))
    (hcopies : body.Copies machine.program scope here count) :
    machine.Implements scope here.pc exit
      (optionals (body.outcomes machine.text) greedy count) := by
  induction count generalizing here with
  | zero =>
      rw [hexit, Nat.zero_mul]
      exact .skip
  | succ count ih =>
      obtain ⟨hsplit, hcode⟩ := hcode
      obtain ⟨hfirst, hrest⟩ := laidAt_append.mp hcode
      rw [Tree.length_code] at hrest
      have hround := (hbody (here.skip 1) ((hcopies.skip 1).laid hfirst)).mono
        (hcopies.skip 1).inside
      have hfurther := ih hrest (by
        rw [hexit, Nat.succ_mul]
        simp only [Place.after, Place.skip]
        omega) (hcopies.skip 1).rest
      exact (hround.seq hfurther).optional hsplit

theorem implements_star {greedy : Bool} {here : Place}
    (hcode : LaidAt machine.program.code here.pc
      (starLoop (fun place => body.code place) (·.after body) greedy body.nullable here))
    (hcopies : body.Copies machine.program scope
      (if body.nullable then { here with slot := here.slot + 1 } else here) 1)
    (hlow : scope.low ≤ here.slot) :
    machine.Implements scope here.pc
      (here.pc + (body.codeSize + 2 + if body.nullable then 2 else 0)) fun out =>
        anyRounds (body.outcomes machine.text) greedy (machine.text.size - out.offset) out := by
  suffices hrepeats : machine.Repeats scope here.pc
      (here.pc + (body.codeSize + 2 + if body.nullable then 2 else 0))
      (starRound (body.outcomes machine.text) greedy) from
    hrepeats.implements (anyRounds_zero _ _) (anyRounds_succ _ _)
  cases hnullable : body.nullable with
  | false =>
      rw [hnullable] at hcode hcopies
      obtain ⟨hsplit, hcode⟩ := hcode
      obtain ⟨hround, hjump, -⟩ := laidAt_append.mp hcode
      rw [Tree.length_code] at hjump
      have hexit : here.pc + (body.codeSize + 2 + 0) = here.pc + 1 + body.codeSize + 1 := by omega
      have hcopies := hcopies.skip 1
      have himplements := (hbody (here.skip 1) (hcopies.laid hround)).mono hcopies.inside
      rw [if_neg Bool.false_ne_true, hexit]
      exact repeats_star hsplit himplements hjump fun _ _ =>
        Tree.offset_lt_of_mem_outcomes hnullable
  | true =>
      rw [hnullable] at hcode hcopies
      obtain ⟨hsplit, hmark, hcode⟩ := hcode
      obtain ⟨hround, hcheck, hjump, -⟩ := laidAt_append.mp hcode
      rw [Tree.length_code] at hcheck hjump
      have hcopies := hcopies.skip 2
      have himplements := hbody _ (hcopies.laid hround)
      have hhigh : here.slot < scope.high := by
        have hslots : here.slot + 1 + 1 * body.loopCount ≤ scope.high := hcopies.high
        omega
      have hloops : here.slot < machine.program.loops := Nat.lt_of_lt_of_le hhigh hcopies.loops
      have hexit : here.pc + (body.codeSize + 2 + 2) = here.pc + 2 + body.codeSize + 2 := by omega
      rw [if_pos rfl, hexit]
      exact repeats_star_guarded hmark himplements hcopies.inside hlow (Nat.lt_succ_self _) hhigh
        hloops (fun _ _ => Tree.offset_le_of_mem_outcomes) hsplit hcheck hjump

theorem implements_plus {greedy : Bool} {slot : Nat} {here : Place}
    (hcode : LaidAt machine.program.code here.pc
      (plusLoop (fun place => body.code place) (·.after body) greedy body.nullable slot here))
    (hcopies : body.Copies machine.program scope here 1) (hlow : scope.low ≤ slot)
    (hslot : body.nullable = true → slot < here.slot) :
    machine.Implements scope here.pc
      (here.pc + (body.codeSize + 1 + if body.nullable then 3 else 0)) fun out =>
        someRounds (body.outcomes machine.text) greedy (machine.text.size - out.offset) out := by
  suffices hrepeats : machine.Repeats scope here.pc
      (here.pc + (body.codeSize + 1 + if body.nullable then 3 else 0))
      (plusRound (body.outcomes machine.text) greedy) from
    hrepeats.implements (someRounds_zero _ _) (someRounds_succ _ _)
  cases hnullable : body.nullable with
  | false =>
      rw [hnullable] at hcode
      obtain ⟨hround, hsplit, -⟩ := laidAt_append.mp hcode
      rw [Tree.length_code] at hsplit
      have himplements := (hbody here (hcopies.laid hround)).mono hcopies.inside
      exact repeats_plus himplements hsplit fun _ _ => Tree.offset_lt_of_mem_outcomes hnullable
  | true =>
      rw [hnullable] at hcode
      obtain ⟨hmark, hcode⟩ := hcode
      obtain ⟨hround, hsplit, hcheck, hjump, -⟩ := laidAt_append.mp hcode
      rw [Tree.length_code] at hsplit hcheck hjump
      have hcopies := hcopies.skip 1
      have himplements := hbody (here.skip 1) (hcopies.laid hround)
      have hslot := hslot hnullable
      have hhigh : slot < scope.high := by
        have hslots : here.slot + 1 * body.loopCount ≤ scope.high := hcopies.high
        omega
      have hloops : slot < machine.program.loops := Nat.lt_of_lt_of_le hhigh hcopies.loops
      have hexit : here.pc + (body.codeSize + 1 + 3) = here.pc + 1 + body.codeSize + 3 := by omega
      rw [if_pos rfl, hexit]
      exact repeats_plus_guarded hmark himplements hcopies.inside hlow hslot hhigh hloops
        (fun _ _ => Tree.offset_le_of_mem_outcomes) hsplit hcheck hjump

theorem implements_rep {times : Quantifier} {here : Place}
    (h : (Tree.rep body times).Laid machine.program here) :
    machine.Implements ((Tree.rep body times).scope here) here.pc
      (here.after (.rep body times)).pc ((Tree.rep body times).outcomes machine.text) := by
  obtain ⟨min, max, greedy⟩ := times
  cases max with
  | some max =>
      have hcopies := Tree.Copies.of_counted h
      obtain ⟨hrequired, hoptional⟩ := laidAt_append.mp h.code
      rw [length_requiredRounds (fun place => Tree.length_code body place),
        ← Tree.behindRounds_pc] at hoptional
      have hsize : ((behindRounds (·.after body) min here).skip 1 |>.after body).pc -
          (behindRounds (·.after body) min here).pc = body.codeSize + 1 := by
        simp only [Place.skip, Place.after]
        omega
      rw [hsize] at hoptional
      have hfirst := implements_requiredRounds hbody hrequired hcopies.front
      have hrest := implements_optionalRounds hbody hoptional rfl hcopies.behind
      rw [Tree.behindRounds_pc, Nat.add_assoc] at hrest
      rw [Tree.behindRounds_pc] at hfirst
      exact hfirst.seq hrest
  | none =>
      cases min with
      | zero =>
          have hstar := implements_star hbody h.code (Tree.Copies.of_loop h) (Nat.le_refl _)
          exact hstar
      | succ before =>
          have hcopies := Tree.Copies.of_loop h
          rw [Nat.max_eq_left (Nat.le_add_left 1 before)] at hcopies
          obtain ⟨hrequired, hloop⟩ := laidAt_append.mp h.code
          rw [length_requiredRounds (fun place => Tree.length_code body place)] at hloop
          set first : Place := if body.nullable then { here with slot := here.slot + 1 } else here
            with hfirst
          have hpc : first.pc = here.pc := by
            rw [hfirst]
            cases body.nullable <;> rfl
          have hslot (hnullable : body.nullable = true) : here.slot < first.slot := by
            rw [hfirst, hnullable]
            exact Nat.lt_succ_self _
          rw [← hpc] at hrequired
          rw [← hpc, ← Tree.behindRounds_pc] at hloop
          have hrounds := implements_requiredRounds hbody hrequired hcopies.front
          have hplus := implements_plus hbody hloop hcopies.behind (Nat.le_refl _) fun hnullable =>
            Nat.lt_of_lt_of_le (hslot hnullable) (Tree.le_behindRounds_slot body before first)
          have hexit : here.pc + (Tree.rep body ⟨before + 1, none, greedy⟩).codeSize =
              (behindRounds (·.after body) before first).pc +
                (body.codeSize + 1 + if body.nullable then 3 else 0) := by
            have hsize : (Tree.rep body ⟨before + 1, none, greedy⟩).codeSize =
                (before + 1) * body.codeSize + 1 + if body.nullable then 3 else 0 := rfl
            rw [Tree.behindRounds_pc, hpc, hsize, Nat.succ_mul]
            omega
          rw [hpc] at hrounds
          rw [← hexit] at hplus
          exact hrounds.seq hplus

end Repetition

/-- The code of a tree implements its outcomes, wherever it is laid. -/
theorem implements_tree {tree : Tree} (hgrouped : tree.Grouped machine.program.groups)
    {here : Place} (h : tree.Laid machine.program here) :
    machine.Implements (tree.scope here) here.pc (here.after tree).pc
      (tree.outcomes machine.text) := by
  induction tree generalizing here with
  | atom position a =>
      refine Implements.atom h.code.1 ?_
      rintro members rfl
      exact h.sets.1
  | group position index body ih =>
      cases index with
      | none => exact ih hgrouped ⟨h.code, h.sets, h.slots⟩
      | some index =>
          obtain ⟨-, hle, hfresh, hbody⟩ := hgrouped
          have hinside : (body.scope (here.skip 1)).Inside
              ((Tree.group position (some index) body).scope here) :=
            ⟨List.subset_cons_self _ _, Nat.le_refl _, Nat.le_refl _⟩
          have hexit : (here.after (.group position (some index) body)).pc =
              ((here.skip 1).after body).pc + 1 := by
            change here.pc + (body.codeSize + 2) = here.pc + 1 + body.codeSize + 1
            omega
          rw [hexit]
          exact (ih hbody h.group_body).capturing h.group_open h.group_close hle hfresh
            List.mem_cons_self hinside
  | cat first rest ihf ihr =>
      have hexit : (here.after (.cat first rest)).pc = ((here.after first).after rest).pc :=
        (Nat.add_assoc _ _ _).symm
      have hinsideFirst : (first.scope here).Inside ((Tree.cat first rest).scope here) := by
        refine ⟨List.subset_append_left _ _, Nat.le_refl _, ?_⟩
        simp only [Tree.scope, Tree.loopCount]
        omega
      have hinsideRest : (rest.scope (here.after first)).Inside
          ((Tree.cat first rest).scope here) := by
        refine ⟨List.subset_append_right _ _, Nat.le_add_right _ _, ?_⟩
        simp only [Tree.scope, Tree.loopCount, Place.after]
        omega
      rw [hexit]
      exact ((ihf hgrouped.1 h.cat_first).mono hinsideFirst).seq
        ((ihr hgrouped.2 h.cat_rest).mono hinsideRest)
  | alt first rest ihf ihr =>
      have hexit : (here.after (.alt first rest)).pc =
          here.pc + 1 + first.codeSize + 1 + rest.codeSize := by
        change here.pc + (first.codeSize + 2 + rest.codeSize) = _
        omega
      have hinsideFirst : (first.scope (here.skip 1)).Inside
          ((Tree.alt first rest).scope here) := by
        refine ⟨List.subset_append_left _ _, Nat.le_refl _, ?_⟩
        simp only [Tree.scope, Tree.loopCount, Place.skip]
        omega
      have hinsideRest : (rest.scope (((here.skip 1).after first).skip 1)).Inside
          ((Tree.alt first rest).scope here) := by
        refine ⟨List.subset_append_right _ _, Nat.le_add_right _ _, ?_⟩
        simp only [Tree.scope, Tree.loopCount, Place.after, Place.skip]
        omega
      have hfirst := ((ihf hgrouped.1 h.alt_first).mono hinsideFirst).jump h.alt_jump
      have hrest := (ihr hgrouped.2 h.alt_rest).mono hinsideRest
      rw [hexit]
      exact hfirst.alternatives h.alt_split hrest
  | rep body times ih => exact implements_rep (fun _ hlaid => ih hgrouped hlaid) h

end Machine

end RegexSearch
