import Mathlib.Order.CompletePartialOrder
import Mathlib.Order.Interval.Set.Defs
import RegexSearch.Proofs.Machine.Slots
import RegexSearch.Proofs.Program.Attempt
import RegexSearch.Proofs.Program.WrittenOut

/-!
Where the slots of loops lie. A tree that is laid out with its slots elsewhere has the same code,
with the slots of its loops paired one to one; and a loop whose first rounds are written in front of
it has the code of the loop that asks for these rounds, although it takes its slot behind theirs and
not before. Trees that agree in this sense stay so in every surrounding tree, and their programs are
the same to every attempt.
-/

namespace RegexSearch

/-! ### Paired code -/

theorem Instr.Paired.mono {paired paired' : Nat → Nat → Prop}
    (hle : ∀ {slot slot'}, paired slot slot' → paired' slot slot') {instr instr' : Instr}
    (h : instr.Paired paired instr') : instr.Paired paired' instr' := by
  cases h with
  | same hfree => exact .same hfree
  | mark hslot => exact .mark (hle hslot)
  | check hslot => exact .check (hle hslot)

theorem Instr.slot?_loopSplit (greedy : Bool) (body exit : Nat) :
    (loopSplit greedy body exit).slot? = none := by
  cases greedy <;> rfl

namespace Pairing

variable {paired paired' : Nat → Nat → Prop} {region region' other other' : Set Nat}

theorem mono (h : Pairing paired region region') (hregion : region ⊆ other)
    (hregion' : region' ⊆ other') : Pairing paired other other' where
  mem := fun hslot => ⟨hregion (h.mem hslot).1, hregion' (h.mem hslot).2⟩
  unique := h.unique

theorem empty : Pairing (fun _ _ => False) ∅ ∅ where
  mem := False.elim
  unique := False.elim

theorem single (slot slot' : Nat) :
    Pairing (fun here there => here = slot ∧ there = slot') {slot} {slot'} where
  mem := id
  unique := by
    rintro _ _ _ _ ⟨rfl, rfl⟩ ⟨rfl, rfl⟩
    exact iff_of_true rfl rfl

/-- Slots of regions without a common slot are paired independently. -/
theorem union (h : Pairing paired region region') (h' : Pairing paired' other other')
    (hdisjoint : Disjoint region other) (hdisjoint' : Disjoint region' other') :
    Pairing (fun slot slot' => paired slot slot' ∨ paired' slot slot') (region ∪ other)
      (region' ∪ other') where
  mem := by
    rintro slot slot' (hslot | hslot)
    · exact ⟨.inl (h.mem hslot).1, .inl (h.mem hslot).2⟩
    · exact ⟨.inr (h'.mem hslot).1, .inr (h'.mem hslot).2⟩
  unique := by
    have hapart {slot slot' second second' : Nat} (hfirst : paired slot slot')
        (hsecond : paired' second second') : slot ≠ second ∧ slot' ≠ second' := by
      constructor
      · rintro rfl
        exact Set.disjoint_left.mp hdisjoint (h.mem hfirst).1 (h'.mem hsecond).1
      · rintro rfl
        exact Set.disjoint_left.mp hdisjoint' (h.mem hfirst).2 (h'.mem hsecond).2
    rintro slot slot' second second' (hfirst | hfirst) (hsecond | hsecond)
    · exact h.unique hfirst hsecond
    · obtain ⟨hne, hne'⟩ := hapart hfirst hsecond
      exact iff_of_false hne hne'
    · obtain ⟨hne, hne'⟩ := hapart hsecond hfirst
      exact iff_of_false hne.symm hne'.symm
    · exact h'.unique hfirst hsecond

end Pairing

/-- The codes are the same but for their slots, which lie in these regions. -/
def PairedCode (region region' : Set Nat) (code code' : List Instr) : Prop :=
  ∃ paired, Pairing paired region region' ∧ List.Forall₂ (Instr.Paired paired) code code'

namespace PairedCode

variable {region region' other other' : Set Nat} {code code' rest rest' : List Instr}

theorem nil (region region' : Set Nat) : PairedCode region region' [] [] :=
  ⟨_, Pairing.empty.mono (Set.empty_subset _) (Set.empty_subset _), .nil⟩

theorem mono (h : PairedCode region region' code code') (hregion : region ⊆ other)
    (hregion' : region' ⊆ other') : PairedCode other other' code code' := by
  obtain ⟨paired, hpairing, hcode⟩ := h
  exact ⟨paired, hpairing.mono hregion hregion', hcode⟩

theorem cons {instr : Instr} (hfree : instr.slot? = none)
    (h : PairedCode region region' code code') :
    PairedCode region region' (instr :: code) (instr :: code') := by
  obtain ⟨paired, hpairing, hcode⟩ := h
  exact ⟨paired, hpairing, .cons (.same hfree) hcode⟩

theorem append_same (h : PairedCode region region' code code')
    (hfree : ∀ instr ∈ rest, instr.slot? = none) :
    PairedCode region region' (code ++ rest) (code' ++ rest) := by
  obtain ⟨paired, hpairing, hcode⟩ := h
  have hrest : List.Forall₂ (Instr.Paired paired) rest rest :=
    List.forall₂_same.mpr fun instr hmem => .same (hfree instr hmem)
  exact ⟨paired, hpairing, List.rel_append hcode hrest⟩

theorem append (h : PairedCode region region' code code') (h' : PairedCode other other' rest rest')
    (hdisjoint : Disjoint region other) (hdisjoint' : Disjoint region' other') :
    PairedCode (region ∪ other) (region' ∪ other') (code ++ rest) (code' ++ rest') := by
  obtain ⟨paired, hpairing, hcode⟩ := h
  obtain ⟨paired', hpairing', hrest⟩ := h'
  refine ⟨_, hpairing.union hpairing' hdisjoint hdisjoint', List.rel_append ?_ ?_⟩
  · exact hcode.imp fun _ _ hinstr => hinstr.mono .inl
  · exact hrest.imp fun _ _ hinstr => hinstr.mono .inr

/-- A loop around the code marks and checks a slot that the code leaves alone. -/
theorem guarded {slot slot' : Nat} (h : PairedCode region region' code code')
    (hslot : slot ∉ region) (hslot' : slot' ∉ region') {before before' behind behind' : List Instr}
    (hbefore : List.Forall₂ (Instr.Paired fun here there => here = slot ∧ there = slot')
      before before')
    (hbehind : List.Forall₂ (Instr.Paired fun here there => here = slot ∧ there = slot')
      behind behind') :
    PairedCode (insert slot region) (insert slot' region') (before ++ code ++ behind)
      (before' ++ code' ++ behind') := by
  obtain ⟨paired, hpairing, hcode⟩ := h
  have hunion := (Pairing.single slot slot').union hpairing
    (Set.disjoint_singleton_left.mpr hslot) (Set.disjoint_singleton_left.mpr hslot')
  refine ⟨_, hunion, List.rel_append (List.rel_append ?_ ?_) ?_⟩
  · exact hbefore.imp fun _ _ hinstr => hinstr.mono .inl
  · exact hcode.imp fun _ _ hinstr => hinstr.mono .inr
  · exact hbehind.imp fun _ _ hinstr => hinstr.mono .inl

/-- Code that takes so many slots, and code that takes the slots behind these. -/
theorem followed {slot slot' count more : Nat}
    (h : PairedCode (Set.Ico slot (slot + count)) (Set.Ico slot' (slot' + count)) code code')
    (h' : PairedCode (Set.Ico (slot + count) (slot + count + more))
      (Set.Ico (slot' + count) (slot' + count + more)) rest rest') :
    PairedCode (Set.Ico slot (slot + (count + more))) (Set.Ico slot' (slot' + (count + more)))
      (code ++ rest) (code' ++ rest') := by
  have hdisjoint (first : Nat) : Disjoint (Set.Ico first (first + count))
      (Set.Ico (first + count) (first + count + more)) := by
    rw [Set.disjoint_left]
    intro each hmem hmem'
    exact absurd hmem.2 (Nat.not_lt_of_le hmem'.1)
  have hunion (first : Nat) : Set.Ico first (first + count) ∪
      Set.Ico (first + count) (first + count + more) ⊆
        Set.Ico first (first + (count + more)) := by
    rintro each (hmem | hmem)
    · exact ⟨hmem.1, by have := hmem.2; omega⟩
    · exact ⟨by have := hmem.1; omega, by have := hmem.2; omega⟩
  exact (h.append h' (hdisjoint slot) (hdisjoint slot')).mono (hunion slot) (hunion slot')

end PairedCode

namespace Tree

/-- The trees take the same space and have the same code, wherever the slots of each are. -/
structure SameButSlots (first second : Tree) : Prop where
  codeSize : second.codeSize = first.codeSize
  loopCount : second.loopCount = first.loopCount
  sets : second.sets = first.sets
  nullable : second.nullable = first.nullable
  code : ∀ pc set slot slot', PairedCode (Set.Ico slot (slot + first.loopCount))
    (Set.Ico slot' (slot' + first.loopCount)) (first.code ⟨pc, set, slot⟩)
      (second.code ⟨pc, set, slot'⟩)

theorem SameButSlots.after {first second : Tree} (h : first.SameButSlots second) (here : Place) :
    here.after second = here.after first := by
  rw [Place.after, Place.after, h.codeSize, h.sets, h.loopCount]

/-! ### Repetitions -/

section Repetition

variable {first second : Tree} (h : first.SameButSlots second) (pc set : Nat)

include h

theorem paired_requiredRounds (count slot slot' : Nat) :
    PairedCode (Set.Ico slot (slot + count * first.loopCount))
      (Set.Ico slot' (slot' + count * first.loopCount))
      (requiredRounds (fun place => first.code place) (·.after first) count ⟨pc, set, slot⟩)
      (requiredRounds (fun place => second.code place) (·.after second) count
        ⟨pc, set, slot'⟩) := by
  induction count generalizing pc set slot slot' with
  | zero => exact .nil _ _
  | succ count ih =>
      rw [requiredRounds, requiredRounds, h.after, Nat.succ_mul, Nat.add_comm (count * _)]
      exact (h.code pc set slot slot').followed (ih _ _ _ _)

theorem paired_optionalRounds (greedy : Bool) (exit count slot slot' : Nat) :
    PairedCode (Set.Ico slot (slot + count * first.loopCount))
      (Set.Ico slot' (slot' + count * first.loopCount))
      (optionalRounds (fun place => first.code place) (·.after first) greedy exit count
        ⟨pc, set, slot⟩)
      (optionalRounds (fun place => second.code place) (·.after second) greedy exit count
        ⟨pc, set, slot'⟩) := by
  induction count generalizing pc set slot slot' with
  | zero => exact .nil _ _
  | succ count ih =>
      rw [optionalRounds, optionalRounds, h.after, Nat.succ_mul, Nat.add_comm (count * _)]
      exact ((h.code (pc + 1) set slot slot').followed (ih _ _ _ _)).cons
        (Instr.slot?_loopSplit greedy _ _)

theorem paired_starLoop (greedy : Bool) (slot slot' : Nat) :
    PairedCode (Set.Ico slot (slot + (first.loopCount + if first.nullable then 1 else 0)))
      (Set.Ico slot' (slot' + (first.loopCount + if first.nullable then 1 else 0)))
      (starLoop (fun place => first.code place) (·.after first) greedy first.nullable
        ⟨pc, set, slot⟩)
      (starLoop (fun place => second.code place) (·.after second) greedy second.nullable
        ⟨pc, set, slot'⟩) := by
  rw [h.nullable]
  unfold starLoop
  simp only [h.after]
  cases first.nullable with
  | true =>
      have hinside (each : Nat) : insert each (Set.Ico (each + 1) (each + 1 + first.loopCount)) ⊆
          Set.Ico each (each + (first.loopCount + 1)) :=
        Set.insert_subset ⟨Nat.le_refl _, by omega⟩ (Set.Ico_subset_Ico (by omega) (by omega))
      have hguarded := (h.code (pc + 2) set (slot + 1) (slot' + 1)).guarded
        (Set.notMem_Ico_of_lt (Nat.lt_succ_self slot))
        (Set.notMem_Ico_of_lt (Nat.lt_succ_self slot'))
        (.cons (.same (Instr.slot?_loopSplit greedy (pc + 1) (pc + 2 + first.codeSize + 2)))
          (.cons (.mark ⟨rfl, rfl⟩) .nil))
        (.cons (.check ⟨rfl, rfl⟩) (.cons (.same (Eq.refl (Instr.jump pc).slot?)) .nil))
      exact hguarded.mono (hinside slot) (hinside slot')
  | false =>
      have hbody := (h.code (pc + 1) set slot slot').append_same
        (List.forall_mem_singleton.mpr (Eq.refl (Instr.jump pc).slot?))
      exact hbody.cons (Instr.slot?_loopSplit greedy _ _)

theorem paired_plusLoop (greedy : Bool) (mark mark' slot slot' : Nat) :
    PairedCode (Set.Ico slot (slot + first.loopCount)) (Set.Ico slot' (slot' + first.loopCount))
      (plusLoop (fun place => first.code place) (·.after first) greedy false mark ⟨pc, set, slot⟩)
      (plusLoop (fun place => second.code place) (·.after second) greedy false mark'
        ⟨pc, set, slot'⟩) := by
  simp only [plusLoop, h.after, Bool.false_eq_true, if_false]
  exact (h.code pc set slot slot').append_same
    (List.forall_mem_singleton.mpr (Instr.slot?_loopSplit greedy _ _))

theorem paired_plusLoop_guarded (greedy : Bool) {mark mark' slot slot' : Nat}
    (hmark : mark ∉ Set.Ico slot (slot + first.loopCount))
    (hmark' : mark' ∉ Set.Ico slot' (slot' + first.loopCount)) :
    PairedCode (insert mark (Set.Ico slot (slot + first.loopCount)))
      (insert mark' (Set.Ico slot' (slot' + first.loopCount)))
      (plusLoop (fun place => first.code place) (·.after first) greedy true mark ⟨pc, set, slot⟩)
      (plusLoop (fun place => second.code place) (·.after second) greedy true mark'
        ⟨pc, set, slot'⟩) := by
  simp only [plusLoop, h.after, if_true]
  exact (h.code (pc + 1) set slot slot').guarded hmark hmark'
    (.cons (.mark ⟨rfl, rfl⟩) .nil)
    (.cons (.same (Instr.slot?_loopSplit greedy _ _))
      (.cons (.check ⟨rfl, rfl⟩) (.cons (.same (Eq.refl (Instr.jump pc).slot?)) .nil)))

end Repetition

/-! ### Arrangements of slots -/

section Arrangement

variable (slot required body : Nat)

/-- The slot of a loop before those of its rounds. -/
theorem slot_before_rounds :
    slot ∉ Set.Ico (slot + 1 + required) (slot + 1 + required + body) ∧
      Disjoint (Set.Ico (slot + 1) (slot + 1 + required))
        (insert slot (Set.Ico (slot + 1 + required) (slot + 1 + required + body))) ∧
      Set.Ico (slot + 1) (slot + 1 + required) ∪
          insert slot (Set.Ico (slot + 1 + required) (slot + 1 + required + body)) ⊆
        Set.Ico slot (slot + (required + body + 1)) := by
  simp only [Set.disjoint_left, Set.subset_def, Set.mem_union, Set.mem_insert_iff, Set.mem_Ico]
  refine ⟨?_, ?_, ?_⟩
  · omega
  · intro each
    omega
  · intro each
    omega

/-- The slot of a loop behind those of the rounds before its last one. -/
theorem slot_behind_rounds :
    slot + required ∉ Set.Ico (slot + required + 1) (slot + required + 1 + body) ∧
      Disjoint (Set.Ico slot (slot + required)) (insert (slot + required)
        (Set.Ico (slot + required + 1) (slot + required + 1 + body))) ∧
      Set.Ico slot (slot + required) ∪ insert (slot + required)
          (Set.Ico (slot + required + 1) (slot + required + 1 + body)) ⊆
        Set.Ico slot (slot + (required + body + 1)) := by
  simp only [Set.disjoint_left, Set.subset_def, Set.mem_union, Set.mem_insert_iff, Set.mem_Ico]
  refine ⟨?_, ?_, ?_⟩
  · omega
  · intro each
    omega
  · intro each
    omega

end Arrangement

/-! ### Surrounding trees -/

theorem sameButSlots_rep {body body' : Tree} (h : body.SameButSlots body') (times : Quantifier) :
    (rep body times).SameButSlots (rep body' times) where
  codeSize := by simp only [codeSize, h.codeSize, h.nullable]
  loopCount := by simp only [loopCount, h.loopCount, h.nullable]
  sets := by simp only [sets, h.sets]
  nullable := by simp only [nullable, h.nullable]
  code := by
    intro pc set slot slot'
    obtain ⟨min, max, greedy⟩ := times
    cases max with
    | none =>
        cases min with
        | zero =>
            have hstar := paired_starLoop h pc set greedy slot slot'
            simpa [loopCount, Quantifier.copies, code, repetition] using hstar
        | succ before =>
            have hcopies : (⟨before + 1, none, greedy⟩ : Quantifier).copies = before + 1 :=
              Nat.max_eq_left (Nat.le_add_left 1 before)
            simp only [loopCount, hcopies, Nat.succ_mul, code, repetition, h.nullable]
            cases hnullable : body.nullable with
            | false =>
                have hrequired := paired_requiredRounds h pc set before slot slot'
                have hloop := paired_plusLoop h (pc + before * body.codeSize)
                  (set + before * body.sets.length) greedy slot slot'
                  (slot + before * body.loopCount) (slot' + before * body.loopCount)
                have hwhole := hrequired.followed hloop
                simpa [h.after, Place.behindRounds_after] using hwhole
            | true =>
                have hrequired := paired_requiredRounds h pc set before (slot + 1) (slot' + 1)
                obtain ⟨hfresh, hapart, hinside⟩ :=
                  slot_before_rounds slot (before * body.loopCount) body.loopCount
                obtain ⟨hfresh', hapart', hinside'⟩ :=
                  slot_before_rounds slot' (before * body.loopCount) body.loopCount
                have hloop := paired_plusLoop_guarded h (pc + before * body.codeSize)
                  (set + before * body.sets.length) greedy hfresh hfresh'
                have hwhole := (hrequired.append hloop hapart hapart').mono hinside hinside'
                simpa [h.after, Place.behindRounds_after] using hwhole
    | some max =>
        have hrequired := paired_requiredRounds h pc set min slot slot'
        have hoptional := paired_optionalRounds h (pc + min * body.codeSize)
          (set + min * body.sets.length) greedy
          (pc + min * body.codeSize + (max - min) * (body.codeSize + 1)) (max - min)
          (slot + min * body.loopCount) (slot' + min * body.loopCount)
        have hwhole := hrequired.followed hoptional
        simp only [code, repetition, h.after, pc_round]
        simpa [loopCount, Quantifier.copies, h.after, Place.behindRounds_after, Nat.add_mul]
          using hwhole

theorem isCongruence_sameButSlots : IsCongruence SameButSlots := by
  have hgroup {body body' : Tree} (position : Nat) (index : Option Nat)
      (h : body.SameButSlots body') :
      (Tree.group position index body).SameButSlots (.group position index body') := by
    refine ⟨?_, h.loopCount, h.sets, h.nullable, ?_⟩
    · simp only [codeSize, h.codeSize]
    · intro pc set slot slot'
      cases index with
      | none => exact h.code pc set slot slot'
      | some index =>
          have hbody := (h.code (pc + 1) set slot slot').append_same
            (List.forall_mem_singleton.mpr (Eq.refl (Instr.closeGroup index).slot?))
          exact hbody.cons rfl
  have hcat {first first' rest rest' : Tree} (hfirst : first.SameButSlots first')
      (hrest : rest.SameButSlots rest') : (cat first rest).SameButSlots (cat first' rest') := by
    constructor
    · simp only [codeSize, hfirst.codeSize, hrest.codeSize]
    · simp only [loopCount, hfirst.loopCount, hrest.loopCount]
    · simp only [sets, hfirst.sets, hrest.sets]
    · simp only [nullable, hfirst.nullable, hrest.nullable]
    · intro pc set slot slot'
      simp only [code, hfirst.after]
      exact (hfirst.code pc set slot slot').followed (hrest.code _ _ _ _)
  have halt {first first' rest rest' : Tree} (hfirst : first.SameButSlots first')
      (hrest : rest.SameButSlots rest') : (alt first rest).SameButSlots (alt first' rest') := by
    constructor
    · simp only [codeSize, hfirst.codeSize, hrest.codeSize]
    · simp only [loopCount, hfirst.loopCount, hrest.loopCount]
    · simp only [sets, hfirst.sets, hrest.sets]
    · simp only [nullable, hfirst.nullable, hrest.nullable]
    · intro pc set slot slot'
      simp only [code, hfirst.after, hrest.codeSize]
      have hright := (hrest.code (pc + 1 + first.codeSize + 1) (set + first.sets.length)
        (slot + first.loopCount) (slot' + first.loopCount)).cons
          (Eq.refl (Instr.jump (pc + 1 + first.codeSize + 1 + rest.codeSize)).slot?)
      exact ((hfirst.code (pc + 1) set slot slot').followed hright).cons rfl
  refine ⟨?_, hgroup, hcat, halt, fun times h => sameButSlots_rep h times, ?_⟩
  · intro tree
    induction tree with
    | atom position a =>
        refine ⟨rfl, rfl, rfl, rfl, ?_⟩
        intro pc set slot slot'
        have hatom : (a.instr ⟨pc, set, slot'⟩) = a.instr ⟨pc, set, slot⟩ := by cases a <;> rfl
        rw [code, code, hatom]
        exact (PairedCode.nil _ _).cons (by cases a <;> rfl)
    | group position index body ih => exact hgroup position index ih
    | cat first rest ihfirst ihrest => exact hcat ihfirst ihrest
    | alt first rest ihfirst ihrest => exact halt ihfirst ihrest
    | rep body times ih => exact sameButSlots_rep ih times
  · intro first first' rest rest' hfirst hrest
    constructor
    · simp only [codeSize_sequence_append, hfirst.codeSize, hrest.codeSize]
    · simp only [loopCount_sequence_append, hfirst.loopCount, hrest.loopCount]
    · simp only [sets_sequence_append, hfirst.sets, hrest.sets]
    · simp only [nullable_sequence_append, hfirst.nullable, hrest.nullable]
    · intro pc set slot slot'
      simp only [code_sequence_append, loopCount_sequence_append, hfirst.after]
      exact (hfirst.code pc set slot slot').followed (hrest.code _ _ _ _)

/-! ### Loops with their first rounds in front -/

/-- A loop that asks for some rounds is laid out as so many copies less one, and a loop that asks
for one round, except that it takes its own slot first. -/
theorem sameButSlots_loop (body : Tree) (before : Nat) (greedy : Bool) :
    (sequence [rep body ⟨before + 1, none, greedy⟩]).SameButSlots
      (sequence (List.replicate before body ++ [rep body ⟨1, none, greedy⟩])) := by
  have h := isCongruence_sameButSlots.refl body
  have hcopies : (⟨before + 1, none, greedy⟩ : Quantifier).copies = before + 1 :=
    Nat.max_eq_left (Nat.le_add_left 1 before)
  have hcopy : (⟨1, none, greedy⟩ : Quantifier).copies = 1 := rfl
  constructor
  · rw [codeSize_sequence_append, codeSize_copies]
    simp only [sequence, codeSize, Nat.succ_mul, Nat.zero_mul, Nat.zero_add, Nat.add_assoc]
  · rw [loopCount_sequence_append, loopCount_copies]
    simp only [sequence, loopCount, hcopies, hcopy, Nat.succ_mul, Nat.zero_mul, Nat.zero_add,
      Nat.add_assoc]
  · rw [sets_sequence_append, sets_copies]
    simp only [sequence, sets, hcopies, hcopy, List.replicate_add, List.flatten_append]
  · rw [nullable_sequence_append, nullable_copies]
    simp only [sequence, nullable]
    cases body.nullable <;> simp
  · intro pc set slot slot'
    rw [code_sequence_append, code_copies, after_copies]
    simp only [sequence, loopCount, hcopies, code, repetition, requiredRounds, behindRounds,
      Place.behindRounds_after, List.nil_append, Nat.succ_mul]
    cases hnullable : body.nullable with
    | false =>
        have hrequired := paired_requiredRounds h pc set before slot slot'
        have hloop := paired_plusLoop h (pc + before * body.codeSize)
          (set + before * body.sets.length) greedy slot (slot' + before * body.loopCount)
          (slot + before * body.loopCount) (slot' + before * body.loopCount)
        simpa [Place.behindRounds_after] using hrequired.followed hloop
    | true =>
        have hrequired := paired_requiredRounds h pc set before (slot + 1) slot'
        obtain ⟨hfresh, hapart, hinside⟩ :=
          slot_before_rounds slot (before * body.loopCount) body.loopCount
        obtain ⟨hfresh', hapart', hinside'⟩ :=
          slot_behind_rounds slot' (before * body.loopCount) body.loopCount
        have hloop := paired_plusLoop_guarded h (pc + before * body.codeSize)
          (set + before * body.sets.length) greedy hfresh hfresh'
        have hwhole := (hrequired.append hloop hapart hapart').mono hinside hinside'
        simpa [Place.behindRounds_after] using hwhole

/-- Programs of trees that agree but for their slots. -/
theorem paired_ofTree {first second : Tree} (h : first.SameButSlots second) (groups : Nat) :
    ∃ paired, (Program.ofTree first groups).Paired paired (Program.ofTree second groups) := by
  obtain ⟨paired, hpairing, hcode⟩ := h.code 1 0 0 0
  have hregion : Set.Ico 0 (0 + first.loopCount) ⊆ Set.Iio first.loopCount :=
    fun slot hmem => by simpa using hmem.2
  refine ⟨paired, ?_, ?_, rfl, h.loopCount, hpairing.mono hregion hregion⟩
  · exact .cons (.same rfl) (List.rel_append hcode (.cons (.same rfl) (.cons (.same rfl) .nil)))
  · simp only [Program.ofTree, h.sets]

end Tree

/-- A repetition is its written-out form, in every surrounding tree. A counted repetition and the
copies that it stands for, the optional ones inside one another, have the same program, the same
cost, and are nullable alike. A repetition without bound that asks for some rounds and the copies of
all but its last one in front of a repetition that asks for one round give the same answers after
the same numbers of steps, although their slots may differ. -/
theorem repetition_is_its_written_out_form (body : Tree) (greedy : Bool)
    (surrounding : Surrounding) :
    (∀ min max, min ≤ max →
      let counted := surrounding.fill [.rep body ⟨min, some max, greedy⟩]
      let written := surrounding.fill (body.writtenOut min max greedy)
      counted.cost = written.cost ∧ counted.nullable = written.nullable ∧
      ∀ maxUnroll maxUnroll' groups program program',
        Program.lower maxUnroll counted groups = .ok program →
        Program.lower maxUnroll' written groups = .ok program' → program = program') ∧
    ∀ min, 0 < min →
      let counted := surrounding.fill [.rep body ⟨min, none, greedy⟩]
      let written := surrounding.fill
        (List.replicate (min - 1) body ++ [.rep body ⟨1, none, greedy⟩])
      ∀ maxUnroll maxUnroll' groups program program',
        Program.lower maxUnroll counted groups = .ok program →
        Program.lower maxUnroll' written groups = .ok program' →
        ∀ text anchoredEnd start,
          (∀ limit, attempt program text limit anchoredEnd start =
            attempt program' text limit anchoredEnd start) ∧
          ∀ bound, stepsWithin? bound program text anchoredEnd start =
            stepsWithin? bound program' text anchoredEnd start := by
  constructor
  · intro min max _ counted written
    have hsame : counted.SameLayout written := Tree.isCongruence_sameLayout.fill
      (Tree.sameLayout_writtenOut body min max greedy) surrounding
    refine ⟨hsame.cost, hsame.nullable, ?_⟩
    intro maxUnroll maxUnroll' groups program program' hlower hlower'
    rw [ofTree_of_lower hlower, ofTree_of_lower hlower', hsame.ofTree]
  · intro min hmin counted written maxUnroll maxUnroll' groups program program' hlower hlower'
    obtain ⟨before, rfl⟩ := Nat.exists_eq_succ_of_ne_zero hmin.ne'
    have hsame : counted.SameButSlots written := Tree.isCongruence_sameButSlots.fill
      (Tree.sameButSlots_loop body before greedy) surrounding
    obtain ⟨paired, hpaired⟩ := Tree.paired_ofTree hsame groups
    intro text anchoredEnd start
    rw [ofTree_of_lower hlower, ofTree_of_lower hlower']
    obtain ⟨hattempts, hsteps⟩ := attempt_eq_of_paired hpaired text anchoredEnd start
    exact ⟨fun limit => (hattempts limit).symm, fun bound => (hsteps bound).symm⟩

/-- In `(?:(?:(?:a*)*){2,}b)*` the loop takes its slot before the copy in front of it, and in the
written-out form behind it. With `{1,2}` in the place of `{2,}` the programs are the same. -/
theorem repetition_is_its_written_out_form_of_nullable_body :
    let inner := Tree.group 6 none (.rep (.atom 9 (.byte 97)) ⟨0, none, true⟩)
    let body := Tree.group 3 none (.rep inner ⟨0, none, true⟩)
    let surrounding := Surrounding.rep
      (.group 0 none (.among [] [.atom 18 (.byte 98)])) ⟨0, none, true⟩
    let loop := Program.ofTree (surrounding.fill [.rep body ⟨2, none, true⟩]) 0
    let copies := Program.ofTree (surrounding.fill [body, .rep body ⟨1, none, true⟩]) 0
    (loop ≠ copies ∧ ∀ text limit, attempt loop text limit true 0 =
      attempt copies text limit true 0) ∧
    Program.ofTree (surrounding.fill [.rep body ⟨1, some 2, true⟩]) 0 =
      Program.ofTree (surrounding.fill [body, .rep body ⟨0, some 1, true⟩]) 0 := by
  intro inner body surrounding loop copies
  obtain ⟨hcounted, hunbounded⟩ := repetition_is_its_written_out_form body true surrounding
  refine ⟨⟨by decide, ?_⟩, ?_⟩
  · intro text limit
    exact (hunbounded 2 Nat.two_pos 2000 2000 0 loop copies rfl rfl text true 0).1 limit
  · exact (hcounted 1 2 (Nat.le_succ 1)).2.2 2000 2000 0 _ _ rfl rfl

end RegexSearch
