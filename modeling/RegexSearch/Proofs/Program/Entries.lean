import Mathlib.Data.List.Perm.Basic
import RegexSearch.Proofs.Program.Extent

/-!
What the code of a tree takes from the tables. The layout sets aside as many sets and loop slots
as the tree needs, and the code uses each of them: every set is referred to by one instruction,
and every slot is marked by one instruction and checked by one. The rounds of a repetition take
their entries one after the other, whatever the table is.
-/

namespace RegexSearch

namespace Instr

/-- The set that the instruction refers to. -/
def set? : Instr → Option Nat
  | set index => some index
  | _ => none

/-- The slot that the instruction marks. -/
def marked? : Instr → Option Nat
  | mark slot => some slot
  | _ => none

/-- The slot that the instruction checks. -/
def checked? : Instr → Option Nat
  | check slot => some slot
  | _ => none

end Instr

/-! ### Rounds -/

section Rounds

variable {emit : Place → List Instr} {behind : Place → Place} {used? : Instr → Option Nat}
  {entry : Place → Nat} {size : Nat}
  (hemit : ∀ here, ((emit here).filterMap used?).Perm (List.range' (entry here) size))
  (hbehind : ∀ here, entry (behind here) = entry here + size)

include hbehind

theorem entry_behindRounds (count : Nat) (here : Place) :
    entry (behindRounds behind count here) = entry here + count * size := by
  induction count generalizing here with
  | zero => simp [behindRounds]
  | succ count ih =>
      rw [behindRounds, ih, hbehind, Nat.succ_mul]
      omega

include hemit

theorem perm_requiredRounds (count : Nat) (here : Place) :
    ((requiredRounds emit behind count here).filterMap used?).Perm
      (List.range' (entry here) (count * size)) := by
  induction count generalizing here with
  | zero => simp [requiredRounds]
  | succ count ih =>
      have hrest := ih (behind here)
      rw [hbehind] at hrest
      rw [requiredRounds, List.filterMap_append, Nat.succ_mul, Nat.add_comm (count * size),
        ← List.range'_append_1]
      exact (hemit here).append hrest

theorem perm_optionalRounds (hskip : ∀ here : Place, entry (here.skip 1) = entry here)
    (hsplit : ∀ preferred other, used? (.split preferred other) = none) (greedy : Bool)
    (exit count : Nat) (here : Place) :
    ((optionalRounds emit behind greedy exit count here).filterMap used?).Perm
      (List.range' (entry here) (count * size)) := by
  have hbranch (body : Nat) : used? (Instr.loopSplit greedy body exit) = none := by
    cases greedy <;> exact hsplit _ _
  induction count generalizing here with
  | zero => simp [optionalRounds]
  | succ count ih =>
      have hbody := hemit (here.skip 1)
      have hrest := ih (behind (here.skip 1))
      rw [hskip] at hbody
      rw [hbehind, hskip] at hrest
      rw [optionalRounds, List.cons_append, List.filterMap_cons_none (hbranch _),
        List.filterMap_append, Nat.succ_mul, Nat.add_comm (count * size), ← List.range'_append_1]
      exact hbody.append hrest

end Rounds

/-! ### Tables -/

/-- How the code of trees uses a table: the entry that an instruction uses, the first free entry of
a place, how many entries a tree takes, and how many of these a guarded loop takes for itself. -/
structure Table where
  used? : Instr → Option Nat
  entry : Place → Nat
  size : Tree → Nat
  guard : Nat

namespace Table

/-- The entries of a tree are those of its atoms, of its parts as often as they are written, and of
the guards of its loops. -/
structure Lawful (table : Table) : Prop where
  split (preferred other : Nat) : table.used? (.split preferred other) = none
  jump (target : Nat) : table.used? (.jump target) = none
  openGroup (index : Nat) : table.used? (.openGroup index) = none
  closeGroup (index : Nat) : table.used? (.closeGroup index) = none
  accept : table.used? .accept = none
  guarded (here : Place) : (table.used? (.mark here.slot)).toList ++
    (table.used? (.check here.slot)).toList = List.range' (table.entry here) table.guard
  atom (position : Nat) (a : Atom) (here : Place) : (table.used? (a.instr here)).toList =
    List.range' (table.entry here) (table.size (.atom position a))
  group (position : Nat) (index : Option Nat) (body : Tree) :
    table.size (.group position index body) = table.size body
  cat (first rest : Tree) : table.size (.cat first rest) = table.size first + table.size rest
  alt (first rest : Tree) : table.size (.alt first rest) = table.size first + table.size rest
  rep (body : Tree) (times : Quantifier) : table.size (.rep body times) =
    times.copies * table.size body +
      if times.max.isNone && body.nullable then table.guard else 0
  after (here : Place) (tree : Tree) :
    table.entry (here.after tree) = table.entry here + table.size tree
  marked (pc : Nat) (here : Place) :
    table.entry ⟨pc, here.set, here.slot + 1⟩ = table.entry here + table.guard
  place (pc : Nat) (here : Place) : table.entry { here with pc } = table.entry here

namespace Lawful

variable {table : Table}

theorem skip (h : table.Lawful) (here : Place) (count : Nat) :
    table.entry (here.skip count) = table.entry here :=
  h.place (here.pc + count) here

theorem loopSplit (h : table.Lawful) (greedy : Bool) (body exit : Nat) :
    table.used? (Instr.loopSplit greedy body exit) = none := by
  cases greedy <;> exact h.split _ _

/-- The instructions of a guard use the first entries, wherever they stand around the body. -/
theorem perm_guarded (h : table.Lawful) (here : Place) {inner : List Nat} {first size : Nat}
    (hfirst : first = table.entry here + table.guard)
    (hinner : inner.Perm (List.range' first size)) :
    ((table.used? (.mark here.slot)).toList ++ (inner ++
      (table.used? (.check here.slot)).toList)).Perm
        (List.range' (table.entry here) (table.guard + size)) := by
  rw [← List.range'_append_1, ← h.guarded here, List.append_assoc, ← hfirst]
  refine List.Perm.append_left _ ?_
  exact List.perm_append_comm.trans (List.Perm.append_left _ hinner)

section Repetition

variable (h : table.Lawful) {body : Tree}
  (hbody : ∀ here, ((body.code here).filterMap table.used?).Perm
    (List.range' (table.entry here) (table.size body)))

include h hbody

theorem perm_starLoop (greedy : Bool) (here : Place) :
    ((starLoop (fun place => body.code place) (·.after body) greedy body.nullable here).filterMap
      table.used?).Perm (List.range' (table.entry here)
        ((if body.nullable then table.guard else 0) + table.size body)) := by
  unfold starLoop
  cases body.nullable with
  | true =>
      simp only [if_true, List.cons_append, List.filterMap_eq_flatMap_toList, List.flatMap_cons,
        List.flatMap_append, List.flatMap_nil, h.loopSplit, h.jump, Option.toList_none,
        List.nil_append, List.append_nil]
      apply h.perm_guarded here (h.marked (here.pc + 2) here)
      rw [← List.filterMap_eq_flatMap_toList]
      exact hbody _
  | false =>
      simp only [Bool.false_eq_true, if_false, List.cons_append, List.filterMap_append,
        List.filterMap_cons_none (h.loopSplit _ _ _), List.filterMap_cons_none (h.jump _),
        List.filterMap_nil, List.append_nil, Nat.zero_add]
      have hcode := hbody (here.skip 1)
      rwa [h.skip] at hcode

/-- The slot of a loop that follows required rounds was set aside before theirs. -/
theorem perm_plusLoop (greedy : Bool) (here first : Place) {rounds : List Nat} {count : Nat}
    (hfirst : table.entry first = table.entry here + (if body.nullable then table.guard else 0))
    (hrounds : rounds.Perm (List.range' (table.entry first) count))
    {last : Place} (hlast : table.entry last = table.entry first + count) :
    (rounds ++ (plusLoop (fun place => body.code place) (·.after body) greedy body.nullable
      here.slot last).filterMap table.used?).Perm (List.range' (table.entry here)
        ((if body.nullable then table.guard else 0) + (count + table.size body))) := by
  unfold plusLoop
  cases hnullable : body.nullable with
  | true =>
      rw [hnullable] at hfirst
      simp only [if_true] at hfirst ⊢
      simp only [List.cons_append, List.filterMap_eq_flatMap_toList, List.flatMap_cons,
        List.flatMap_append, List.flatMap_nil, h.loopSplit, h.jump, Option.toList_none,
        List.nil_append, List.append_nil]
      rw [← List.filterMap_eq_flatMap_toList]
      have hcode := hbody (last.skip 1)
      rw [h.skip, hlast] at hcode
      have hall := hrounds.append hcode
      rw [List.range'_append_1] at hall
      have hguarded := h.perm_guarded here hfirst hall
      rw [List.append_assoc rounds] at hguarded
      exact (List.perm_append_comm_assoc _ _ _).trans hguarded
  | false =>
      rw [hnullable] at hfirst
      simp only [Bool.false_eq_true, if_false, Nat.add_zero, Nat.zero_add] at hfirst ⊢
      rw [List.filterMap_append, List.filterMap_cons_none (h.loopSplit _ _ _), List.filterMap_nil,
        List.append_nil, ← hfirst, ← List.range'_append_1]
      have hcode := hbody last
      rw [hlast] at hcode
      exact hrounds.append hcode

theorem perm_repetition (times : Quantifier) (here : Place) :
    (((Tree.rep body times).code here).filterMap table.used?).Perm
      (List.range' (table.entry here) (table.size (.rep body times))) := by
  have hbehind (place : Place) : table.entry (place.after body) =
      table.entry place + table.size body := h.after place body
  have hrounds := entry_behindRounds hbehind
  rw [h.rep]
  obtain ⟨min, max, greedy⟩ := times
  cases max with
  | none =>
      simp only [Option.isNone_none, Bool.true_and, Quantifier.copies]
      cases min with
      | zero =>
          rw [Nat.zero_max, Nat.one_mul, Nat.add_comm]
          exact h.perm_starLoop hbody greedy here
      | succ before =>
          rw [Nat.max_eq_left (Nat.le_add_left 1 before), Nat.succ_mul,
            Nat.add_comm (before * _ + _)]
          let first : Place := if body.nullable then { here with slot := here.slot + 1 } else here
          have hfirst : table.entry first =
              table.entry here + (if body.nullable then table.guard else 0) := by
            cases hnullable : body.nullable with
            | true => simpa [first, hnullable] using h.marked here.pc here
            | false => simp [first, hnullable]
          change (List.filterMap _ (requiredRounds _ _ before first ++ _)).Perm _
          rw [List.filterMap_append]
          exact h.perm_plusLoop hbody greedy here first hfirst
            (perm_requiredRounds hbody hbehind before first) (hrounds before first)
  | some max =>
      simp only [Option.isNone_some, Bool.false_and, Bool.false_eq_true, if_false, Nat.add_zero,
        Quantifier.copies, Nat.add_mul]
      rw [← List.range'_append_1]
      change (List.filterMap _ (requiredRounds _ _ min here ++ _)).Perm _
      rw [List.filterMap_append]
      refine (perm_requiredRounds hbody hbehind min here).append ?_
      rw [← hrounds min here]
      exact perm_optionalRounds hbody hbehind (fun place => h.skip place 1) h.split _ _ _ _

end Repetition

/-- The code of a tree uses the entries that are set aside for it, each one once. -/
theorem perm_code (h : table.Lawful) (tree : Tree) (here : Place) :
    ((tree.code here).filterMap table.used?).Perm
      (List.range' (table.entry here) (table.size tree)) := by
  induction tree generalizing here with
  | atom position a =>
      rw [← h.atom position a here, Tree.code]
      cases htable : table.used? (a.instr here) with
      | none => rw [List.filterMap_cons_none htable]; rfl
      | some entry => rw [List.filterMap_cons_some htable]; rfl
  | group position index body ih =>
      rw [h.group]
      cases index with
      | none => exact ih here
      | some index =>
          have hbody := ih (here.skip 1)
          rw [h.skip] at hbody
          rwa [Tree.code, List.cons_append, List.filterMap_cons_none (h.openGroup index),
            List.filterMap_append, List.filterMap_cons_none (h.closeGroup index),
            List.filterMap_nil, List.append_nil]
  | cat first rest ihf ihr =>
      have hrest := ihr (here.after first)
      rw [h.after] at hrest
      rw [h.cat, ← List.range'_append_1, Tree.code, List.filterMap_append]
      exact (ihf here).append hrest
  | alt first rest ihf ihr =>
      have hfirst := ihf (here.skip 1)
      have hrest := ihr (((here.skip 1).after first).skip 1)
      rw [h.skip] at hfirst
      rw [h.skip, h.after, h.skip] at hrest
      rw [h.alt, ← List.range'_append_1, Tree.code, List.cons_append,
        List.filterMap_cons_none (h.split _ _), List.filterMap_append,
        List.filterMap_cons_none (h.jump _)]
      exact hfirst.append hrest
  | rep body times ih => exact h.perm_repetition ih times here

theorem perm_ofTree (h : table.Lawful) (tree : Tree) (groups : Nat) :
    ((Program.ofTree tree groups).code.toList.filterMap table.used?).Perm
      (List.range' (table.entry ⟨1, 0, 0⟩) (table.size tree)) := by
  have hcode := h.perm_code tree ⟨1, 0, 0⟩
  simpa [Program.ofTree, Program.wrap, List.filterMap_cons_none (h.openGroup 0),
    List.filterMap_cons_none (h.closeGroup 0), List.filterMap_cons_none h.accept] using hcode

/-- No two instructions of a program use the same entry. -/
theorem position_unique (h : table.Lawful) {tree : Tree} {groups pc pc' entry : Nat}
    {instr instr' : Instr} (hinstr : (Program.ofTree tree groups).code[pc]? = some instr)
    (hinstr' : (Program.ofTree tree groups).code[pc']? = some instr')
    (hentry : table.used? instr = some entry) (hentry' : table.used? instr' = some entry) :
    pc = pc' := by
  have hnodup := (h.perm_ofTree tree groups).nodup_iff.mpr List.nodup_range'
  have hpairs := List.pairwise_iff_getElem.mp (List.pairwise_filterMap.mp hnodup)
  rw [← Array.getElem?_toList, List.getElem?_eq_some_iff] at hinstr hinstr'
  obtain ⟨hlt, rfl⟩ := hinstr
  obtain ⟨hlt', rfl⟩ := hinstr'
  rcases Nat.lt_trichotomy pc pc' with hbefore | heq | hbehind
  · exact absurd rfl (hpairs pc pc' hlt hlt' hbefore entry hentry entry hentry')
  · exact heq
  · exact absurd rfl (hpairs pc' pc hlt' hlt hbehind entry hentry' entry hentry)

end Lawful

/-- The table of sets. -/
def sets : Table where
  used? := Instr.set?
  entry := Place.set
  size tree := tree.sets.length
  guard := 0

/-- The slots of loops, as they are marked. -/
def marks : Table where
  used? := Instr.marked?
  entry := Place.slot
  size := Tree.loopCount
  guard := 1

/-- The slots of loops, as they are checked. -/
def checks : Table :=
  { marks with used? := Instr.checked? }

theorem lawful_sets : sets.Lawful where
  split _ _ := rfl
  jump _ := rfl
  openGroup _ := rfl
  closeGroup _ := rfl
  accept := rfl
  guarded _ := rfl
  atom _ a _ := by cases a <;> rfl
  group _ _ _ := rfl
  cat first rest := List.length_append
  alt first rest := List.length_append
  rep body times := by simp [sets, Tree.sets]
  after _ _ := rfl
  marked _ _ := rfl
  place _ _ := rfl

theorem lawful_marks : marks.Lawful where
  split _ _ := rfl
  jump _ := rfl
  openGroup _ := rfl
  closeGroup _ := rfl
  accept := rfl
  guarded _ := rfl
  atom _ a _ := by cases a <;> rfl
  group _ _ _ := rfl
  cat _ _ := rfl
  alt _ _ := rfl
  rep _ _ := rfl
  after _ _ := rfl
  marked _ _ := rfl
  place _ _ := rfl

theorem lawful_checks : checks.Lawful :=
  { lawful_marks with
    split := fun _ _ => rfl
    jump := fun _ => rfl
    openGroup := fun _ => rfl
    closeGroup := fun _ => rfl
    accept := rfl
    guarded := fun _ => rfl
    atom := fun _ a _ => by cases a <;> rfl }

end Table

end RegexSearch
