import RegexSearch.Program.Layout
import RegexSearch.Proofs.Machine.Branches
import RegexSearch.Proofs.Pattern.Groups

/-!
How far the code of a tree reaches. The code refers to nothing outside of its own place: its
targets run from its first instruction to the one behind its last, its sets and loop slots are
those that its layout sets aside, and its groups and backreferences are those of the tree. It never
accepts. So whatever stands around the code of a tree is left alone by it.
-/

namespace RegexSearch

/-- The numbers of the backreferences, in the order in which they are written. -/
def Tree.references : Tree → List Nat
  | atom _ (.backref number) => [number]
  | atom .. => []
  | group _ _ body => body.references
  | cat first rest => first.references ++ rest.references
  | alt first rest => first.references ++ rest.references
  | rep body _ => body.references

/-! ### Places -/

/-- The second place is not before the first in any table. -/
structure Place.Le (here there : Place) : Prop where
  pc : here.pc ≤ there.pc
  set : here.set ≤ there.set
  slot : here.slot ≤ there.slot

namespace Place

variable {here middle there : Place}

theorem Le.refl (here : Place) : here.Le here :=
  ⟨Nat.le_refl _, Nat.le_refl _, Nat.le_refl _⟩

theorem Le.trans (h : here.Le middle) (h' : middle.Le there) : here.Le there :=
  ⟨Nat.le_trans h.pc h'.pc, Nat.le_trans h.set h'.set, Nat.le_trans h.slot h'.slot⟩

theorem Le.after (here : Place) (tree : Tree) : here.Le (here.after tree) :=
  ⟨Nat.le_add_right _ _, Nat.le_add_right _ _, Nat.le_add_right _ _⟩

theorem Le.skip (here : Place) (count : Nat) : here.Le (here.skip count) :=
  ⟨Nat.le_add_right _ _, Nat.le_refl _, Nat.le_refl _⟩

theorem Le.behindRounds {behind : Place → Place}
    (hbehind : ∀ place : Place, place.Le (behind place)) (count : Nat) (here : Place) :
    here.Le (behindRounds behind count here) := by
  induction count generalizing here with
  | zero => exact refl here
  | succ count ih => exact (hbehind here).trans (ih (behind here))

theorem behindRounds_after (body : Tree) (count : Nat) (here : Place) :
    behindRounds (·.after body) count here =
      ⟨here.pc + count * body.codeSize, here.set + count * body.sets.length,
        here.slot + count * body.loopCount⟩ := by
  induction count generalizing here with
  | zero => simp [behindRounds]
  | succ count ih =>
      rw [behindRounds, ih]
      simp only [Place.after, Nat.succ_mul, Place.mk.injEq]
      omega

theorem behindRounds_skip_after (body : Tree) (count : Nat) (here : Place) :
    behindRounds (fun place => (place.skip 1).after body) count here =
      ⟨here.pc + count * (body.codeSize + 1), here.set + count * body.sets.length,
        here.slot + count * body.loopCount⟩ := by
  induction count generalizing here with
  | zero => simp [behindRounds]
  | succ count ih =>
      rw [behindRounds, ih]
      simp only [Place.after, Place.skip, Nat.succ_mul, Place.mk.injEq]
      omega

theorem after_rep (here : Place) (body : Tree) (times : Quantifier) :
    here.after (.rep body times) =
      ⟨here.pc + (Tree.rep body times).codeSize, here.set + times.copies * body.sets.length,
        here.slot + (times.copies * body.loopCount +
          if times.max.isNone && body.nullable then 1 else 0)⟩ := by
  simp [Place.after, Tree.sets, Tree.loopCount]

end Place

/-! ### Instructions between two places -/

namespace Instr

/-- What an instruction refers to lies between two places: its targets, of which the second place
may be one, its set and its slot. Groups and backreferences are named in lists. -/
def Between (first last : Place) (groups references : List Nat) : Instr → Prop
  | set index => first.set ≤ index ∧ index < last.set
  | split preferred other =>
    (first.pc ≤ preferred ∧ preferred ≤ last.pc) ∧ first.pc ≤ other ∧ other ≤ last.pc
  | jump target => first.pc ≤ target ∧ target ≤ last.pc
  | openGroup group => group ∈ groups
  | closeGroup group => group ∈ groups
  | backref group => group ∈ references
  | mark slot => first.slot ≤ slot ∧ slot < last.slot
  | check slot => first.slot ≤ slot ∧ slot < last.slot
  | accept => False
  | _ => True

variable {first last : Place} {groups references : List Nat}

theorem Between.target {instr : Instr} (h : instr.Between first last groups references)
    {target : Nat} (htarget : target ∈ instr.targets) :
    first.pc ≤ target ∧ target ≤ last.pc := by
  cases instr with
  | split preferred other =>
      simp only [targets, List.mem_cons, List.not_mem_nil, or_false] at htarget
      rcases htarget with rfl | rfl
      · exact h.1
      · exact h.2
  | jump only =>
      rw [List.mem_singleton.mp htarget]
      exact h
  | _ => cases htarget

theorem between_loopSplit (greedy : Bool) {body exit : Nat}
    (hbody : first.pc ≤ body ∧ body ≤ last.pc) (hexit : first.pc ≤ exit ∧ exit ≤ last.pc) :
    (loopSplit greedy body exit).Between first last groups references := by
  cases greedy with
  | true => exact ⟨hbody, hexit⟩
  | false => exact ⟨hexit, hbody⟩

end Instr

/-! ### Code between two places -/

/-- All instructions refer to what lies between two places. -/
def Confined (first last : Place) (groups references : List Nat) (code : List Instr) : Prop :=
  ∀ instr ∈ code, instr.Between first last groups references

section Confined

variable {first last : Place} {groups references : List Nat} {code rest : List Instr}
  {instr : Instr}

theorem confined_nil : Confined first last groups references [] := fun _ hmem => nomatch hmem

theorem confined_cons :
    Confined first last groups references (instr :: rest) ↔
      instr.Between first last groups references ∧ Confined first last groups references rest :=
  List.forall_mem_cons

theorem confined_append :
    Confined first last groups references (code ++ rest) ↔
      Confined first last groups references code ∧ Confined first last groups references rest :=
  List.forall_mem_append

end Confined

section Repetition

variable {body : Tree} {first last : Place} {groups references : List Nat}
  (hbody : ∀ {here : Place}, first.Le here → (here.after body).Le last →
    Confined first last groups references (body.code here))

include hbody

theorem confined_requiredRounds {count : Nat} {here : Place} (hfirst : first.Le here)
    (hlast : (behindRounds (·.after body) count here).Le last) :
    Confined first last groups references
      (requiredRounds (fun place => body.code place) (·.after body) count here) := by
  induction count generalizing here with
  | zero => exact confined_nil
  | succ count ih =>
      have hround := (Place.Le.behindRounds (fun place => .after place body) count _).trans hlast
      exact confined_append.mpr
        ⟨hbody hfirst hround, ih (hfirst.trans (.after here body)) hlast⟩

theorem confined_optionalRounds {greedy : Bool} {exit count : Nat} {here : Place}
    (hfirst : first.Le here) (hexit : first.pc ≤ exit ∧ exit ≤ last.pc)
    (hlast : (behindRounds (fun place => (place.skip 1).after body) count here).Le last) :
    Confined first last groups references (optionalRounds (fun place => body.code place)
      (·.after body) greedy exit count here) := by
  induction count generalizing here with
  | zero => exact confined_nil
  | succ count ih =>
      have hbehind (place : Place) : place.Le ((place.skip 1).after body) :=
        (Place.Le.skip place 1).trans (.after _ body)
      have hround := (Place.Le.behindRounds hbehind count _).trans hlast
      have hinside := hfirst.trans (Place.Le.skip here 1)
      have hsplit : (Instr.loopSplit greedy (here.pc + 1) exit).Between first last groups
          references :=
        Instr.between_loopSplit greedy
          ⟨hinside.pc, ((Place.Le.after (here.skip 1) body).trans hround).pc⟩ hexit
      exact confined_append.mpr ⟨confined_cons.mpr ⟨hsplit, hbody hinside hround⟩,
        ih (hfirst.trans (hbehind here)) hlast⟩

theorem confined_starLoop {greedy : Bool} {here : Place} (hfirst : first.Le here)
    (hlast : (here.after (.rep body ⟨0, none, greedy⟩)).Le last) :
    Confined first last groups references (starLoop (fun place => body.code place) (·.after body)
      greedy body.nullable here) := by
  rw [Place.after_rep] at hlast
  obtain ⟨hpc, hset, hslot⟩ := hfirst
  obtain ⟨hpc', hset', hslot'⟩ := hlast
  simp only [Tree.codeSize, Quantifier.copies, Nat.zero_max, Nat.one_mul, Option.isNone_none,
    Bool.true_and] at hpc' hset' hslot'
  unfold starLoop
  cases hguarded : body.nullable with
  | true =>
      rw [hguarded] at hpc' hslot'
      simp only [if_true] at hpc' hslot' ⊢
      have hmark : first.slot ≤ here.slot ∧ here.slot < last.slot := by omega
      have hinside : first.Le ⟨here.pc + 2, here.set, here.slot + 1⟩ := by
        constructor
        all_goals
          dsimp only
          omega
      have hbehind : Place.Le (Place.after ⟨here.pc + 2, here.set, here.slot + 1⟩ body) last := by
        refine ⟨?_, hset', ?_⟩
        all_goals
          simp only [Place.after]
          omega
      have hsplit : (Instr.loopSplit greedy (here.pc + 1)
          (here.pc + 2 + body.codeSize + 2)).Between first last groups references :=
        Instr.between_loopSplit greedy (by omega) (by omega)
      have hjump : (Instr.jump here.pc).Between first last groups references := by
        constructor <;> omega
      refine confined_append.mpr ⟨confined_cons.mpr ⟨hsplit, confined_cons.mpr
        ⟨hmark, hbody hinside hbehind⟩⟩, ?_⟩
      exact confined_cons.mpr ⟨hmark, confined_cons.mpr ⟨hjump, confined_nil⟩⟩
  | false =>
      rw [hguarded] at hpc' hslot'
      simp only [Bool.false_eq_true, if_false, Nat.add_zero] at hpc' hslot' ⊢
      have hinside : first.Le (here.skip 1) := ⟨Nat.le_succ_of_le hpc, hset, hslot⟩
      have hbehind : Place.Le ((here.skip 1).after body) last := by
        refine ⟨?_, hset', hslot'⟩
        simp only [Place.after, Place.skip]
        omega
      have hsplit : (Instr.loopSplit greedy (here.pc + 1)
          (here.pc + 1 + body.codeSize + 1)).Between first last groups references :=
        Instr.between_loopSplit greedy (by omega) (by omega)
      have hjump : (Instr.jump here.pc).Between first last groups references := by
        constructor <;> omega
      exact confined_append.mpr ⟨confined_cons.mpr ⟨hsplit, hbody hinside hbehind⟩,
        confined_cons.mpr ⟨hjump, confined_nil⟩⟩

theorem confined_plusLoop {greedy : Bool} {slot : Nat} {here : Place} (hfirst : first.Le here)
    (hpc' : here.pc + (body.codeSize + 1 + if body.nullable then 3 else 0) ≤ last.pc)
    (hset' : here.set + body.sets.length ≤ last.set)
    (hslot' : here.slot + body.loopCount ≤ last.slot)
    (hmark : body.nullable = true → first.slot ≤ slot ∧ slot < last.slot) :
    Confined first last groups references (plusLoop (fun place => body.code place)
      (·.after body) greedy body.nullable slot here) := by
  obtain ⟨hpc, hset, hslot⟩ := hfirst
  unfold plusLoop
  cases hguarded : body.nullable with
  | true =>
      rw [hguarded] at hpc'
      simp only [if_true] at hpc' ⊢
      have hslots := hmark hguarded
      have hinside : first.Le (here.skip 1) := ⟨Nat.le_succ_of_le hpc, hset, hslot⟩
      have hbehind : Place.Le ((here.skip 1).after body) last := by
        refine ⟨?_, hset', hslot'⟩
        simp only [Place.after, Place.skip]
        omega
      have hsplit : (Instr.loopSplit greedy (here.pc + 1 + body.codeSize + 1)
          (here.pc + 1 + body.codeSize + 3)).Between first last groups references :=
        Instr.between_loopSplit greedy (by omega) (by omega)
      have hjump : (Instr.jump here.pc).Between first last groups references := by
        constructor <;> omega
      refine confined_append.mpr ⟨confined_cons.mpr ⟨hslots, hbody hinside hbehind⟩, ?_⟩
      exact confined_cons.mpr ⟨hsplit, confined_cons.mpr ⟨hslots, confined_cons.mpr
        ⟨hjump, confined_nil⟩⟩⟩
  | false =>
      rw [hguarded] at hpc'
      simp only [Bool.false_eq_true, if_false, Nat.add_zero] at hpc' ⊢
      have hbehind : Place.Le (here.after body) last := by
        refine ⟨?_, hset', hslot'⟩
        simp only [Place.after]
        omega
      have hsplit : (Instr.loopSplit greedy here.pc (here.pc + body.codeSize + 1)).Between first
          last groups references :=
        Instr.between_loopSplit greedy (by omega) (by omega)
      exact confined_append.mpr ⟨hbody ⟨hpc, hset, hslot⟩ hbehind,
        confined_cons.mpr ⟨hsplit, confined_nil⟩⟩

/-- A loop behind required rounds. -/
theorem confined_atLeast {before : Nat} {greedy : Bool} {here : Place} (hfirst : first.Le here)
    (hlast : (here.after (.rep body ⟨before + 1, none, greedy⟩)).Le last) :
    Confined first last groups references
      ((Tree.rep body ⟨before + 1, none, greedy⟩).code here) := by
  rw [Place.after_rep] at hlast
  obtain ⟨hpc, hset, hslot⟩ := hfirst
  obtain ⟨hpc', hset', hslot'⟩ := hlast
  simp only [Tree.codeSize, Quantifier.copies, Option.isNone_none, Bool.true_and,
    Nat.max_eq_left (Nat.le_add_left 1 before), Nat.succ_mul] at hpc' hset' hslot'
  -- The slot of the loop comes before those of the bodies.
  let inner : Place := if body.nullable then { here with slot := here.slot + 1 } else here
  have hinner : inner = ⟨here.pc, here.set, here.slot + if body.nullable then 1 else 0⟩ := by
    change (if body.nullable then _ else _) = _
    cases body.nullable <;> rfl
  have hloop : behindRounds (·.after body) before inner =
      ⟨here.pc + before * body.codeSize, here.set + before * body.sets.length,
        here.slot + (if body.nullable then 1 else 0) + before * body.loopCount⟩ := by
    rw [hinner]
    exact Place.behindRounds_after body before _
  have hrounds : (behindRounds (·.after body) before inner).Le last := by
    rw [hloop]
    constructor
    all_goals
      dsimp only
      omega
  have hbefore : first.Le inner := by
    rw [hinner]
    exact ⟨hpc, hset, Nat.le_add_right_of_le hslot⟩
  refine confined_append.mpr ⟨confined_requiredRounds hbody hbefore hrounds, ?_⟩
  change Confined first last groups references (plusLoop _ _ greedy body.nullable here.slot
    (behindRounds (·.after body) before inner))
  rw [hloop]
  apply confined_plusLoop hbody
  · constructor
    all_goals
      dsimp only
      omega
  · dsimp only
    omega
  · dsimp only
    omega
  · dsimp only
    omega
  · intro hnullable
    rw [hnullable] at hslot'
    simp only [if_true] at hslot'
    omega

theorem confined_counted {min max : Nat} {greedy : Bool} {here : Place} (hfirst : first.Le here)
    (hlast : (here.after (.rep body ⟨min, some max, greedy⟩)).Le last) :
    Confined first last groups references
      ((Tree.rep body ⟨min, some max, greedy⟩).code here) := by
  rw [Place.after_rep] at hlast
  obtain ⟨hpc, hset, hslot⟩ := hfirst
  obtain ⟨hpc', hset', hslot'⟩ := hlast
  simp only [Tree.codeSize, Quantifier.copies, Option.isNone_some, Bool.false_and,
    Bool.false_eq_true, if_false, Nat.add_zero, Nat.add_mul] at hpc' hset' hslot'
  have hrequired := Place.behindRounds_after body min here
  have hoptional := Place.behindRounds_skip_after body (max - min)
    (behindRounds (·.after body) min here)
  rw [hrequired] at hoptional
  have hsize : ((behindRounds (·.after body) min here).skip 1 |>.after body).pc -
      (behindRounds (·.after body) min here).pc = body.codeSize + 1 := by
    simp only [Place.skip, Place.after]
    omega
  refine confined_append.mpr ⟨confined_requiredRounds hbody ⟨hpc, hset, hslot⟩ ?_,
    confined_optionalRounds hbody ?_ ?_ ?_⟩
  · rw [hrequired]
    constructor
    all_goals
      dsimp only
      omega
  · rw [hrequired]
    exact ⟨Nat.le_add_right_of_le hpc, Nat.le_add_right_of_le hset, Nat.le_add_right_of_le hslot⟩
  · rw [hsize, hrequired]
    dsimp only
    omega
  · rw [hrequired, hoptional]
    constructor
    all_goals
      dsimp only
      omega

theorem confined_repetition {times : Quantifier} {here : Place} (hfirst : first.Le here)
    (hlast : (here.after (.rep body times)).Le last) :
    Confined first last groups references ((Tree.rep body times).code here) := by
  obtain ⟨min, max, greedy⟩ := times
  cases max with
  | some max => exact confined_counted hbody hfirst hlast
  | none =>
      cases min with
      | zero => exact confined_starLoop hbody hfirst hlast
      | succ before => exact confined_atLeast hbody hfirst hlast

end Repetition

/-- The code of a tree refers to nothing before its place or behind its end, and to no groups but
those of the tree. -/
theorem confined_code {tree : Tree} {first last : Place} {groups references : List Nat}
    (hgroups : tree.groups ⊆ groups) (hreferences : tree.references ⊆ references) {here : Place}
    (hfirst : first.Le here) (hlast : (here.after tree).Le last) :
    Confined first last groups references (tree.code here) := by
  induction tree generalizing here with
  | atom position a =>
      refine confined_cons.mpr ⟨?_, confined_nil⟩
      cases a with
      | set members => exact ⟨hfirst.set, hlast.set⟩
      | backref number => exact hreferences (List.mem_singleton_self number)
      | _ => trivial
  | group position index body ih =>
      cases index with
      | none => exact ih hgroups hreferences hfirst hlast
      | some index =>
          obtain ⟨hindex, hbody⟩ := List.cons_subset.mp hgroups
          have hinside : ((here.skip 1).after body).Le last := by
            refine ⟨?_, hlast.set, hlast.slot⟩
            have hpc := hlast.pc
            simp only [Place.after, Tree.codeSize, Place.skip, Option.isSome_some,
              if_true] at hpc ⊢
            omega
          have hcode := ih hbody hreferences (hfirst.trans (.skip here 1)) hinside
          exact confined_append.mpr ⟨confined_cons.mpr ⟨hindex, hcode⟩,
            confined_cons.mpr ⟨hindex, confined_nil⟩⟩
  | cat before rest ihbefore ihrest =>
      obtain ⟨hgroupsBefore, hgroupsRest⟩ := List.append_subset.mp hgroups
      obtain ⟨hreferencesBefore, hreferencesRest⟩ := List.append_subset.mp hreferences
      have hrest : ((here.after before).after rest).Le last := by
        obtain ⟨hpc, hset, hslot⟩ := hlast
        simp only [Place.after, Tree.codeSize, Tree.sets, Tree.loopCount, List.length_append,
          ← Nat.add_assoc] at hpc hset hslot
        exact ⟨hpc, hset, hslot⟩
      have hbefore := (Place.Le.after (here.after before) rest).trans hrest
      exact confined_append.mpr ⟨ihbefore hgroupsBefore hreferencesBefore hfirst hbefore,
        ihrest hgroupsRest hreferencesRest (hfirst.trans (.after here before)) hrest⟩
  | alt before rest ihbefore ihrest =>
      obtain ⟨hgroupsBefore, hgroupsRest⟩ := List.append_subset.mp hgroups
      obtain ⟨hreferencesBefore, hreferencesRest⟩ := List.append_subset.mp hreferences
      have hright : first.Le (((here.skip 1).after before).skip 1) :=
        ((hfirst.trans (.skip here 1)).trans (.after _ before)).trans (.skip _ 1)
      have hrest : ((((here.skip 1).after before).skip 1).after rest).Le last := by
        obtain ⟨hpc, hset, hslot⟩ := hlast
        simp only [Place.after, Tree.codeSize, Tree.sets, Tree.loopCount,
          List.length_append] at hpc hset hslot
        constructor
        all_goals
          simp only [Place.after, Place.skip]
          omega
      have hbefore := ((Place.Le.skip _ 1).trans (.after _ rest)).trans hrest
      have hleft : (here.skip 1).Le last := (Place.Le.after _ before).trans hbefore
      have hsplit : Instr.Between first last groups references
          (.split (here.skip 1).pc (((here.skip 1).after before).skip 1).pc) :=
        ⟨⟨(hfirst.trans (.skip here 1)).pc, hleft.pc⟩,
          hright.pc, ((Place.Le.after _ rest).trans hrest).pc⟩
      have hjump : Instr.Between first last groups references
          (.jump ((((here.skip 1).after before).skip 1).pc + rest.codeSize)) :=
        ⟨Nat.le_add_right_of_le hright.pc, hrest.pc⟩
      exact confined_append.mpr
        ⟨confined_cons.mpr ⟨hsplit, ihbefore hgroupsBefore hreferencesBefore
          (hfirst.trans (.skip here 1)) hbefore⟩,
        confined_cons.mpr ⟨hjump, ihrest hgroupsRest hreferencesRest hright hrest⟩⟩
  | rep body times ih =>
      exact confined_repetition (fun hfirst hlast => ih hgroups hreferences hfirst hlast) hfirst
        hlast

end RegexSearch
