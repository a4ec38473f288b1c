import RegexSearch.Proofs.Program.Extent

/-!
The parts of a tree where they are laid out. A tree that is laid out at a place has each of its
parts at a place of its own, and the body of a repetition at as many places as it is written out.
The loops are among the parts, and their slots are numbered in the order in which the parts are
listed.
-/

namespace RegexSearch

/-! ### Places -/

section Places

variable (behind : Place → Place)

/-- The places of so many required rounds. -/
def requiredPlaces : Nat → Place → List Place
  | 0, _ => []
  | count + 1, here => here :: requiredPlaces count (behind here)

/-- The places of so many optional rounds, each behind its branch. -/
def optionalPlaces (count : Nat) (here : Place) : List Place :=
  (requiredPlaces (fun place => behind (place.skip 1)) count here).map (·.skip 1)

theorem optionalPlaces_succ (count : Nat) (here : Place) :
    optionalPlaces behind (count + 1) here =
      here.skip 1 :: optionalPlaces behind count (behind (here.skip 1)) :=
  rfl

/-- The places at which the body of a repetition is written, in the order of its rounds. -/
def Quantifier.places (times : Quantifier) (guarded : Bool) (here : Place) : List Place :=
  match times.max, times.min with
  | none, 0 => [if guarded then ⟨here.pc + 2, here.set, here.slot + 1⟩ else here.skip 1]
  | none, before + 1 =>
    let first := if guarded then { here with slot := here.slot + 1 } else here
    let last := behindRounds behind before first
    requiredPlaces behind before first ++ [if guarded then last.skip 1 else last]
  | some max, min =>
    requiredPlaces behind min here ++
      optionalPlaces behind (max - min) (behindRounds behind min here)

end Places

/-- All parts of a tree that is laid out at a place, the tree itself first, with their places. -/
def Tree.parts : Tree → Place → List (Tree × Place)
  | atom position a, here => [(atom position a, here)]
  | group position (some index) body, here =>
    (group position (some index) body, here) :: body.parts (here.skip 1)
  | group position none body, here => (group position none body, here) :: body.parts here
  | cat first rest, here =>
    (cat first rest, here) :: (first.parts here ++ rest.parts (here.after first))
  | alt first rest, here =>
    (alt first rest, here) ::
      (first.parts (here.skip 1) ++ rest.parts (((here.skip 1).after first).skip 1))
  | rep body times, here =>
    (rep body times, here) ::
      (times.places (·.after body) body.nullable here).flatMap fun place => body.parts place

/-- A loop in the code of a tree. One round goes from `first` to `last`: from the mark to the check
if it is guarded, which then have the slot in common, and from the body to the branch behind it if
it is not. -/
structure Loop where
  slot : Option Nat
  first : Nat
  last : Nat
  deriving DecidableEq, Repr

/-- The branch back of a loop. It stands behind the check if the loop is guarded. -/
def Loop.back (loop : Loop) : Nat :=
  if loop.slot.isSome then loop.last + 1 else loop.last

namespace Tree

/-- The loop that a repetition without bound begins with if it requires no round. -/
def starRound (body : Tree) (slot pc : Nat) : Loop :=
  if body.nullable then ⟨some slot, pc + 1, pc + 2 + body.codeSize⟩
  else ⟨none, pc + 1, pc + 1 + body.codeSize⟩

/-- The loop around the last round that a repetition without bound requires. -/
def plusRound (body : Tree) (slot pc : Nat) : Loop :=
  if body.nullable then ⟨some slot, pc, pc + 2 + body.codeSize⟩
  else ⟨none, pc, pc + body.codeSize⟩

/-- The loop of a repetition without bound, behind the rounds that it requires before. -/
def loop? : Tree → Place → Option Loop
  | rep body ⟨0, none, _⟩, here => some (body.starRound here.slot here.pc)
  | rep body ⟨before + 1, none, _⟩, here =>
    some (body.plusRound here.slot (here.pc + before * body.codeSize))
  | _, _ => none

/-- All loops of a tree that is laid out at a place. -/
def loops (tree : Tree) (here : Place) : List Loop :=
  (tree.parts here).filterMap fun part => part.1.loop? part.2

/-! ### Behind required rounds -/

/-- A guarded loop takes its slot before its rounds are laid out, and no other space. -/
theorem pc_firstRound (guarded : Bool) (here : Place) :
    (if guarded then { here with slot := here.slot + 1 } else here).pc = here.pc := by
  cases guarded <;> rfl

theorem pc_behindRounds (body : Tree) (guarded : Bool) (count : Nat) (here : Place) :
    (behindRounds (·.after body) count
      (if guarded then { here with slot := here.slot + 1 } else here)).pc =
        here.pc + count * body.codeSize := by
  rw [Place.behindRounds_after]
  exact congrArg (· + count * body.codeSize) (pc_firstRound guarded here)

/-! ### Slots -/

/-- Rounds that take so many slots each take them one after the other. -/
theorem slots_requiredPlaces {behind : Place → Place} {size : Nat}
    (hbehind : ∀ place, (behind place).slot = place.slot + size) (count : Nat) (here : Place) :
    (requiredPlaces behind count here).flatMap (fun place => List.range' place.slot size) =
      List.range' here.slot (count * size) := by
  induction count generalizing here with
  | zero => simp [requiredPlaces]
  | succ count ih =>
      rw [requiredPlaces, List.flatMap_cons, ih, Nat.succ_mul, Nat.add_comm (count * _),
        ← List.range'_append_1, hbehind]

theorem slots_optionalPlaces {behind : Place → Place} {size : Nat}
    (hbehind : ∀ place, (behind place).slot = place.slot + size) (count : Nat) (here : Place) :
    (optionalPlaces behind count here).flatMap (fun place => List.range' place.slot size) =
      List.range' here.slot (count * size) := by
  rw [optionalPlaces, List.flatMap_map]
  exact slots_requiredPlaces (fun place => hbehind (place.skip 1)) count here

/-- The bodies of a repetition take the slots that its own loop leaves. -/
theorem slots_rep (body : Tree) (times : Quantifier) (here : Place) :
    (((rep body times).loop? here).bind Loop.slot).toList ++
        (times.places (·.after body) body.nullable here).flatMap
          (fun place => List.range' place.slot body.loopCount) =
      List.range' here.slot (rep body times).loopCount := by
  have hafter (place : Place) : (place.after body).slot = place.slot + body.loopCount := rfl
  have hrequired := slots_requiredPlaces hafter
  have hoptional := slots_optionalPlaces hafter
  have hbehind (count : Nat) (place : Place) :=
    congrArg Place.slot (Place.behindRounds_after body count place)
  obtain ⟨min, max, greedy⟩ := times
  cases max with
  | some max =>
      cases min <;>
      simp only [loop?, Option.bind_none, Option.toList_none, List.nil_append, Quantifier.places,
        List.flatMap_append, hrequired, hoptional, hbehind, List.range'_append_1, loopCount,
        Quantifier.copies, Option.isNone_some, Bool.false_and, Bool.false_eq_true, if_false,
        Nat.add_zero, Nat.add_mul]
  | none =>
      cases min with
      | zero =>
          cases hnullable : body.nullable <;>
          simp [loop?, starRound, Quantifier.places, loopCount, Quantifier.copies, hnullable,
            Place.skip, List.range'_succ]
      | succ before =>
          cases hnullable : body.nullable <;>
          simp [loop?, plusRound, Quantifier.places, loopCount, Quantifier.copies, hnullable,
            Place.skip, hrequired, hbehind, List.range'_append_1, Nat.succ_mul, List.range'_succ]

theorem loops_cat (first rest : Tree) (here : Place) :
    (cat first rest).loops here = first.loops here ++ rest.loops (here.after first) := by
  simp [loops, parts, loop?]

theorem loops_alt (first rest : Tree) (here : Place) :
    (alt first rest).loops here =
      first.loops (here.skip 1) ++ rest.loops (((here.skip 1).after first).skip 1) := by
  simp [loops, parts, loop?]

theorem loops_rep (body : Tree) (times : Quantifier) (here : Place) :
    (rep body times).loops here = ((rep body times).loop? here).toList ++
      (times.places (·.after body) body.nullable here).flatMap fun place => body.loops place := by
  rw [loops, parts, List.filterMap_cons, List.filterMap_flatMap]
  cases (rep body times).loop? here <;> rfl

/-- The slots of the loops of a tree are those that its layout sets aside, each one once. -/
theorem slots_loops (tree : Tree) (here : Place) :
    (tree.loops here).filterMap Loop.slot = List.range' here.slot tree.loopCount := by
  induction tree generalizing here with
  | atom position a => rfl
  | group position index body ih =>
      cases index with
      | none => exact ih here
      | some index => exact ih (here.skip 1)
  | cat first rest ihf ihr =>
      rw [loops_cat, List.filterMap_append, ihf, ihr, loopCount, ← List.range'_append_1]
      rfl
  | alt first rest ihf ihr =>
      rw [loops_alt, List.filterMap_append, ihf, ihr, loopCount, ← List.range'_append_1]
      rfl
  | rep body times ih =>
      rw [loops_rep, List.filterMap_append, List.filterMap_flatMap, ← slots_rep]
      simp only [ih]
      cases (rep body times).loop? here with
      | none => rfl
      | some loop => cases hslot : loop.slot <;> simp [hslot]

end Tree

end RegexSearch
