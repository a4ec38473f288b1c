import Mathlib.Data.List.Forall2
import RegexSearch.Proofs.Machine.Search

/-!
Symbolic execution. A thread reaches a list of outcomes if following its branches for a while
leaves a list of threads, one for each outcome and in the same order; whatever these threads yield
is then what the thread itself yields. The rules below take a thread through one instruction, and
`Reaches.bind` goes on from all threads that have been reached.
-/

namespace RegexSearch

namespace Machine

/-- What the leaves yield is what the threads yield. -/
def Explores (machine : Machine) (threads leaves : List Thread) : Prop :=
  ∀ answer, machine.Yields leaves answer → machine.Yields threads answer

/-- Following the branches of a thread leaves a list of threads that stand in the relation `P` to
these outcomes, one to each. -/
def Reaches {α : Type} (machine : Machine) (thread : Thread) (P : α → Thread → Prop)
    (outcomes : List α) : Prop :=
  ∃ leaves, List.Forall₂ P outcomes leaves ∧ machine.Explores [thread] leaves

variable {machine : Machine}

namespace Explores

theorem refl (threads : List Thread) : machine.Explores threads threads := fun _ h => h

theorem trans {threads middle leaves : List Thread} (h : machine.Explores threads middle)
    (h' : machine.Explores middle leaves) : machine.Explores threads leaves :=
  fun answer hleaves => h answer (h' answer hleaves)

theorem append {first first' rest rest' : List Thread} (hfirst : machine.Explores first first')
    (hrest : machine.Explores rest rest') : machine.Explores (first ++ rest) (first' ++ rest') := by
  intro answer h
  rw [yields_append_iff] at h ⊢
  rcases h with ⟨found, hfound, h⟩ | ⟨hnone, h⟩
  · exact .inl ⟨found, hfound, hfirst _ h⟩
  · exact .inr ⟨hfirst _ hnone, hrest _ h⟩

theorem of_branches {thread : Thread} {next : List Thread}
    (h : machine.branches thread = some next) : machine.Explores [thread] next :=
  fun _ => (yields_branches_iff h).mpr

end Explores

namespace Reaches

variable {α β : Type} {P : α → Thread → Prop} {Q : β → Thread → Prop} {thread : Thread}

theorem here {outcome : α} (h : P outcome thread) : machine.Reaches thread P [outcome] :=
  ⟨[thread], .cons h .nil, .refl _⟩

theorem fail (h : machine.branches thread = some []) : machine.Reaches thread P [] :=
  ⟨[], .nil, .of_branches h⟩

theorem step {next : Thread} {outcomes : List α} (h : machine.branches thread = some [next])
    (hnext : machine.Reaches next P outcomes) : machine.Reaches thread P outcomes := by
  obtain ⟨leaves, hall, hexplores⟩ := hnext
  exact ⟨leaves, hall, (Explores.of_branches h).trans hexplores⟩

theorem split {first second : Thread} {outcomes outcomes' : List α}
    (h : machine.branches thread = some [first, second])
    (hfirst : machine.Reaches first P outcomes) (hsecond : machine.Reaches second P outcomes') :
    machine.Reaches thread P (outcomes ++ outcomes') := by
  obtain ⟨leaves, hall, hexplores⟩ := hfirst
  obtain ⟨leaves', hall', hexplores'⟩ := hsecond
  exact ⟨leaves ++ leaves', List.rel_append hall hall',
    (Explores.of_branches h).trans (hexplores.append hexplores')⟩

theorem mono {P' : α → Thread → Prop} {outcomes : List α} (h : machine.Reaches thread P outcomes)
    (hmono : ∀ outcome leaf, P outcome leaf → P' outcome leaf) :
    machine.Reaches thread P' outcomes := by
  obtain ⟨leaves, hall, hexplores⟩ := h
  exact ⟨leaves, hall.imp hmono, hexplores⟩

/-- Going on from every thread that has been reached. -/
theorem bind {outcomes : List α} {further : α → List β} (h : machine.Reaches thread P outcomes)
    (hfurther : ∀ outcome ∈ outcomes, ∀ leaf, P outcome leaf →
      machine.Reaches leaf Q (further outcome)) :
    machine.Reaches thread Q (outcomes.flatMap further) := by
  obtain ⟨leaves, hall, hexplores⟩ := h
  suffices hleaves : ∃ leaves', List.Forall₂ Q (outcomes.flatMap further) leaves' ∧
      machine.Explores leaves leaves' by
    obtain ⟨leaves', hall', hexplores'⟩ := hleaves
    exact ⟨leaves', hall', hexplores.trans hexplores'⟩
  clear hexplores
  induction hall with
  | nil => exact ⟨[], .nil, .refl _⟩
  | @cons outcome leaf outcomes leaves hleaf hrest ih =>
      obtain ⟨first, hfirst, hexploresFirst⟩ := hfurther outcome List.mem_cons_self leaf hleaf
      obtain ⟨rest, hrest, hexploresRest⟩ :=
        ih fun outcome hmem => hfurther outcome (List.mem_cons_of_mem _ hmem)
      exact ⟨first ++ rest, List.rel_append hfirst hrest, hexploresFirst.append hexploresRest⟩

end Reaches

/-! ### The branches of a thread before a known instruction -/

section Instr

variable {thread : Thread}

theorem branches_of_effect {instr : Instr} (h : machine.program.code[thread.pc]? = some instr)
    {next : Thread} {records : List Record}
    (heffect : machine.effect thread instr = .proceed next records) :
    machine.branches thread = some (next :: pending next records) := by
  simp only [branches, h, heffect]

theorem branches_split {preferred other : Nat}
    (h : machine.program.code[thread.pc]? = some (.split preferred other)) :
    machine.branches thread = some [thread.goto preferred, thread.goto other] := by
  rw [branches_of_effect h rfl]
  rfl

theorem branches_jump {target : Nat}
    (h : machine.program.code[thread.pc]? = some (.jump target)) :
    machine.branches thread = some [thread.goto target] := by
  rw [branches_of_effect h rfl]
  rfl

theorem branches_openGroup {group : Nat}
    (h : machine.program.code[thread.pc]? = some (.openGroup group)) :
    machine.branches thread = some [thread.next.setOpened group (some thread.offset)] := by
  rw [branches_of_effect h rfl]
  rfl

theorem branches_closeGroup {group : Nat}
    (h : machine.program.code[thread.pc]? = some (.closeGroup group)) :
    machine.branches thread = some [thread.next.close group] := by
  rw [branches_of_effect h rfl]
  rfl

theorem branches_mark {slot : Nat}
    (h : machine.program.code[thread.pc]? = some (.mark slot)) :
    machine.branches thread = some [thread.next.setMark slot (some thread.offset)] := by
  rw [branches_of_effect h rfl]
  rfl

theorem branches_check {slot : Nat}
    (h : machine.program.code[thread.pc]? = some (.check slot)) :
    machine.branches thread =
      if thread.markedAt slot = some thread.offset then some [] else some [thread.next] := by
  simp only [branches, h, effect, beq_iff_eq]
  split
  · rename_i hproceed
    split at hproceed
    · cases hproceed
    · rename_i hmark
      cases hproceed
      rw [if_neg hmark]
      rfl
  · rename_i hfail
    split at hfail
    · rename_i hmark
      rw [if_pos hmark]
    · cases hfail
  · rename_i haccept
    split at haccept <;> cases haccept

theorem branches_accept (h : machine.program.code[thread.pc]? = some .accept) :
    machine.branches thread =
      if machine.anchoredEnd && thread.offset != machine.text.size then some [] else none := by
  simp only [branches, h, effect]
  split <;> rename_i hcase <;> split at hcase <;> simp_all

end Instr

end Machine

end RegexSearch
