import RegexSearch.Proofs.Machine.Implements

/-!
The loops of a program. There are four, tested in front of the body or behind it, and with or
without a mark. One round of each is followed through its instructions; all rounds together are
then what a repetition without bound means, by induction on the text that is left. A loop without
a mark relies on a body that always consumes something.
-/

namespace RegexSearch

namespace Machine

variable {machine : Machine} {scope inner : Scope} {round : Outcome → List Outcome}
  {greedy : Bool} {slot pc last exit : Nat}

theorem repeats_star
    (hsplit : machine.program.code[pc]? = some (.loopSplit greedy (pc + 1) exit))
    (hbody : machine.Implements scope (pc + 1) last round)
    (hjump : machine.program.code[last]? = some (.jump pc))
    (hround : ∀ here, ∀ there ∈ round here, here.offset < there.offset) :
    machine.Repeats scope pc exit (starRound round greedy) := by
  intro again thread hready hpc hagain
  subst hpc
  apply Reaches.prefer hsplit hready
  apply (hbody (thread.goto (thread.pc + 1)) (hready.goto _) rfl).bind
  intro out hout leaf hleaf
  rw [← hleaf.outcome] at hout ⊢
  have hlt : thread.outcome.offset < leaf.outcome.offset := hround _ _ hout
  rw [if_pos hlt]
  apply Reaches.step (branches_jump (hleaf.pc ▸ hjump))
  apply (hagain (leaf.goto thread.pc) (hleaf.ready.goto _) rfl hlt).of_later
  exact (Thread.Keeps.goto _).trans (hleaf.keeps.trans (.goto _))

theorem repeats_plus (hbody : machine.Implements scope pc last round)
    (hsplit : machine.program.code[last]? = some (.loopSplit greedy pc (last + 1)))
    (hround : ∀ here, ∀ there ∈ round here, here.offset < there.offset) :
    machine.Repeats scope pc (last + 1) (plusRound round greedy) := by
  intro again thread hready hpc hagain
  subst hpc
  apply (hbody thread hready rfl).bind
  intro out hout leaf hleaf
  rw [← hleaf.outcome] at hout ⊢
  have hlt : thread.outcome.offset < leaf.outcome.offset := hround _ _ hout
  rw [if_pos hlt]
  have hfurther := (hagain (leaf.goto thread.pc) (hleaf.ready.goto _) rfl hlt).of_later (.goto _)
  exact (Reaches.prefer (hleaf.pc ▸ hsplit) hleaf.ready hfurther).of_later hleaf.keeps

section Guarded

variable (hmark : machine.program.code[pc]? = some (.mark slot))
  (hbody : machine.Implements inner (pc + 1) last round) (hinside : inner.Inside scope)
  (hlow : scope.low ≤ slot) (hslot : slot < inner.low) (hhigh : slot < scope.high)
  (hloops : slot < machine.program.loops)

include hmark hbody hinside hlow hslot hhigh hloops

/-- The body of a loop leaves the mark as it was set in front of it. -/
theorem reaches_marked {thread : Thread} (hready : thread.Ready machine) (hpc : thread.pc = pc) :
    machine.Reaches thread (fun out leaf => machine.Arrives scope thread last out leaf ∧
      leaf.markedAt slot = some thread.offset) (round thread.outcome) := by
  subst hpc
  let marked := thread.next.setMark slot (some thread.offset)
  have hmarked : marked.Ready machine := hready.next.setMark slot _
  have hkeeps : thread.Keeps scope marked :=
    (Thread.Keeps.consume 0).trans (.setMark hlow hhigh _)
  have hstart : marked.markedAt slot = some thread.offset := by
    apply Thread.markedAt_setMark_self
    have hsize := hready.marks
    change slot < thread.marks.size
    omega
  apply Reaches.step (branches_mark hmark)
  apply (hbody marked hmarked rfl).mono
  intro out leaf hleaf
  have hnoted : leaf.markedAt slot = some thread.offset := by
    rw [hleaf.keeps.marked slot (.inl hslot), hstart]
  exact ⟨⟨hleaf.pc, hleaf.outcome, hleaf.ready, hkeeps.trans (hleaf.keeps.mono hinside)⟩, hnoted⟩

variable (hround : ∀ here, ∀ there ∈ round here, here.offset ≤ there.offset)

include hround

theorem repeats_star_guarded {head : Nat}
    (hsplit : machine.program.code[head]? = some (.loopSplit greedy pc exit))
    (hcheck : machine.program.code[last]? = some (.check slot))
    (hjump : machine.program.code[last + 1]? = some (.jump head)) :
    machine.Repeats scope head exit (starRound round greedy) := by
  intro again thread hready hpc hagain
  subst hpc
  apply Reaches.prefer hsplit hready
  apply (reaches_marked hmark hbody hinside hlow hslot hhigh hloops (hready.goto pc) rfl).bind
  rintro out hout leaf ⟨hleaf, hnoted⟩
  rw [← hleaf.outcome] at hout ⊢
  apply Reaches.check (hleaf.pc ▸ hcheck) (hleaf.pc ▸ hjump) hnoted (hround _ _ hout)
  intro hlt
  apply (hagain (leaf.goto thread.pc) (hleaf.ready.goto _) rfl hlt).of_later
  exact (Thread.Keeps.goto _).trans (hleaf.keeps.trans (.goto _))

theorem repeats_plus_guarded
    (hsplit : machine.program.code[last]? = some (.loopSplit greedy (last + 1) exit))
    (hcheck : machine.program.code[last + 1]? = some (.check slot))
    (hjump : machine.program.code[last + 2]? = some (.jump pc)) :
    machine.Repeats scope pc exit (plusRound round greedy) := by
  intro again thread hready hpc hagain
  subst hpc
  apply (reaches_marked hmark hbody hinside hlow hslot hhigh hloops hready rfl).bind
  rintro out hout leaf ⟨hleaf, hnoted⟩
  rw [← hleaf.outcome] at hout ⊢
  have hat : machine.program.code[leaf.pc]? = some (.loopSplit greedy (last + 1) exit) := by
    rw [hleaf.pc]
    exact hsplit
  refine Reaches.of_later (Reaches.prefer hat hleaf.ready ?_) hleaf.keeps
  have hchecked : machine.program.code[(leaf.goto (last + 1)).pc]? = some (.check slot) := hcheck
  apply Reaches.check hchecked hjump hnoted (hround _ _ hout)
  intro hlt
  exact (hagain (leaf.goto thread.pc) (hleaf.ready.goto _) rfl hlt).of_later (.goto _)

end Guarded

end Machine

end RegexSearch
