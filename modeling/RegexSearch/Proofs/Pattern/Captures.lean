import Mathlib.Data.List.Nodup
import RegexSearch.Proofs.Pattern.Derivation
import RegexSearch.Proofs.Pattern.Groups

/-!
What the groups of a pattern capture. A group is captured where an outcome of its body has come to,
and it is not changed until the group is captured again. So at every outcome of a pattern, whatever
has been gone through before, the spans that have been captured lie between the place where the
pattern began and the one where it ends; and without backreferences, the text in the span of a group
is derived from the body of the group.
-/

namespace RegexSearch

namespace Tree

/-- The capturing groups with their bodies, in the order of their opening parentheses. -/
def bodies : Tree → List (Nat × Tree)
  | atom .. => []
  | group _ none body => body.bodies
  | group _ (some index) body => (index, body) :: body.bodies
  | cat first rest => first.bodies ++ rest.bodies
  | alt first rest => first.bodies ++ rest.bodies
  | rep body _ => body.bodies

theorem map_fst_bodies (tree : Tree) : tree.bodies.map Prod.fst = tree.groups := by
  induction tree with
  | atom position a => rfl
  | group position index body ih =>
      cases index with
      | none => exact ih
      | some index => simp [bodies, groups, ih]
  | cat first rest ihf ihr => simp [bodies, groups, ihf, ihr]
  | alt first rest ihf ihr => simp [bodies, groups, ihf, ihr]
  | rep body times ih => exact ih

/-- What a tree hands down to its parts holds of the bodies of its groups. -/
theorem of_mem_bodies {P : Tree → Prop}
    (hgroup : ∀ position index body, P (group position index body) → P body)
    (hcat : ∀ first rest, P (cat first rest) → P first ∧ P rest)
    (halt : ∀ first rest, P (alt first rest) → P first ∧ P rest)
    (hrep : ∀ body times, P (rep body times) → P body)
    {tree : Tree} (h : P tree) {number : Nat} {inner : Tree}
    (hmem : (number, inner) ∈ tree.bodies) : P inner := by
  induction tree with
  | atom position a => cases hmem
  | group position index body ih =>
      have hbody := hgroup position index body h
      cases index with
      | none => exact ih hbody hmem
      | some index =>
          rcases List.mem_cons.mp hmem with heq | hmem
          · cases heq
            exact hbody
          · exact ih hbody hmem
  | cat first rest ihf ihr =>
      rcases List.mem_append.mp hmem with hmem | hmem
      · exact ihf (hcat first rest h).1 hmem
      · exact ihr (hcat first rest h).2 hmem
  | alt first rest ihf ihr =>
      rcases List.mem_append.mp hmem with hmem | hmem
      · exact ihf (halt first rest h).1 hmem
      · exact ihr (halt first rest h).2 hmem
  | rep body times ih => exact ih (hrep body times h) hmem

/-- Groups with different numbers have one body each. -/
theorem body_unique {tree : Tree} (hnodup : tree.groups.Nodup) {number : Nat} {body body' : Tree}
    (h : (number, body) ∈ tree.bodies) (h' : (number, body') ∈ tree.bodies) : body = body' := by
  rw [← map_fst_bodies] at hnodup
  exact congrArg Prod.snd (List.inj_on_of_nodup_map hnodup h h' rfl)

end Tree

namespace Outcome

/-- A place that has been reached from the offset `start` on. All that has been captured lies
between there and here, and is `valid` for the group that has captured it. -/
structure Coherent (valid : Nat → Span → Prop) (text : Text) (start : Nat) (here : Outcome) : Prop
    extends here.Within text where
  begun : start ≤ here.offset
  captured : ∀ group span, here.captures group = some span →
    start ≤ span.start ∧ span.start ≤ span.stop ∧ span.stop ≤ here.offset ∧ valid group span

variable {valid : Nat → Span → Prop} {text : Text} {start : Nat} {here there : Outcome}

theorem coherent_start (hstart : start ≤ text.size) :
    (Outcome.start start).Coherent valid text start where
  toWithin := within_start hstart
  begun := Nat.le_refl start
  captured := fun _ _ hnone => nomatch hnone

/-- Going on without capturing anything. -/
theorem Coherent.forward (h : here.Coherent valid text start) (hwithin : there.Within text)
    (hoffset : here.offset ≤ there.offset) (hcaptures : there.captures = here.captures) :
    there.Coherent valid text start where
  toWithin := hwithin
  begun := Nat.le_trans h.begun hoffset
  captured := by
    intro group span hspan
    rw [hcaptures] at hspan
    obtain ⟨hstart, hle, hstop, hvalid⟩ := h.captured group span hspan
    exact ⟨hstart, hle, Nat.le_trans hstop hoffset, hvalid⟩

/-- A group that began at the offset `first` captures what is valid for it. -/
theorem Coherent.close (h : here.Coherent valid text start) {group first : Nat}
    (hstart : start ≤ first) (hfirst : first ≤ here.offset)
    (hvalid : valid group ⟨first, here.offset⟩) :
    (here.close group first).Coherent valid text start where
  toWithin := h.toWithin.close group first
  begun := h.begun
  captured := by
    intro other span hspan
    by_cases heq : other = group
    · subst heq
      have hself : (here.close other first).captures other = some ⟨first, here.offset⟩ :=
        Function.update_self ..
      rw [hself] at hspan
      cases hspan
      exact ⟨hstart, hfirst, Nat.le_refl _, hvalid⟩
    · have hother : (here.close group first).captures other = here.captures other :=
        Function.update_of_ne heq ..
      rw [hother] at hspan
      exact h.captured other span hspan

end Outcome

/-- The outcomes of a pattern stay coherent, if the outcomes of the bodies of its groups are valid
for these, from wherever they begin in the text. -/
theorem Tree.coherent_of_mem_outcomes {valid : Nat → Span → Prop} {text : Text} {tree : Tree}
    (hvalid : ∀ number body, (number, body) ∈ tree.bodies → ∀ here there : Outcome,
      here.offset ≤ text.size → there ∈ body.outcomes text here →
      valid number ⟨here.offset, there.offset⟩)
    {start : Nat} {here there : Outcome} (hhere : here.Coherent valid text start)
    (h : there ∈ tree.outcomes text here) : there.Coherent valid text start := by
  induction tree generalizing here there with
  | atom position a =>
      obtain ⟨count, rfl⟩ := Atom.exists_advance h
      exact hhere.forward (Atom.within_of_mem_outcomes hhere.toWithin h) (Nat.le_add_right _ _) rfl
  | group position index body ih =>
      cases index with
      | none => exact ih hvalid hhere h
      | some index =>
          obtain ⟨inner, hinner, rfl⟩ := List.mem_map.mp h
          have hbelow := fun number inner hmem =>
            hvalid number inner (List.mem_cons_of_mem (index, body) hmem)
          exact (ih hbelow hhere hinner).close hhere.begun (Tree.offset_le_of_mem_outcomes hinner)
            (hvalid index body List.mem_cons_self here inner hhere.offset hinner)
  | cat first rest ihf ihr =>
      obtain ⟨middle, hmiddle, hthere⟩ := List.mem_flatMap.mp h
      have hfirst := fun number body hmem => hvalid number body (List.mem_append_left _ hmem)
      have hrest := fun number body hmem => hvalid number body (List.mem_append_right _ hmem)
      exact ihr hrest (ihf hfirst hhere hmiddle) hthere
  | alt first rest ihf ihr =>
      have hfirst := fun number body hmem => hvalid number body (List.mem_append_left _ hmem)
      have hrest := fun number body hmem => hvalid number body (List.mem_append_right _ hmem)
      rcases List.mem_append.mp h with h | h
      · exact ihf hfirst hhere h
      · exact ihr hrest hhere h
  | rep body times ih =>
      exact Quantifier.rel_of_mem_outcomes
        (fun a b => a.Coherent valid text start → b.Coherent valid text start)
        (fun _ hcoherent => hcoherent) (fun _ _ _ hab hbc hcoherent => hbc (hab hcoherent))
        (fun _ _ hmem hcoherent => ih hvalid hcoherent hmem) h hhere

/-- What a group has captured is derived from its body, in a pattern without backreferences. -/
def Tree.CapturesDerive (tree : Tree) (text : Text) (number : Nat) (span : Span) : Prop :=
  tree.BackrefFree →
    ∀ body, (number, body) ∈ tree.bodies → body.Derives text span.start span.stop

theorem Tree.coherent_of_mem_outcomes_start {tree : Tree} (hnodup : tree.groups.Nodup)
    (hordered : tree.Ordered) {text : Text} {start : Nat} (hstart : start ≤ text.size)
    {out : Outcome} (h : out ∈ tree.outcomes text (.start start)) :
    out.Coherent (tree.CapturesDerive text) text start := by
  refine Tree.coherent_of_mem_outcomes ?_ (Outcome.coherent_start hstart) h
  intro number body hbody here there hsize hthere hfree other hother
  rw [Tree.body_unique hnodup hother hbody]
  have hbodyFree : body.BackrefFree :=
    of_mem_bodies (fun _ _ _ hgroup => hgroup) (fun _ _ hcat => hcat) (fun _ _ halt => halt)
      (fun _ _ hrep => hrep) hfree hbody
  have hbodyOrdered : body.Ordered :=
    of_mem_bodies (fun _ _ _ hgroup => hgroup) (fun _ _ hcat => hcat) (fun _ _ halt => halt)
      (fun _ _ hrep => hrep.2) hordered hbody
  exact ((Tree.agrees hbodyFree hbodyOrdered).exists_iff hsize there.offset).mp ⟨there, hthere, rfl⟩

end RegexSearch
