import RegexSearch.Proofs.Descent.Agreement
import RegexSearch.Proofs.Pattern.WellFormed

/-!
The lists that a descent makes. A concatenation of a single item and an alternation of a single
alternative are not made at all, and no list is a member of a list of the same kind. So the
members of a list are as many as the pattern writes, and at least two.
-/

namespace RegexSearch

namespace Construct

namespace Proper

variable {construct : Construct}

theorem alone {bound : Nat} (h : construct.Proper) (hrank : construct.rank < bound) :
    1 ≤ [construct].length ∧ (∀ part ∈ [construct], part.rank < bound) ∧ AllProper [construct] :=
  ⟨Nat.le_refl 1, List.forall_mem_singleton.mpr hrank, h, trivial⟩

/-- Taken as a list of items, a construct that is no alternation has proper items, which are no
lists of items themselves. -/
theorem proper_items (h : construct.Proper) (hrank : construct.rank ≤ 3) :
    1 ≤ construct.items.length ∧ (∀ item ∈ construct.items, item.rank < 3) ∧
      AllProper construct.items := by
  cases construct with
  | concatenation position items => exact ⟨Nat.le_of_succ_le h.1, h.2⟩
  | alternation position alternatives => simp [rank] at hrank
  | _ => exact alone h (by simp [rank])

/-- Taken as a list of alternatives, a construct has proper alternatives, which are no lists of
alternatives themselves. -/
theorem proper_alternatives (h : construct.Proper) :
    1 ≤ construct.alternatives.length ∧
      (∀ alternative ∈ construct.alternatives, alternative.rank < 4) ∧
        AllProper construct.alternatives := by
  cases construct with
  | alternation position alternatives => exact ⟨Nat.le_of_succ_le h.1, h.2⟩
  | _ => exact alone h (by simp [rank])

end Proper

end Construct

namespace Tree

variable {tree : Tree}

theorem rank_construct (tree : Tree) : tree.construct.rank = tree.rank := by
  cases tree <;> rfl

theorem Shaped.proper_construct (h : tree.Shaped) : tree.construct.Proper := by
  induction tree with
  | atom position a => trivial
  | group position index body ih => exact ih h
  | cat first rest ihfirst ihrest =>
      obtain ⟨hfirst, hrank, hshaped, hrest⟩ := h
      rw [← rank_construct] at hfirst hrank
      obtain ⟨hlength, hranks, hproper⟩ := (ihrest hrest).proper_items hrank
      exact ⟨Nat.succ_le_succ hlength, List.forall_mem_cons.mpr ⟨hfirst, hranks⟩,
        ihfirst hshaped, hproper⟩
  | alt first rest ihfirst ihrest =>
      obtain ⟨hfirst, hshaped, hrest⟩ := h
      rw [← rank_construct] at hfirst
      obtain ⟨hlength, hranks, hproper⟩ := (ihrest hrest).proper_alternatives
      exact ⟨Nat.succ_le_succ hlength, List.forall_mem_cons.mpr ⟨hfirst, hranks⟩,
        ihfirst hshaped, hproper⟩
  | rep body times ih =>
      obtain ⟨hbody, -, -, hshaped⟩ := h
      rw [← rank_construct] at hbody
      exact ⟨hbody, ih hshaped⟩

end Tree

/-- Every list in the construct of a pattern has two members or more, and none of them is a list of
the same kind. -/
theorem proper_of_descend {pattern : Bytes} {construct : Construct} {here : Standing}
    {trace : List Event} (h : descend pattern = some ((some construct, here), trace)) :
    construct.Proper := by
  rcases runs_whole pattern with ⟨tree, groups, stop, hread, hrun⟩ | ⟨_, _, _, _, _, hrun⟩
  · obtain ⟨_, hdescend, -⟩ := hrun.descend
    have hresult : (readPattern pattern).result = .ok tree := by rw [hread]
    obtain ⟨d, hderives, rfl, -⟩ := exists_derives_of_result hresult
    rw [h] at hdescend
    cases hdescend
    exact (Derivation.shaped_tree hderives.valid 0).proper_construct
  · obtain ⟨_, hdescend, -⟩ := hrun.descend
    rw [h] at hdescend
    cases hdescend

end RegexSearch
