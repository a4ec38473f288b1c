import RegexSearch.Proofs.Pattern.Derivation
import RegexSearch.Proofs.Pattern.Grammar
import RegexSearch.Proofs.Program.Attempt

/-!
The machine finds a match wherever there is one. For a pattern without backreferences, an attempt
succeeds just if the pattern derives a segment of the text that begins there, and reaches to the
end of the text if the end is anchored. The order in which the machine tries things, and the
rounds of loops that it gives up, decide which match is found, never whether one is.
-/

namespace RegexSearch

/-- An attempt finds something just if some outcome of the tree counts. -/
theorem exists_attempt_ofTree_iff {tree : Tree} {groups : Nat} (hgrouped : tree.Grouped groups)
    {text : Text} (anchoredEnd : Bool) {start : Nat} (hstart : start ≤ text.size) :
    (∃ found, attempt (Program.ofTree tree groups) text .unlimited anchoredEnd start =
        .ok (some found)) ↔
      ∃ out ∈ tree.outcomes text (.start start), out.counts anchoredEnd text = true := by
  rw [attempt_ofTree hgrouped anchoredEnd hstart, ← List.find?_isSome, Option.isSome_iff_exists]
  constructor
  · rintro ⟨found, hfound⟩
    obtain ⟨out, hout, -⟩ := Option.map_eq_some_iff.mp (Except.ok.inj hfound)
    exact ⟨out, hout⟩
  · rintro ⟨out, hout⟩
    exact ⟨out.toMatch start groups, by rw [hout]; rfl⟩

theorem exists_attempt_iff_derives_ofTree {tree : Tree} {groups : Nat}
    (hgrouped : tree.Grouped groups) (hfree : tree.BackrefFree) (hordered : tree.Ordered)
    {text : Text} {start : Nat} (hstart : start ≤ text.size) :
    ((∃ found, attempt (Program.ofTree tree groups) text .unlimited true start =
        .ok (some found)) ↔ tree.Derives text start text.size) ∧
    ((∃ found, attempt (Program.ofTree tree groups) text .unlimited false start =
        .ok (some found)) ↔ ∃ stop, tree.Derives text start stop) := by
  have hagrees : Agrees text (tree.outcomes text) (tree.Derives text) :=
    Tree.agrees hfree hordered
  have hsize : (Outcome.start start).offset ≤ text.size := hstart
  constructor
  · rw [exists_attempt_ofTree_iff hgrouped true hstart]
    have hend : (∃ out ∈ tree.outcomes text (.start start), out.offset = text.size) ↔
        tree.Derives text start text.size := hagrees.exists_iff hsize text.size
    simpa [Outcome.counts] using hend
  · rw [exists_attempt_ofTree_iff hgrouped false hstart]
    constructor
    · rintro ⟨out, hout, -⟩
      exact ⟨out.offset, (hagrees.exists_iff hsize out.offset).mp ⟨out, hout, rfl⟩⟩
    · rintro ⟨stop, hstop⟩
      obtain ⟨out, hout, -⟩ := (hagrees.exists_iff hsize stop).mpr hstop
      exact ⟨out, hout, rfl⟩

/-- An attempt with the compiled program of a pattern without backreferences succeeds just if the
pattern derives a segment that begins there, up to the end of the text if the end is anchored. -/
theorem exists_attempt_iff_derives {maxUnroll : Nat} {pattern : Bytes} {tree : Tree}
    {program : Program} (hcompile : compilePattern maxUnroll pattern = ⟨some tree, .ok program⟩)
    (hfree : tree.BackrefFree) {text : Text} {start : Nat} (hstart : start ≤ text.size) :
    ((∃ found, attempt program text .unlimited true start = .ok (some found)) ↔
      tree.Derives text start text.size) ∧
    ((∃ found, attempt program text .unlimited false start = .ok (some found)) ↔
      ∃ stop, tree.Derives text start stop) := by
  obtain ⟨hprogram, hgrouped⟩ := ofTree_of_compilePattern hcompile
  have hordered := inherited_of_readPattern Tree.inherited_ordered
    (result_of_compilePattern hcompile).1
  rw [hprogram]
  exact exists_attempt_iff_derives_ofTree hgrouped hfree hordered hstart

/-- The optional rounds of `(?:a?){2,}` may all be empty on the empty text. -/
theorem exists_attempt_iff_derives_of_empty_rounds :
    let tree := Tree.rep
      (.group 0 none (.rep (.atom 3 (.byte 97)) ⟨0, some 1, true⟩)) ⟨2, none, true⟩
    let program := Program.ofTree tree 0
    let pattern := ascii "(?:a?)" ++ (Bounds.atLeast (ascii "2")).word
    compilePattern 2000 pattern = ⟨some tree, .ok program⟩ ∧
      tree.BackrefFree ∧
      ∃ found, attempt program #[] .unlimited true 0 = .ok (some found) := by
  intro tree program pattern
  have hcompile : compilePattern 2000 pattern = ⟨some tree, .ok program⟩ := rfl
  have hfree : tree.BackrefFree := fun _ hbackref => nomatch hbackref
  have hempty : (Tree.rep (.atom 3 (.byte 97)) ⟨0, some 1, true⟩).Derives #[] 0 0 :=
    ⟨0, Nat.le_refl 0, fun _ _ => Nat.zero_le _, rfl⟩
  have hmax : ∀ max, (none : Option Nat) = some max → 2 ≤ max := by
    intro max hsome
    cases hsome
  have hderives : tree.Derives #[] 0 0 :=
    ⟨2, Nat.le_refl 2, hmax, 0, hempty, 0, hempty, rfl⟩
  exact ⟨hcompile, hfree,
    (exists_attempt_iff_derives hcompile hfree (Nat.le_refl 0)).1.mpr hderives⟩

end RegexSearch
