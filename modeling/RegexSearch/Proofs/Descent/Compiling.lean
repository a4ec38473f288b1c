import RegexSearch.Proofs.Descent.Agreement
import RegexSearch.Proofs.Emission.Agreement
import RegexSearch.Proofs.Pattern.Soundness

/-!
Compiling by descent. A failure shows twice: what fails has no result, and the reason has been
noted. Whether there is a tree to write code for is decided by the noted reason alone, and the code
is written as long as nothing is noted. The two never get out of step: there is a tree, and in the
end a program that is not empty, just if no reason has been noted.
-/

namespace RegexSearch

theorem Program.code_ofTree_ne_empty (tree : Tree) (groups : Nat) :
    (Program.ofTree tree groups).code ≠ #[] := by
  intro hnil
  have hsize := Program.size_ofTree tree groups
  rw [Program.size, hnil] at hsize
  cases hsize

/-- Compiles a pattern by descent, to the reason to fail and a program. If no reason has been noted,
the construct has to be there. -/
def compileByDescent (maxUnroll : Nat) (pattern : Bytes) : Option (Option Error × Program) := do
  let ((root, here), _) ← descend pattern
  match here.failure with
  | some error => return (some error, .empty)
  | none =>
    let construct ← root
    return construct.lower maxUnroll here.groups

section CompileByDescent

variable {maxUnroll : Nat} {pattern : Bytes} {here : Standing} {trace : List Event}

theorem compileByDescent_refused {root : Option Construct} {error : Error}
    (h : descend pattern = some ((root, here), trace)) (hfailure : here.failure = some error) :
    compileByDescent maxUnroll pattern = some (some error, .empty) := by
  rw [compileByDescent, h]
  change (match here.failure with | some error => _ | none => _) = _
  rw [hfailure]
  rfl

theorem compileByDescent_read {tree : Tree}
    (h : descend pattern = some ((some tree.construct, here), trace))
    (hfailure : here.failure = none) (hordered : tree.Ordered) :
    compileByDescent maxUnroll pattern =
      match tree.firstExpensive? maxUnroll with
      | none => some (none, .ofTree tree here.groups)
      | some position => some (some ⟨.expensiveUnroll, position⟩, .empty) := by
  rw [compileByDescent, h]
  change (match here.failure with | some error => _ | none => _) = _
  rw [hfailure]
  change some (tree.construct.lower maxUnroll here.groups) = _
  rw [Construct.lower_construct maxUnroll hordered]
  cases tree.firstExpensive? maxUnroll with
  | none => rfl
  | some position => rfl

end CompileByDescent

/-- Compiling by descent always returns, and it comes to the tree, the program or the error that
compiling comes to. Reading has a tree, and the program is not empty, just if there is no error; an
error of reading is one of compiling. Every error is one of syntax, and points at its cause. Only
the pattern without bytes is refused for being empty. -/
theorem compileByDescent_points (maxUnroll : Nat) (pattern : Bytes) :
    ∃ root here trace failure program,
      descend pattern = some ((root.map Tree.construct, here), trace) ∧
      compileByDescent maxUnroll pattern = some (failure, program) ∧
      compilePattern maxUnroll pattern = ⟨root, failure.elim (.ok program) .error⟩ ∧
      (root.isSome = true ↔ here.failure = none) ∧
      (program.code ≠ #[] ↔ failure = none) ∧
      (∀ error, here.failure = some error → failure = some error) ∧
      (∀ error, failure = some error → error.kind = .patternSyntax ∧ error.PointsAt pattern) ∧
      (failure.map Error.cause = some .emptyPattern ↔ pattern = []) := by
  rcases runs_whole pattern with
    ⟨tree, groups, stop, hread, hrun⟩ | ⟨error, groups, stop, hread, hpoints, hrun⟩
  · obtain ⟨trace, hdescend, -⟩ := hrun.descend
    have hresult : (readPattern pattern).result = .ok tree := by rw [hread]
    have hne : pattern ≠ [] := by
      rintro rfl
      cases hresult
    have hcompiled := @compileByDescent_read maxUnroll pattern _ trace tree hdescend rfl
      (inherited_of_readPattern Tree.inherited_ordered hresult)
    have hcompile : compilePattern maxUnroll pattern =
        ⟨some tree, Program.lower maxUnroll tree groups⟩ := by
      rw [compilePattern, hread]
    rw [Program.lower] at hcompile
    cases hfound : tree.firstExpensive? maxUnroll with
    | none =>
        rw [hfound] at hcompiled hcompile
        refine ⟨some tree, ⟨stop, groups, none⟩, trace, _, _, hdescend, hcompiled, hcompile,
          by simp, ?_, by simp, by simp, by simp [hne]⟩
        exact iff_of_true (Program.code_ofTree_ne_empty tree groups) rfl
    | some position =>
        rw [hfound] at hcompiled hcompile
        obtain ⟨d, hderives, rfl, -⟩ := exists_derives_of_result hresult
        have hpoints := Error.pointsAt_expensiveUnroll hderives hfound
        refine ⟨some (d.tree 0 0), ⟨stop, groups, none⟩, trace, _, _, hdescend, hcompiled,
          hcompile, by simp, by simp [Program.empty], by simp, ?_, by simp [hne]⟩
        intro error herror
        cases herror
        exact ⟨hpoints.kind_eq, hpoints⟩
  · obtain ⟨trace, hdescend, -⟩ := hrun.descend
    have hcompiled := @compileByDescent_refused maxUnroll pattern _ trace none error hdescend rfl
    have hcompile : compilePattern maxUnroll pattern = ⟨none, .error error⟩ := by
      rw [compilePattern, hread]
    refine ⟨none, ⟨stop, groups, some error⟩, trace, _, _, hdescend, hcompiled, hcompile, by simp,
      by simp [Program.empty], fun _ herror => herror, ?_, ?_⟩
    · intro found hfound
      cases hfound
      exact ⟨hpoints.kind_eq, hpoints⟩
    · constructor
      · intro hcause
        have hplace := hpoints.2
        rw [Option.some.inj hcause] at hplace
        exact hplace
      · rintro rfl
        cases hread
        rfl

end RegexSearch
