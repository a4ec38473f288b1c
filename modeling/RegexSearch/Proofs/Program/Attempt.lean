import RegexSearch.Proofs.Machine.Stages
import RegexSearch.Proofs.Program.Meaning

/-!
What an attempt finds. The program of a pattern captures the whole match around the code of the
tree and accepts behind it, so the matches that an attempt runs through are the outcomes of the
pattern, and the first one that it may accept is its answer.
-/

namespace RegexSearch

/-- Whether an outcome counts: every one does, unless the end is anchored. -/
def Outcome.counts (anchoredEnd : Bool) (text : Text) (out : Outcome) : Bool :=
  !anchoredEnd || out.offset == text.size

namespace Machine

variable {machine : Machine}

theorem outcome_start (program : Program) (start : Nat) :
    (Thread.start program start).outcome = .start start := by
  have hcapture : (Thread.start program start).capture = fun _ => none :=
    funext (Thread.capture_start program start)
  simp only [Thread.outcome, hcapture]
  rfl

theorem ready_start (machine : Machine) {start : Nat} (hstart : start ≤ machine.text.size) :
    (Thread.start machine.program start).Ready machine where
  registers := Array.size_replicate
  opens := Array.size_replicate
  marks := Array.size_replicate
  within := by
    rw [outcome_start]
    exact Outcome.within_start hstart

/-- A thread that has captured the whole match accepts with it. -/
theorem toMatch_of_close {leaf : Thread} (hready : leaf.Ready machine) {out : Outcome} {start : Nat}
    (hleaf : leaf.outcome = out.close 0 start) :
    leaf.toMatch = out.toMatch start machine.program.groups := by
  have hcapture : leaf.capture = Function.update out.captures 0 (some ⟨start, out.offset⟩) :=
    congrArg Outcome.captures hleaf
  have hwhole : leaf.capture 0 = some ⟨start, out.offset⟩ := by
    rw [hcapture, Function.update_self]
  have hrest : (List.range machine.program.groups).map (leaf.capture ∘ Nat.succ) =
      (List.range machine.program.groups).map fun group => out.captures (group + 1) := by
    rw [hcapture]
    rfl
  have hgroups : leaf.toMatch.groups = (out.toMatch start machine.program.groups).groups := by
    rw [Thread.groups_toMatch hready.registers, Outcome.toMatch, List.range_succ_eq_map,
      List.map_cons, List.map_map, hrest, hwhole]
  exact congrArg₂ Match.mk (Thread.span_toMatch hwhole) hgroups

/-- Threads that have come to the end of the program yield the first of them that counts. -/
theorem yields_of_arrives {scope : Scope} {thread : Thread} {exit start : Nat}
    {outcomes : List Outcome} {leaves : List Thread}
    (haccept : machine.program.code[exit]? = some .accept)
    (h : List.Forall₂ (fun out leaf => machine.Arrives scope thread exit (out.close 0 start) leaf)
      outcomes leaves) :
    machine.Yields leaves ((outcomes.find? (·.counts machine.anchoredEnd machine.text)).map
      (·.toMatch start machine.program.groups)) := by
  induction h with
  | nil => exact .nil
  | @cons out leaf outcomes leaves hleaf _ ih =>
      have hoffset : leaf.offset = out.offset := congrArg Outcome.offset hleaf.outcome
      have hrefused : (machine.anchoredEnd && leaf.offset != machine.text.size) =
          !out.counts machine.anchoredEnd machine.text := by
        rw [hoffset, Outcome.counts]
        cases machine.anchoredEnd <;> rfl
      have hbranches := branches_accept (hleaf.pc ▸ haccept)
      rw [hrefused] at hbranches
      change machine.Yields ([leaf] ++ leaves) _
      rw [List.find?_cons, yields_append_iff]
      cases hcounts : out.counts machine.anchoredEnd machine.text with
      | true =>
          rw [hcounts] at hbranches
          refine .inl ⟨_, rfl, (yields_accept_iff hbranches).mpr ?_⟩
          rw [toMatch_of_close hleaf.ready hleaf.outcome]
      | false =>
          rw [hcounts] at hbranches
          exact .inr ⟨(yields_branches_iff hbranches).mpr .nil, ih⟩

/-- The program of a tree yields its first outcome that counts. -/
theorem yields_ofTree {tree : Tree} {groups : Nat} (hgrouped : tree.Grouped groups) {text : Text}
    (anchoredEnd : Bool) {start : Nat} (hstart : start ≤ text.size) :
    let machine : Machine := ⟨Program.ofTree tree groups, text, anchoredEnd⟩
    machine.Yields [.start machine.program start]
      (((tree.outcomes text (.start start)).find? (·.counts anchoredEnd text)).map
        (·.toMatch start groups)) := by
  intro machine
  have hlaid := laidAt_toArray [] (Program.wrap (tree.code ⟨1, 0, 0⟩)) []
  rw [List.nil_append, List.append_nil] at hlaid
  obtain ⟨hopen, hlaid⟩ := hlaid
  obtain ⟨-, hclose, haccept, -⟩ := laidAt_append.mp hlaid
  rw [Tree.length_code] at hclose haccept
  have hbody : machine.Implements (tree.scope ⟨1, 0, 0⟩) 1 (1 + tree.codeSize)
      (tree.outcomes text) := implements_tree hgrouped (Tree.laid_ofTree tree groups)
  have hinside : (tree.scope ⟨1, 0, 0⟩).Inside ⟨0 :: tree.groups, 0, tree.loopCount⟩ := by
    refine ⟨List.subset_cons_self _ _, Nat.le_refl _, ?_⟩
    simp [Tree.scope]
  have hreaches := hbody.capturing hopen hclose (Nat.zero_le _) hgrouped.zero_notMem
    List.mem_cons_self hinside (.start machine.program start) (ready_start machine hstart) rfl
  rw [outcome_start] at hreaches
  obtain ⟨leaves, hleaves, hexplores⟩ := hreaches
  apply hexplores
  rw [List.forall₂_map_left_iff] at hleaves
  exact yields_of_arrives haccept hleaves

end Machine

/-- What an attempt with a program from a tree finds. -/
theorem attempt_ofTree {tree : Tree} {groups : Nat} (hgrouped : tree.Grouped groups) {text : Text}
    (anchoredEnd : Bool) {start : Nat} (hstart : start ≤ text.size) :
    attempt (Program.ofTree tree groups) text .unlimited anchoredEnd start =
      .ok (((tree.outcomes text (.start start)).find? (·.counts anchoredEnd text)).map
        (·.toMatch start groups)) := by
  let machine : Machine := ⟨Program.ofTree tree groups, text, anchoredEnd⟩
  have hsize : start ≤ machine.text.size := hstart
  exact (Machine.answer_unlimited_iff hsize).mpr (Machine.yields_ofTree hgrouped anchoredEnd hstart)

theorem ofTree_of_lower {maxUnroll groups : Nat} {tree : Tree} {program : Program}
    (h : Program.lower maxUnroll tree groups = .ok program) :
    program = Program.ofTree tree groups := by
  unfold Program.lower at h
  split at h
  · cases h
  · exact (Except.ok.inj h).symm

theorem result_of_compilePattern {maxUnroll : Nat} {pattern : Bytes} {tree : Tree}
    {program : Program} (h : compilePattern maxUnroll pattern = ⟨some tree, .ok program⟩) :
    (readPattern pattern).result = .ok tree ∧
      Program.lower maxUnroll tree (readPattern pattern).groups = .ok program := by
  unfold compilePattern at h
  dsimp only at h
  split at h
  · cases h
  · rename_i read hread
    obtain ⟨htree, hlower⟩ := Compilation.mk.inj h
    cases htree
    exact ⟨hread, hlower⟩

/-- A pattern that compiles has a tree with the groups that the program counts. -/
theorem ofTree_of_compilePattern {maxUnroll : Nat} {pattern : Bytes} {tree : Tree}
    {program : Program} (h : compilePattern maxUnroll pattern = ⟨some tree, .ok program⟩) :
    program = Program.ofTree tree program.groups ∧ tree.Grouped program.groups := by
  obtain ⟨hresult, hlower⟩ := result_of_compilePattern h
  have hprogram := ofTree_of_lower hlower
  have hgroups : program.groups = (readPattern pattern).groups := by
    rw [hprogram]
    rfl
  rw [hgroups]
  exact ⟨hprogram, grouped_of_readPattern hresult⟩

/-- The compiled program of a pattern finds the first outcome of the pattern that counts, and
finds nothing if there is none. -/
theorem attempt_eq_first_outcome {maxUnroll : Nat} {pattern : Bytes} {tree : Tree}
    {program : Program} (hcompile : compilePattern maxUnroll pattern = ⟨some tree, .ok program⟩)
    (text : Text) (anchoredEnd : Bool) {start : Nat} (hstart : start ≤ text.size) :
    attempt program text .unlimited anchoredEnd start =
      .ok (((tree.outcomes text (.start start)).find? (·.counts anchoredEnd text)).map
        (·.toMatch start program.groups)) := by
  obtain ⟨hprogram, hgrouped⟩ := ofTree_of_compilePattern hcompile
  rw [hprogram]
  exact attempt_ofTree hgrouped anchoredEnd hstart

/-- In `(a?)+` on the text `a`, the round that consumes nothing is the last one and counts. -/
theorem attempt_eq_first_outcome_of_nullable_round :
    let tree := Tree.rep
      (.group 0 (some 1) (.rep (.atom 1 (.byte 97)) ⟨0, some 1, true⟩)) ⟨1, none, true⟩
    let program := Program.ofTree tree 1
    compilePattern 2000 (ascii "(a?)+") = ⟨some tree, .ok program⟩ ∧
      attempt program #[97] .unlimited false 0 =
        .ok (some ⟨⟨0, 1⟩, [some ⟨0, 1⟩, some ⟨1, 1⟩]⟩) := by
  intro tree program
  have hcompile : compilePattern 2000 (ascii "(a?)+") = ⟨some tree, .ok program⟩ := rfl
  refine ⟨hcompile, ?_⟩
  rw [attempt_eq_first_outcome hcompile #[97] false (Nat.zero_le 1)]
  rfl

end RegexSearch
