import RegexSearch.Proofs.Pattern.Soundness
import RegexSearch.Proofs.Program.Extent

/-!
What compiling a pattern gives. A compiled program refers to nothing outside of itself: every
target is an instruction of the program, every set and every loop slot is in its table, and every
group has its registers; the last instruction accepts. For the code of a tree this follows from
its layout, which says where the code ends before it is written; for groups, from the grammar, in
which a backreference names a group that has been opened.
-/

namespace RegexSearch

theorem compilePattern_eq_ok_iff {maxUnroll : Nat} {pattern : Bytes} {tree : Tree}
    {program : Program} :
    compilePattern maxUnroll pattern = ⟨some tree, .ok program⟩ ↔
      (readPattern pattern).result = .ok tree ∧ tree.firstExpensive? maxUnroll = none ∧
        program = .ofTree tree (readPattern pattern).groups := by
  unfold compilePattern
  dsimp only
  cases hresult : (readPattern pattern).result with
  | error error => simp
  | ok read =>
      simp only [Compilation.mk.injEq, Option.some.injEq, Except.ok.injEq, Program.lower]
      constructor
      · rintro ⟨rfl, hlower⟩
        split at hlower
        · cases hlower
        · exact ⟨rfl, by assumption, (Except.ok.inj hlower).symm⟩
      · rintro ⟨rfl, hexpensive, rfl⟩
        rw [hexpensive]
        exact ⟨rfl, rfl⟩

theorem exists_tree_of_program {maxUnroll : Nat} {pattern : Bytes} {program : Program}
    (h : (compilePattern maxUnroll pattern).program = .ok program) :
    ∃ tree, compilePattern maxUnroll pattern = ⟨some tree, .ok program⟩ := by
  unfold compilePattern at h ⊢
  dsimp only at h ⊢
  split at h
  · cases h
  · rename_i tree hresult
    exact ⟨tree, congrArg _ h⟩

/-- What an instruction refers to lies below the bounds: targets below `bounds.pc`, and so on.
Group `group` has the registers `2 * group` and `2 * group + 1`. -/
def Instr.Fits (bounds : Place) (registers : Nat) : Instr → Prop
  | .set index => index < bounds.set
  | .split preferred other => preferred < bounds.pc ∧ other < bounds.pc
  | .jump target => target < bounds.pc
  | .openGroup group => 2 * group + 1 < registers
  | .closeGroup group => 2 * group + 1 < registers
  | .backref group => 2 * group + 1 < registers
  | .mark slot => slot < bounds.slot
  | .check slot => slot < bounds.slot
  | _ => True

/-- All instructions refer to the tables of the program, and the last one accepts. -/
structure Program.WellFormed (program : Program) : Prop where
  fits : ∀ instr ∈ program.code.toList,
    instr.Fits ⟨program.size, program.sets.size, program.loops⟩ program.registerCount
  accepts : program.code.back? = some .accept

/-! ### Group numbers -/

/-- All groups and backreferences have numbers up to `count`. -/
def Tree.NumbersUpTo (count : Nat) : Tree → Prop
  | atom _ (.backref number) => number ≤ count
  | atom .. => True
  | group _ none body => body.NumbersUpTo count
  | group _ (some index) body => index ≤ count ∧ body.NumbersUpTo count
  | cat first rest => first.NumbersUpTo count ∧ rest.NumbersUpTo count
  | alt first rest => first.NumbersUpTo count ∧ rest.NumbersUpTo count
  | rep body _ => body.NumbersUpTo count

theorem Tree.NumbersUpTo.mono {tree : Tree} {count more : Nat} (h : tree.NumbersUpTo count)
    (hle : count ≤ more) : tree.NumbersUpTo more := by
  induction tree with
  | atom position a =>
      cases a with
      | backref number => exact Nat.le_trans h hle
      | _ => trivial
  | group position index body ih =>
      cases index with
      | none => exact ih h
      | some index => exact ⟨Nat.le_trans h.1 hle, ih h.2⟩
  | cat first rest ihfirst ihrest => exact ⟨ihfirst h.1, ihrest h.2⟩
  | alt first rest ihfirst ihrest => exact ⟨ihfirst h.1, ihrest h.2⟩
  | rep body times ih => exact ih h

/-- What a derivation names has been opened before it or inside it. -/
theorem Derivation.numbersUpTo_tree {category : Category} {d : Derivation category}
    {depth groups : Nat} {following : Bytes} (h : d.Valid depth groups following)
    (position : Nat) : (d.tree position groups).NumbersUpTo (groups + d.groups) := by
  induction d generalizing depth groups following position with
  | leaf written =>
      cases written with
      | reference number => exact h.1.le
      | escape named =>
          change (Tree.atom position named.meaning.atom).NumbersUpTo _
          cases named.meaning <;> trivial
      | _ => trivial
  | group captures body ih =>
      have hbody := ih h.2 (position + (opening captures).length)
      rw [Nat.add_assoc] at hbody
      cases captures with
      | false => exact hbody
      | true => exact ⟨Nat.add_le_add_left (Nat.le_add_right 1 _) groups, hbody⟩
  | once operand ih => exact ih h position
  | repeated operand suffix ih => exact ih h.1 position
  | last operand ih => exact ih h position
  | more operand rest ih ihrest =>
      have hrest := ihrest h.2 (position + operand.word.length)
      rw [Nat.add_assoc] at hrest
      exact ⟨(ih h.1 position).mono (Nat.add_le_add_left (Nat.le_add_right _ _) groups), hrest⟩
  | only branch ih => exact ih h position
  | choice branch rest ih ihrest =>
      have hrest := ihrest h.2 (position + branch.word.length + 1)
      rw [Nat.add_assoc] at hrest
      exact ⟨(ih h.1 position).mono (Nat.add_le_add_left (Nat.le_add_right _ _) groups), hrest⟩

/-- The groups and the backreferences of a tree are among its numbers. -/
theorem Tree.NumbersUpTo.le {tree : Tree} {count : Nat} (h : tree.NumbersUpTo count) :
    (∀ group ∈ tree.groups, group ≤ count) ∧ ∀ number ∈ tree.references, number ≤ count := by
  induction tree with
  | atom position a =>
      cases a with
      | backref number =>
          have hnumber : number ≤ count := h
          exact ⟨List.forall_mem_nil _, List.forall_mem_singleton.mpr hnumber⟩
      | _ => exact ⟨List.forall_mem_nil _, List.forall_mem_nil _⟩
  | group position index body ih =>
      cases index with
      | none => exact ih h
      | some index =>
          obtain ⟨hgroups, hreferences⟩ := ih h.2
          exact ⟨List.forall_mem_cons.mpr ⟨h.1, hgroups⟩, hreferences⟩
  | cat first rest ihfirst ihrest =>
      obtain ⟨hgroups, hreferences⟩ := ihfirst h.1
      obtain ⟨hgroupsRest, hreferencesRest⟩ := ihrest h.2
      exact ⟨List.forall_mem_append.mpr ⟨hgroups, hgroupsRest⟩,
        List.forall_mem_append.mpr ⟨hreferences, hreferencesRest⟩⟩
  | alt first rest ihfirst ihrest =>
      obtain ⟨hgroups, hreferences⟩ := ihfirst h.1
      obtain ⟨hgroupsRest, hreferencesRest⟩ := ihrest h.2
      exact ⟨List.forall_mem_append.mpr ⟨hgroups, hgroupsRest⟩,
        List.forall_mem_append.mpr ⟨hreferences, hreferencesRest⟩⟩
  | rep body times ih => exact ih h

/-- What lies between two places fits below the second one, to which control may pass. -/
theorem Instr.Between.fits {first last : Place} {groups references : List Nat} {instr : Instr}
    (h : instr.Between first last groups references) {count : Nat}
    (hgroups : ∀ group ∈ groups, group ≤ count)
    (hreferences : ∀ number ∈ references, number ≤ count) :
    instr.Fits (last.skip 1) (2 * (count + 1)) := by
  have hregisters (number : Nat) (hle : number ≤ count) : 2 * number + 1 < 2 * (count + 1) := by
    omega
  cases instr with
  | set index => exact h.2
  | split preferred other => exact ⟨Nat.lt_succ_of_le h.1.2, Nat.lt_succ_of_le h.2.2⟩
  | jump target => exact Nat.lt_succ_of_le h.2
  | openGroup group => exact hregisters group (hgroups group h)
  | closeGroup group => exact hregisters group (hgroups group h)
  | backref group => exact hregisters group (hreferences group h)
  | mark slot => exact h.2
  | check slot => exact h.2
  | _ => trivial

/-- The program of a tree is well formed. -/
theorem wellFormed_ofTree {tree : Tree} {groups : Nat} (h : tree.NumbersUpTo groups) :
    (Program.ofTree tree groups).WellFormed := by
  have hend : (Place.after ⟨1, 0, 0⟩ tree).Le
      ⟨tree.codeSize + 2, tree.sets.length, tree.loopCount⟩ := by
    constructor
    all_goals
      simp only [Place.after]
      omega
  have hconfined := confined_code (List.Subset.refl tree.groups)
    (List.Subset.refl tree.references) (Place.Le.refl ⟨1, 0, 0⟩) hend
  have hwhole (instr : Instr) (h : instr ∈ [.openGroup 0, .closeGroup 0, .accept]) :
      instr.Fits ⟨tree.codeSize + 3, tree.sets.length, tree.loopCount⟩ (2 * (groups + 1)) := by
    simp only [List.mem_cons, List.not_mem_nil, or_false] at h
    rcases h with rfl | rfl | rfl
    · exact Nat.mul_le_mul_left 2 (Nat.le_add_left 1 groups)
    · exact Nat.mul_le_mul_left 2 (Nat.le_add_left 1 groups)
    · trivial
  constructor
  · rw [Program.size_ofTree]
    intro instr hmem
    simp only [Program.ofTree, Program.wrap, List.cons_append, List.mem_cons,
      List.mem_append, List.not_mem_nil, or_false] at hmem
    rcases hmem with rfl | hcode | rfl | rfl
    · exact hwhole _ (by simp)
    · exact (hconfined instr hcode).fits h.le.1 h.le.2
    · exact hwhole _ (by simp)
    · exact hwhole _ (by simp)
  · simp [Program.ofTree, Program.wrap, List.getLast?_cons, List.getLast?_append]

/-- A compiled program is well formed. -/
theorem wellFormed_of_compilePattern {maxUnroll : Nat} {pattern : Bytes} {program : Program}
    (h : (compilePattern maxUnroll pattern).program = .ok program) : program.WellFormed := by
  obtain ⟨tree, hcompiled⟩ := exists_tree_of_program h
  obtain ⟨htree, -, rfl⟩ := compilePattern_eq_ok_iff.mp hcompiled
  obtain ⟨d, hderives, rfl, hgroups⟩ := exists_derives_of_result htree
  have hnumbers := Derivation.numbersUpTo_tree hderives.valid 0
  rw [Nat.zero_add, hgroups] at hnumbers
  exact wellFormed_ofTree hnumbers

end RegexSearch
