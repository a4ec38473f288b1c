import RegexSearch.Proofs.Pattern.Reading

/-!
The numbers of groups. The capturing groups of a pattern are numbered from one on, in the order of
their opening parentheses, so no number occurs twice and no group lies inside a group of its own
number. The reader keeps this up at every byte: what it has read so far, in the groups that are
still open and in the level being read, carries exactly the numbers that it has given out.
-/

namespace RegexSearch

namespace Tree

/-- The numbers of the capturing groups, in the order of their opening parentheses. -/
def groups : Tree → List Nat
  | atom .. => []
  | group _ none body => body.groups
  | group _ (some index) body => index :: body.groups
  | cat first rest => first.groups ++ rest.groups
  | alt first rest => first.groups ++ rest.groups
  | rep body _ => body.groups

/-- Groups have numbers from one to `count`, and none contains a group of its own number. -/
def Grouped (count : Nat) : Tree → Prop
  | atom .. => True
  | group _ none body => body.Grouped count
  | group _ (some index) body =>
    0 < index ∧ index ≤ count ∧ index ∉ body.groups ∧ body.Grouped count
  | cat first rest => first.Grouped count ∧ rest.Grouped count
  | alt first rest => first.Grouped count ∧ rest.Grouped count
  | rep body _ => body.Grouped count

theorem grouped_of_nodup {count : Nat} {tree : Tree} (hnodup : tree.groups.Nodup)
    (hbounds : ∀ index ∈ tree.groups, 0 < index ∧ index ≤ count) : tree.Grouped count := by
  induction tree with
  | atom position a => trivial
  | group position index body ih =>
      cases index with
      | none => exact ih hnodup hbounds
      | some index =>
          obtain ⟨hfresh, hbody⟩ := List.nodup_cons.mp hnodup
          obtain ⟨hpos, hle⟩ := hbounds index List.mem_cons_self
          exact ⟨hpos, hle, hfresh,
            ih hbody fun other hmem => hbounds other (List.mem_cons_of_mem _ hmem)⟩
  | cat first rest ihf ihr =>
      obtain ⟨hfirst, hrest, -⟩ := List.nodup_append.mp hnodup
      exact ⟨ihf hfirst fun index hmem => hbounds index (List.mem_append_left _ hmem),
        ihr hrest fun index hmem => hbounds index (List.mem_append_right _ hmem)⟩
  | alt first rest ihf ihr =>
      obtain ⟨hfirst, hrest, -⟩ := List.nodup_append.mp hnodup
      exact ⟨ihf hfirst fun index hmem => hbounds index (List.mem_append_left _ hmem),
        ihr hrest fun index hmem => hbounds index (List.mem_append_right _ hmem)⟩
  | rep body times ih => exact ih hnodup hbounds

theorem Grouped.zero_notMem {count : Nat} {tree : Tree} (h : tree.Grouped count) :
    0 ∉ tree.groups := by
  induction tree with
  | atom position a => exact List.not_mem_nil
  | group position index body ih =>
      cases index with
      | none => exact ih h
      | some index =>
          intro hmem
          rcases List.mem_cons.mp hmem with hzero | hmem
          · exact Nat.ne_of_lt h.1 hzero
          · exact ih h.2.2.2 hmem
  | cat first rest ihf ihr =>
      intro hmem
      rcases List.mem_append.mp hmem with hmem | hmem
      · exact ihf h.1 hmem
      · exact ihr h.2 hmem
  | alt first rest ihf ihr =>
      intro hmem
      rcases List.mem_append.mp hmem with hmem | hmem
      · exact ihf h.1 hmem
      · exact ihr h.2 hmem
  | rep body times ih => exact ih h

end Tree

namespace Level

/-- The numbers of the groups in a level, in the order in which they were read. -/
def groups (level : Level) : List Nat :=
  (level.alternatives.reverse ++ level.operands.reverse).flatMap Tree.groups

theorem groups_push (level : Level) (operand : Tree) :
    (level.push operand).groups = level.groups ++ operand.groups := by
  simp [groups, push]

theorem groups_of_branch? {level : Level} {branch : Tree} (h : level.branch? = some branch) :
    branch.groups = level.operands.reverse.flatMap Tree.groups := by
  have hfold (before : List Tree) (last : Tree) :
      (before.foldl (fun rest operand => Tree.cat operand rest) last).groups =
        before.reverse.flatMap Tree.groups ++ last.groups := by
    induction before generalizing last with
    | nil => rfl
    | cons operand before ih => simp [ih, Tree.groups]
  unfold branch? at h
  split at h
  · cases h
  · rename_i last before hoperands
    cases h
    simp [hfold, hoperands]

theorem groups_of_tree? {level : Level} {tree : Tree} (h : level.tree? = some tree) :
    tree.groups = level.groups := by
  have hfold (before : List Tree) (last : Tree) :
      (before.foldl (fun rest alternative => Tree.alt alternative rest) last).groups =
        before.reverse.flatMap Tree.groups ++ last.groups := by
    induction before generalizing last with
    | nil => rfl
    | cons alternative before ih => simp [ih, Tree.groups]
  obtain ⟨branch, hbranch, rfl⟩ := Option.map_eq_some_iff.mp h
  simp [hfold, groups, groups_of_branch? hbranch]

theorem groups_of_bar? {level next : Level} (h : level.bar? = some next) :
    next.groups = level.groups := by
  obtain ⟨branch, hbranch, rfl⟩ := Option.map_eq_some_iff.mp h
  simp [groups, groups_of_branch? hbranch]

end Level

namespace Reader

/-- The numbers of the groups read so far. A group that is still open comes behind the level that
it will be an operand of. -/
def captured (reader : Reader) : List Nat :=
  reader.openings.reverse.flatMap (fun opening => opening.outer.groups ++ opening.index.toList) ++
    reader.level.groups

/-- The groups read so far carry the numbers that have been given out, in order. -/
def Numbered (reader : Reader) : Prop :=
  reader.captured = List.range' 1 reader.groups

theorem numbered_start : start.Numbered := rfl

theorem Numbered.reads {reader next : Reader} (hread : reader.Reads next)
    (h : reader.Numbered) : next.Numbered := by
  have hcaptured : reader.captured = List.range' 1 reader.groups := h
  cases hread with
  | operand position a =>
      simpa [Numbered, captured, Reader.push, Level.groups_push, Tree.groups] using h
  | plainGroup position =>
      simpa [Numbered, captured, Level.groups, Level.empty] using hcaptured
  | capturingGroup position =>
      have hnext : reader.captured ++ [reader.groups + 1] = List.range' 1 (reader.groups + 1) := by
        rw [List.range'_1_concat, hcaptured, Nat.add_comm]
      simpa [Numbered, captured, Level.groups, Level.empty] using hnext
  | @closing opening openings body hopenings hbody =>
      have hgroup : (Tree.group opening.position opening.index body).groups =
          opening.index.toList ++ reader.level.groups := by
        rw [← Level.groups_of_tree? hbody]
        cases opening.index <;> rfl
      simpa [Numbered, captured, hopenings, Level.groups_push, hgroup] using h
  | bar hbar => simpa [Numbered, captured, Level.groups_of_bar? hbar] using h
  | @quantifier last before times hoperands _ _ =>
      have hlevel : reader.level.groups = ({ reader.level with
          operands := Tree.rep last times :: before } : Level).groups := by
        simp [Level.groups, hoperands, Tree.groups]
      simpa [Numbered, captured, hlevel] using h

end Reader

/-- The groups of a pattern are numbered in the order of their opening parentheses. -/
theorem groups_of_readPattern {pattern : Bytes} {tree : Tree}
    (h : (readPattern pattern).result = .ok tree) :
    tree.groups = List.range' 1 (readPattern pattern).groups := by
  obtain ⟨reader, hnumbered, hopenings, htree, hgroups⟩ :=
    Reader.invariant_of_readPattern Reader.Numbered.reads Reader.numbered_start h
  rw [hgroups, Level.groups_of_tree? htree]
  simpa [Reader.Numbered, Reader.captured, hopenings] using hnumbered

theorem grouped_of_readPattern {pattern : Bytes} {tree : Tree}
    (h : (readPattern pattern).result = .ok tree) :
    tree.Grouped (readPattern pattern).groups := by
  have hgroups := groups_of_readPattern h
  apply Tree.grouped_of_nodup
  · rw [hgroups]
    exact List.nodup_range'
  · intro index hmem
    rw [hgroups, List.mem_range'_1] at hmem
    omega

end RegexSearch
