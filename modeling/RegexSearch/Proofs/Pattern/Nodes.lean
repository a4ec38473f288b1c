import RegexSearch.Pattern.Tree

/-!
The nodes of a tree. A chain of operands is one node, though it is nested to the right, so a node
has the operands of its whole chain below it. Seen in this way a tree has a height, and it is listed
by its nodes, each one before those below it.
-/

namespace RegexSearch.Tree

/-- The direct operands, where a chain has all of its members as operands. -/
def operands : Tree → List Tree
  | atom .. => []
  | group _ _ body => [body]
  | cat first rest => first :: if rest.isCat then rest.operands else [rest]
  | alt first rest => first :: if rest.isAlt then rest.operands else [rest]
  | rep body _ => [body]

/-- The number of nodes on the longest way down. -/
def height : Tree → Nat
  | atom .. => 1
  | group _ _ body => body.height + 1
  | cat first rest => max (first.height + 1) (if rest.isCat then rest.height else rest.height + 1)
  | alt first rest => max (first.height + 1) (if rest.isAlt then rest.height else rest.height + 1)
  | rep body _ => body.height + 1

/-- The number of groups that lie inside each other. -/
def nesting : Tree → Nat
  | atom .. => 0
  | group _ _ body => body.nesting + 1
  | cat first rest => max first.nesting rest.nesting
  | alt first rest => max first.nesting rest.nesting
  | rep body _ => body.nesting

theorem length_operands (tree : Tree) : tree.operands.length = tree.operandCount := by
  induction tree with
  | atom position a => rfl
  | group position index body ih => rfl
  | cat first rest ihf ihr =>
      rw [operands, operandCount, List.length_cons, Nat.add_comm, apply_ite List.length, ihr]
      rfl
  | alt first rest ihf ihr =>
      rw [operands, operandCount, List.length_cons, Nat.add_comm, apply_ite List.length, ihr]
      rfl
  | rep body times ih => rfl

/-- A chain has several members. -/
theorem two_le_length_operands {tree : Tree} (h : tree.isCat = true ∨ tree.isAlt = true) :
    2 ≤ tree.operands.length := by
  cases tree with
  | cat first rest =>
      rw [operands, List.length_cons]
      cases rest <;> simp [isCat, operands]
  | alt first rest =>
      rw [operands, List.length_cons]
      cases rest <;> simp [isAlt, operands]
  | _ => simp [isCat, isAlt] at h

/-- A node is listed before its operands, and these one after the other. -/
theorem nodes_eq (tree : Tree) : tree.nodes = tree :: tree.operands.flatMap nodes := by
  induction tree with
  | atom position a => rfl
  | group position index body ih => simp [nodes, operands]
  | cat first rest ihf ihr =>
      simp only [nodes, operands, List.flatMap_cons]
      split
      · rw [ihr, List.tail_cons]
      · simp
  | alt first rest ihf ihr =>
      simp only [nodes, operands, List.flatMap_cons]
      split
      · rw [ihr, List.tail_cons]
      · simp
  | rep body times ih => simp [nodes, operands]

/-- The height is one more than that of the highest operand. -/
theorem height_eq (tree : Tree) :
    tree.height = (tree.operands.map height).foldr max 0 + 1 := by
  induction tree with
  | atom position a => rfl
  | group position index body ih => simp [height, operands]
  | cat first rest ihf ihr =>
      simp only [height, operands, List.map_cons, List.foldr_cons]
      split
      · rw [ihr]
        omega
      · simp
  | alt first rest ihf ihr =>
      simp only [height, operands, List.map_cons, List.foldr_cons]
      split
      · rw [ihr]
        omega
      · simp
  | rep body times ih => simp [height, operands]

/-! ### Parts -/

/-- The nodes of the later part of a chain, without the part itself, are nodes of that part. -/
theorem chain_sublist (isChain : Bool) (nodes : List Tree) :
    (if isChain then nodes.tail else nodes).Sublist nodes := by
  cases isChain with
  | true => exact List.tail_sublist nodes
  | false => exact List.Sublist.refl nodes

/-- A node of a chain is the chain itself or a node of one of its two parts. -/
theorem mem_chain {whole first rest node : Tree} {isChain : Bool}
    (h : node ∈ whole :: (first.nodes ++ if isChain then rest.nodes.tail else rest.nodes)) :
    node = whole ∨ node ∈ first.nodes ∨ node ∈ rest.nodes := by
  rcases List.mem_cons.mp h with hself | hmem
  · exact .inl hself
  · rcases List.mem_append.mp hmem with hmem | hmem
    · exact .inr (.inl hmem)
    · exact .inr (.inr ((chain_sublist _ _).subset hmem))

/-- What a tree hands down to its parts holds of all its nodes. -/
theorem of_mem_nodes {P : Tree → Prop}
    (hgroup : ∀ position index body, P (group position index body) → P body)
    (hcat : ∀ first rest, P (cat first rest) → P first ∧ P rest)
    (halt : ∀ first rest, P (alt first rest) → P first ∧ P rest)
    (hrep : ∀ body times, P (rep body times) → P body)
    {tree node : Tree} (h : P tree) (hnode : node ∈ tree.nodes) : P node := by
  induction tree with
  | atom position a =>
      rw [List.mem_singleton.mp hnode]
      exact h
  | group position index body ih =>
      rcases List.mem_cons.mp hnode with rfl | hnode
      · exact h
      · exact ih (hgroup position index body h) hnode
  | cat first rest ihf ihr =>
      obtain ⟨hfirst, hrest⟩ := hcat first rest h
      rcases mem_chain hnode with rfl | hnode | hnode
      · exact h
      · exact ihf hfirst hnode
      · exact ihr hrest hnode
  | alt first rest ihf ihr =>
      obtain ⟨hfirst, hrest⟩ := halt first rest h
      rcases mem_chain hnode with rfl | hnode | hnode
      · exact h
      · exact ihf hfirst hnode
      · exact ihr hrest hnode
  | rep body times ih =>
      rcases List.mem_cons.mp hnode with rfl | hnode
      · exact h
      · exact ih (hrep body times h) hnode

end RegexSearch.Tree
