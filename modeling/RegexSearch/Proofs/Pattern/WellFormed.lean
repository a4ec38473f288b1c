import RegexSearch.Proofs.Pattern.Groups
import RegexSearch.Proofs.Pattern.Nodes
import RegexSearch.Proofs.Program.Cost

/-!
The trees that patterns have. Not every tree is the tree of a pattern. Operands hold together more
tightly than what they are operands of, since parentheses would be needed otherwise; a tree begins
where it is written, and its parts follow each other there; a backreference names a group that has
been opened in front of it. All of this is seen in the derivation of a pattern, one production after
the other, and what it means for the nodes of the tree follows from it.
-/

namespace RegexSearch

namespace Tree

/-! ### Shape -/

/-- How loosely a tree holds together. -/
def rank : Tree → Nat
  | atom .. => 1
  | group .. => 1
  | rep .. => 2
  | cat .. => 3
  | alt .. => 4

/-- Operands hold together more tightly than the whole, sets are in normal form, and quantifiers
have proper bounds and something to repeat. -/
def Shaped : Tree → Prop
  | atom _ (.set members) => ByteRange.Normal members.ranges
  | atom .. => True
  | group _ _ body => body.Shaped
  | cat first rest => first.rank < 3 ∧ rest.rank ≤ 3 ∧ first.Shaped ∧ rest.Shaped
  | alt first rest => first.rank < 4 ∧ first.Shaped ∧ rest.Shaped
  | rep body times =>
    body.rank < 2 ∧ body.isRepeatable = true ∧ times.Bounded ∧ body.Shaped

theorem rank_le (tree : Tree) : tree.rank ≤ 4 := by
  cases tree <;> simp [rank]

theorem isCat_iff {tree : Tree} : tree.isCat = true ↔ tree.rank = 3 := by
  cases tree <;> simp [isCat, rank]

theorem isAlt_iff {tree : Tree} : tree.isAlt = true ↔ tree.rank = 4 := by
  cases tree <;> simp [isAlt, rank]

namespace Shaped

variable {tree node operand : Tree}

theorem of_mem_nodes (h : tree.Shaped) (hnode : node ∈ tree.nodes) : node.Shaped :=
  Tree.of_mem_nodes (fun _ _ _ h => h) (fun _ _ h => ⟨h.2.2.1, h.2.2.2⟩) (fun _ _ h => h.2)
    (fun _ _ h => h.2.2.2) h hnode

/-- The members of a chain hold together more tightly than the chain. -/
theorem rank_lt_of_mem_operands (h : tree.Shaped) (hchain : 2 < tree.rank)
    (hoperand : operand ∈ tree.operands) : operand.rank < tree.rank := by
  induction tree with
  | atom position a => cases hoperand
  | group position index body ih => simp [rank] at hchain
  | cat first rest ihf ihr =>
      obtain ⟨hfirst, hrank, -, hrest⟩ := h
      rw [operands] at hoperand
      rcases List.mem_cons.mp hoperand with rfl | hmem
      · exact hfirst
      · split at hmem
        · rename_i hcat
          have hthree := isCat_iff.mp hcat
          have hlt := ihr hrest (by omega) hmem
          rwa [hthree] at hlt
        · rename_i hcat
          rw [List.mem_singleton.mp hmem]
          exact Nat.lt_of_le_of_ne hrank (mt isCat_iff.mpr hcat)
  | alt first rest ihf ihr =>
      obtain ⟨hfirst, -, hrest⟩ := h
      rw [operands] at hoperand
      rcases List.mem_cons.mp hoperand with rfl | hmem
      · exact hfirst
      · split at hmem
        · rename_i halt
          have hfour := isAlt_iff.mp halt
          have hlt := ihr hrest (by omega) hmem
          rwa [hfour] at hlt
        · rename_i halt
          rw [List.mem_singleton.mp hmem]
          exact Nat.lt_of_le_of_ne rest.rank_le (mt isAlt_iff.mpr halt)
  | rep body times ih => simp [rank] at hchain

/-- Between a group and the next one inside there are at most an alternation, a concatenation and a
repetition. -/
theorem height_le (h : tree.Shaped) : tree.height ≤ 4 * tree.nesting + tree.rank := by
  induction tree with
  | atom position a => simp [height, nesting, rank]
  | group position index body ih =>
      have hbody := ih h
      have hrank := body.rank_le
      simp only [height, nesting, rank]
      omega
  | cat first rest ihf ihr =>
      obtain ⟨hfirst, hrank, hshaped, hrest⟩ := h
      have hleft := ihf hshaped
      have hright := ihr hrest
      simp only [height, nesting, rank]
      -- The later part is one level further down only if it is the last member of the chain.
      split
      · omega
      · rename_i hcat
        have hne := mt isCat_iff.mpr hcat
        omega
  | alt first rest ihf ihr =>
      obtain ⟨hfirst, hshaped, hrest⟩ := h
      have hleft := ihf hshaped
      have hright := ihr hrest
      have hrank := rest.rank_le
      simp only [height, nesting, rank]
      split
      · omega
      · rename_i halt
        have hne := mt isAlt_iff.mpr halt
        omega
  | rep body times ih =>
      obtain ⟨hrank, -, -, hbody⟩ := h
      have hheight := ih hbody
      simp only [height, nesting, rank]
      omega

end Shaped

/-! ### Places -/

/-- The tree is written in a pattern from one offset to another, and its parts follow each other
there. Behind a parenthesis that opens a group, the body begins. -/
def Spans (pattern : Bytes) : (start stop : Nat) → Tree → Prop
  | start, stop, atom position _ => position = start ∧ start < stop
  | start, stop, group position _ body =>
    position = start ∧ pattern[start]? = some '('.toUInt8 ∧
      ∃ first last, start < first ∧ last ≤ stop ∧ body.Spans pattern first last
  | start, stop, cat first rest =>
    ∃ middle, first.Spans pattern start middle ∧ rest.Spans pattern middle stop
  | start, stop, alt first rest =>
    ∃ middle next, middle ≤ next ∧ first.Spans pattern start middle ∧
      rest.Spans pattern next stop
  | start, stop, rep body _ => ∃ last, last ≤ stop ∧ body.Spans pattern start last

/-- The number and the place of a capturing group. -/
def numbered? : Tree → Option (Nat × Nat)
  | group position (some index) _ => some (index, position)
  | _ => none

/-- The capturing groups in the order in which they are listed, each with its number and its
place. -/
def capturing (tree : Tree) : List (Nat × Nat) :=
  tree.nodes.filterMap numbered?

/-- A chain is no group, so it does not matter that its later part is not listed by itself. -/
theorem filterMap_chain {rest : Tree} {isChain : Bool}
    (h : isChain = true → rest.numbered? = none) :
    (if isChain then rest.nodes.tail else rest.nodes).filterMap numbered? = rest.capturing := by
  cases isChain with
  | true =>
      rw [capturing, nodes_eq, List.filterMap_cons_none (h rfl)]
      rfl
  | false => rfl

theorem capturing_cat (first rest : Tree) :
    (cat first rest).capturing = first.capturing ++ rest.capturing := by
  have hchain : rest.isCat = true → rest.numbered? = none := by
    cases rest <;> simp [isCat, numbered?]
  rw [capturing, nodes, List.filterMap_cons_none rfl, List.filterMap_append,
    filterMap_chain hchain]
  rfl

theorem capturing_alt (first rest : Tree) :
    (alt first rest).capturing = first.capturing ++ rest.capturing := by
  have hchain : rest.isAlt = true → rest.numbered? = none := by
    cases rest <;> simp [isAlt, numbered?]
  rw [capturing, nodes, List.filterMap_cons_none rfl, List.filterMap_append,
    filterMap_chain hchain]
  rfl

theorem capturing_rep (body : Tree) (times : Quantifier) :
    (rep body times).capturing = body.capturing :=
  rfl

theorem capturing_group (position : Nat) (index : Option Nat) (body : Tree) :
    (group position index body).capturing =
      index.toList.map (·, position) ++ body.capturing := by
  cases index <;> rfl

/-- The numbers of the capturing groups. -/
theorem map_fst_capturing (tree : Tree) : tree.capturing.map Prod.fst = tree.groups := by
  induction tree with
  | atom position a => rfl
  | group position index body ih => cases index <;> simp [capturing_group, groups, ih]
  | cat first rest ihf ihr => rw [capturing_cat, List.map_append, ihf, ihr, groups]
  | alt first rest ihf ihr => rw [capturing_alt, List.map_append, ihf, ihr, groups]
  | rep body times ih => rw [capturing_rep, ih, groups]

namespace Spans

variable {pattern : Bytes} {start stop : Nat} {tree node : Tree}

/-- A tree begins where it is written, and does not end there. -/
theorem position_eq (h : tree.Spans pattern start stop) : tree.position = start ∧ start < stop := by
  induction tree generalizing start stop with
  | atom position a => exact h
  | group position index body ih =>
      obtain ⟨hposition, -, first, last, hfirst, hlast, hbody⟩ := h
      have hlt := (ih hbody).2
      exact ⟨hposition, by omega⟩
  | cat first rest ihf ihr =>
      obtain ⟨middle, hfirst, hrest⟩ := h
      exact ⟨(ihf hfirst).1, Nat.lt_trans (ihf hfirst).2 (ihr hrest).2⟩
  | alt first rest ihf ihr =>
      obtain ⟨middle, next, hnext, hfirst, hrest⟩ := h
      have hleft := (ihf hfirst).2
      have hright := (ihr hrest).2
      exact ⟨(ihf hfirst).1, by omega⟩
  | rep body times ih =>
      obtain ⟨last, hlast, hbody⟩ := h
      exact ⟨(ih hbody).1, Nat.lt_of_lt_of_le (ih hbody).2 hlast⟩

/-- Every node is written inside the tree. -/
theorem of_mem_nodes (h : tree.Spans pattern start stop) (hnode : node ∈ tree.nodes) :
    ∃ first last, start ≤ first ∧ last ≤ stop ∧ node.Spans pattern first last := by
  refine Tree.of_mem_nodes (P := fun part => ∃ first last, start ≤ first ∧ last ≤ stop ∧
    part.Spans pattern first last) ?_ ?_ ?_ ?_ ⟨start, stop, Nat.le_refl _, Nat.le_refl _, h⟩ hnode
  · rintro _ _ _ ⟨first, last, hle, hle', -, -, next, middle, hlt, hmiddle, hbody⟩
    exact ⟨next, middle, by omega, by omega, hbody⟩
  · rintro left right ⟨first, last, hle, hle', middle, hleft, hright⟩
    have hbegin := hleft.position_eq.2
    have hend := hright.position_eq.2
    exact ⟨⟨first, middle, hle, by omega, hleft⟩, ⟨middle, last, by omega, hle', hright⟩⟩
  · rintro left right ⟨first, last, hle, hle', middle, next, hnext, hleft, hright⟩
    have hbegin := hleft.position_eq.2
    have hend := hright.position_eq.2
    exact ⟨⟨first, middle, hle, by omega, hleft⟩, ⟨next, last, by omega, hle', hright⟩⟩
  · rintro _ _ ⟨first, last, hle, hle', middle, hmiddle, hbody⟩
    exact ⟨first, middle, hle, by omega, hbody⟩

theorem position_of_mem_nodes (h : tree.Spans pattern start stop) (hnode : node ∈ tree.nodes) :
    start ≤ node.position ∧ node.position < stop := by
  obtain ⟨first, last, hfirst, hlast, hspans⟩ := h.of_mem_nodes hnode
  obtain ⟨hposition, hlt⟩ := hspans.position_eq
  omega

/-- A capturing group is written inside the tree, and begins with a parenthesis. -/
theorem of_mem_capturing (h : tree.Spans pattern start stop) {entry : Nat × Nat}
    (hentry : entry ∈ tree.capturing) :
    start ≤ entry.2 ∧ entry.2 < stop ∧ pattern[entry.2]? = some '('.toUInt8 := by
  obtain ⟨node, hnode, hnumbered⟩ := List.mem_filterMap.mp hentry
  obtain ⟨first, last, hfirst, hlast, hspans⟩ := h.of_mem_nodes hnode
  cases node with
  | group position index body =>
      cases index with
      | none => cases hnumbered
      | some index =>
          obtain rfl := Option.some.inj hnumbered
          obtain ⟨hbegin, hlt⟩ := hspans.position_eq
          obtain ⟨rfl, hopening, -⟩ := hspans
          exact ⟨hfirst, by omega, hopening⟩
  | _ => cases hnumbered

/-- The nodes of a chain are in order if those of its two parts are. -/
theorem pairwise_chain {first rest : Tree} {middle next : Nat} {isChain : Bool}
    (hposition : tree.position = start) (hle : middle ≤ next)
    (hfirst : first.Spans pattern start middle) (hrest : rest.Spans pattern next stop)
    (hleft : first.nodes.Pairwise fun first second => first.position ≤ second.position)
    (hright : rest.nodes.Pairwise fun first second => first.position ≤ second.position) :
    (tree :: (first.nodes ++ if isChain then rest.nodes.tail else rest.nodes)).Pairwise
      fun first second => first.position ≤ second.position := by
  have hsublist := chain_sublist isChain rest.nodes
  have hbegin := hfirst.position_eq.2
  rw [List.pairwise_cons, List.pairwise_append]
  refine ⟨?_, hleft, hright.sublist hsublist, ?_⟩
  · intro node hnode
    rcases List.mem_append.mp hnode with hnode | hnode
    · have hnear := hfirst.position_of_mem_nodes hnode
      omega
    · have hfar := hrest.position_of_mem_nodes (hsublist.subset hnode)
      omega
  · intro near hnear far hfar
    have hnear := hfirst.position_of_mem_nodes hnear
    have hfar := hrest.position_of_mem_nodes (hsublist.subset hfar)
    omega

/-- Nodes are listed in the order in which they are written. -/
theorem pairwise_nodes (h : tree.Spans pattern start stop) :
    tree.nodes.Pairwise fun first second => first.position ≤ second.position := by
  induction tree generalizing start stop with
  | atom position a => exact List.pairwise_singleton _ _
  | group position index body ih =>
      obtain ⟨rfl, -, first, last, hfirst, hlast, hbody⟩ := h
      refine List.pairwise_cons.mpr ⟨?_, ih hbody⟩
      intro node hnode
      have hinside := hbody.position_of_mem_nodes hnode
      simp only [Tree.position]
      omega
  | cat first rest ihf ihr =>
      have hposition := h.position_eq.1
      obtain ⟨middle, hfirst, hrest⟩ := h
      exact pairwise_chain hposition (Nat.le_refl _) hfirst hrest (ihf hfirst) (ihr hrest)
  | alt first rest ihf ihr =>
      have hposition := h.position_eq.1
      obtain ⟨middle, next, hnext, hfirst, hrest⟩ := h
      exact pairwise_chain hposition hnext hfirst hrest (ihf hfirst) (ihr hrest)
  | rep body times ih =>
      have hposition := h.position_eq.1
      obtain ⟨last, hlast, hbody⟩ := h
      refine List.pairwise_cons.mpr ⟨?_, ih hbody⟩
      intro node hnode
      have hinside := hbody.position_of_mem_nodes hnode
      omega

/-- What is written in front of something else has its groups in front of it. -/
theorem lt_of_mem_capturing {first rest : Tree} {middle next : Nat} (hle : middle ≤ next)
    (hfirst : first.Spans pattern start middle) (hrest : rest.Spans pattern next stop) :
    ∀ near ∈ first.capturing, ∀ far ∈ rest.capturing, near.2 < far.2 := by
  intro near hnear far hfar
  have hbefore := (hfirst.of_mem_capturing hnear).2.1
  have hbehind := (hrest.of_mem_capturing hfar).1
  omega

theorem pairwise_capturing (h : tree.Spans pattern start stop) :
    tree.capturing.Pairwise fun first second => first.2 < second.2 := by
  induction tree generalizing start stop with
  | atom position a => exact List.Pairwise.nil
  | group position index body ih =>
      obtain ⟨rfl, -, first, last, hfirst, hlast, hbody⟩ := h
      rw [capturing_group]
      cases index with
      | none => exact ih hbody
      | some index =>
          refine List.pairwise_cons.mpr ⟨?_, ih hbody⟩
          intro entry hentry
          exact Nat.lt_of_lt_of_le hfirst (hbody.of_mem_capturing hentry).1
  | cat first rest ihf ihr =>
      obtain ⟨middle, hfirst, hrest⟩ := h
      rw [capturing_cat, List.pairwise_append]
      exact ⟨ihf hfirst, ihr hrest, lt_of_mem_capturing (Nat.le_refl _) hfirst hrest⟩
  | alt first rest ihf ihr =>
      obtain ⟨middle, next, hnext, hfirst, hrest⟩ := h
      rw [capturing_alt, List.pairwise_append]
      exact ⟨ihf hfirst, ihr hrest, lt_of_mem_capturing hnext hfirst hrest⟩
  | rep body times ih =>
      obtain ⟨last, hlast, hbody⟩ := h
      exact ih hbody

end Spans

/-! ### Backreferences -/

/-- Backreferences name groups that have been opened in front of them, with so many opened before
the tree. -/
def RefersBack : (before : Nat) → Tree → Prop
  | before, atom _ (.backref index) => 0 < index ∧ index ≤ before
  | _, atom .. => True
  | before, group _ index body => body.RefersBack (before + index.toList.length)
  | before, cat first rest =>
    first.RefersBack before ∧ rest.RefersBack (before + first.groups.length)
  | before, alt first rest =>
    first.RefersBack before ∧ rest.RefersBack (before + first.groups.length)
  | before, rep body _ => body.RefersBack before

section

variable {pattern : Bytes} {start stop position : Nat}

/-- In front of a place that is behind the tree, all its groups have been opened. -/
theorem Spans.countP_capturing {tree : Tree} (h : tree.Spans pattern start stop)
    (hle : stop ≤ position) : tree.capturing.countP (·.2 < position) = tree.groups.length := by
  rw [← map_fst_capturing, List.length_map, List.countP_eq_length]
  intro entry hentry
  have hlt := (h.of_mem_capturing hentry).2.1
  exact decide_eq_true (Nat.lt_of_lt_of_le hlt hle)

/-- A backreference in the first or in the second of two parts. -/
theorem le_countP_append {first rest : Tree} {middle next before index : Nat} (hle : middle ≤ next)
    (hfirst : first.Spans pattern start middle) (hrest : rest.Spans pattern next stop)
    (h : (0 < index ∧ index ≤ before + first.capturing.countP (·.2 < position)) ∨
      (atom position (.backref index) ∈ rest.nodes ∧ 0 < index ∧
        index ≤ before + first.groups.length + rest.capturing.countP (·.2 < position))) :
    0 < index ∧ index ≤ before + (first.capturing ++ rest.capturing).countP (·.2 < position) := by
  rw [List.countP_append]
  rcases h with ⟨hpos, hindex⟩ | ⟨hnode, hpos, hindex⟩
  · exact ⟨hpos, by omega⟩
  · -- All groups of the first part are in front of a place in the second.
    have hplace : next ≤ position := (hrest.position_of_mem_nodes hnode).1
    rw [hfirst.countP_capturing (Nat.le_trans hle hplace)]
    exact ⟨hpos, by omega⟩

/-- A backreference names a group that is written in front of it. -/
theorem le_countP_capturing {before index : Nat} {tree : Tree} (h : tree.Spans pattern start stop)
    (hback : tree.RefersBack before) (hnode : atom position (.backref index) ∈ tree.nodes) :
    0 < index ∧ index ≤ before + tree.capturing.countP (·.2 < position) := by
  induction tree generalizing start stop before with
  | atom place a =>
      obtain ⟨rfl, rfl⟩ := atom.inj (List.mem_singleton.mp hnode)
      exact ⟨hback.1, Nat.le_add_right_of_le hback.2⟩
  | group place number body ih =>
      obtain ⟨rfl, -, first, last, hfirst, hlast, hbody⟩ := h
      have hinside : atom position (.backref index) ∈ body.nodes := by
        simpa [nodes] using hnode
      obtain ⟨hpos, hindex⟩ := ih hbody hback hinside
      have hplace : first ≤ position := (hbody.position_of_mem_nodes hinside).1
      have hopened : (number.toList.map (·, place)).countP (·.2 < position) =
          number.toList.length := by
        cases number with
        | none => rfl
        | some number => simp; omega
      rw [capturing_group, List.countP_append, hopened]
      exact ⟨hpos, by omega⟩
  | cat first rest ihf ihr =>
      obtain ⟨middle, hfirst, hrest⟩ := h
      rw [capturing_cat]
      apply le_countP_append (Nat.le_refl _) hfirst hrest
      rcases mem_chain hnode with hself | hmem | hmem
      · cases hself
      · exact .inl (ihf hfirst hback.1 hmem)
      · exact .inr ⟨hmem, ihr hrest hback.2 hmem⟩
  | alt first rest ihf ihr =>
      obtain ⟨middle, next, hnext, hfirst, hrest⟩ := h
      rw [capturing_alt]
      apply le_countP_append hnext hfirst hrest
      rcases mem_chain hnode with hself | hmem | hmem
      · cases hself
      · exact .inl (ihf hfirst hback.1 hmem)
      · exact .inr ⟨hmem, ihr hrest hback.2 hmem⟩
  | rep body times ih =>
      obtain ⟨last, hlast, hbody⟩ := h
      have hinside : atom position (.backref index) ∈ body.nodes := by
        simpa [nodes] using hnode
      exact ih hbody hback hinside

end

end Tree

/-! ### Derivations -/

/-- How loosely the trees of a category can hold together. -/
def Category.rank : Category → Nat
  | atom => 1
  | repetition => 2
  | concatenation => 3
  | alternation => 4

theorem normal_of_predefined {name : Byte} {members : ByteSet}
    (h : (name, members) ∈ predefinedNames) : ByteRange.Normal members.ranges := by
  have hall : ∀ entry ∈ predefinedNames,
      (∀ range ∈ entry.2.ranges, range.low.toInt ≤ range.high.toInt) ∧
        entry.2.ranges.Pairwise fun first second => first.high.toInt + 1 < second.low.toInt := by
    decide +kernel
  obtain ⟨hordered, hgaps⟩ := hall _ h
  exact ⟨hordered, hgaps⟩

theorem Leaf.shaped_atom {written : Leaf} {groups : Nat} {following : Bytes}
    (h : written.Valid groups following) (position : Nat) :
    (Tree.atom position written.atom).Shaped := by
  cases written with
  | escape named =>
      cases named with
      | predefined name members => exact normal_of_predefined h
      | _ => trivial
  | brackets negated items => exact ByteRange.normal_normalize h.1.ordered
  | _ => trivial

theorem GroupNumber.pos {groups : Nat} {number : Bytes} (h : GroupNumber groups number) :
    0 < digitsValue number := by
  obtain ⟨digit, rest, rfl, hne⟩ := h.first
  have hdigit := h.digits digit List.mem_cons_self
  have hlow : '0'.toUInt8 ≤ digit := by simpa using (Bool.and_eq_true_iff.mp hdigit).1
  have hvalue : 0 < digit.digitValue := by
    have hle : 48 ≤ digit.toNat := UInt8.le_iff_toNat_le.mp hlow
    have hother : digit.toNat ≠ 48 := fun hsame => hne (UInt8.toNat_inj.mp hsame)
    change 0 < digit.toNat - 48
    omega
  rw [digitsValue_cons]
  exact Nat.lt_of_lt_of_le hvalue (le_appendDigits _ _)

namespace Derivation

variable {category : Category}

theorem rank_tree_le (d : Derivation category) (position groups : Nat) :
    (d.tree position groups).rank ≤ category.rank := by
  induction d generalizing position groups with
  | once operand ih => exact Nat.le_succ_of_le (ih position groups)
  | last operand ih => exact Nat.le_succ_of_le (ih position groups)
  | only branch ih => exact Nat.le_succ_of_le (ih position groups)
  | _ => exact Nat.le_refl _

theorem shaped_tree {d : Derivation category} {depth groups : Nat} {following : Bytes}
    (h : d.Valid depth groups following) (position : Nat) : (d.tree position groups).Shaped := by
  induction d generalizing depth groups following position with
  | leaf written => exact Leaf.shaped_atom h position
  | group captures body ih => exact ih h.2 _
  | once operand ih => exact ih h position
  | repeated operand suffix ih =>
      obtain ⟨hoperand, hanchor, hbounds⟩ := h
      have hrank := operand.rank_tree_le position groups
      have hrepeatable := (isRepeatable_tree_iff position groups).mpr hanchor
      exact ⟨Nat.lt_succ_of_le hrank, hrepeatable, Suffix.bounded hbounds, ih hoperand position⟩
  | last operand ih => exact ih h position
  | more operand rest ih ihrest =>
      have hfirst := operand.rank_tree_le position groups
      have hrest := rest.rank_tree_le (position + operand.word.length) (groups + operand.groups)
      exact ⟨Nat.lt_succ_of_le hfirst, hrest, ih h.1 position, ihrest h.2 _⟩
  | only branch ih => exact ih h position
  | choice branch rest ih ihrest =>
      have hfirst := branch.rank_tree_le position groups
      exact ⟨Nat.lt_succ_of_le hfirst, ih h.1 position, ihrest h.2 _⟩

/-- Groups may be opened inside so many others as still leave room for them. -/
theorem nesting_tree_le {d : Derivation category} {depth groups : Nat} {following : Bytes}
    (h : d.Valid depth groups following) (hdepth : depth ≤ maxNesting) (position : Nat) :
    (d.tree position groups).nesting + depth ≤ maxNesting := by
  induction d generalizing depth groups following position with
  | leaf written => simpa [tree, Tree.nesting] using hdepth
  | group captures body ih =>
      have hbody := ih h.2 h.1 (position + (opening captures).length)
      simp only [tree, Tree.nesting]
      omega
  | once operand ih => exact ih h hdepth position
  | repeated operand suffix ih => exact ih h.1 hdepth position
  | last operand ih => exact ih h hdepth position
  | more operand rest ih ihrest =>
      have hfirst := ih h.1 hdepth position
      have hrest := ihrest h.2 hdepth (position + operand.word.length)
      simp only [tree, Tree.nesting]
      omega
  | only branch ih => exact ih h hdepth position
  | choice branch rest ih ihrest =>
      have hfirst := ih h.1 hdepth position
      have hrest := ihrest h.2 hdepth (position + branch.word.length + 1)
      simp only [tree, Tree.nesting]
      omega

theorem length_groups_tree (d : Derivation category) (position groups : Nat) :
    (d.tree position groups).groups.length = d.groups := by
  induction d generalizing position groups with
  | leaf written => rfl
  | group captures body ih =>
      cases captures with
      | false => simpa [tree, Tree.groups, Derivation.groups] using ih _ _
      | true => simp [tree, Tree.groups, Derivation.groups, ih, Nat.add_comm]
  | once operand ih => exact ih position groups
  | repeated operand suffix ih => exact ih position groups
  | last operand ih => exact ih position groups
  | more operand rest ih ihrest => simp [tree, Tree.groups, Derivation.groups, ih, ihrest]
  | only branch ih => exact ih position groups
  | choice branch rest ih ihrest => simp [tree, Tree.groups, Derivation.groups, ih, ihrest]

theorem refersBack_tree {d : Derivation category} {depth groups : Nat} {following : Bytes}
    (h : d.Valid depth groups following) (position : Nat) :
    (d.tree position groups).RefersBack groups := by
  induction d generalizing depth groups following position with
  | leaf written =>
      cases written with
      | escape named => cases named <;> trivial
      | reference number => exact ⟨h.1.pos, h.1.le⟩
      | _ => trivial
  | group captures body ih =>
      have hbody := ih h.2 (position + (opening captures).length)
      cases captures with
      | false => exact hbody
      | true => exact hbody
  | once operand ih => exact ih h position
  | repeated operand suffix ih => exact ih h.1 position
  | last operand ih => exact ih h position
  | more operand rest ih ihrest =>
      have hrest := ihrest h.2 (position + operand.word.length)
      refine ⟨ih h.1 position, ?_⟩
      rwa [length_groups_tree]
  | only branch ih => exact ih h position
  | choice branch rest ih ihrest =>
      have hrest := ihrest h.2 (position + branch.word.length + 1)
      refine ⟨ih h.1 position, ?_⟩
      rwa [length_groups_tree]

/-- A derivation that is written in a pattern has its tree there. -/
theorem spans_tree (d : Derivation category) {pattern following : Bytes} {position : Nat}
    (h : pattern.drop position = d.word ++ following) (groups : Nat) :
    (d.tree position groups).Spans pattern position (position + d.word.length) := by
  -- What is left of the pattern from the place on carries the induction.
  induction d generalizing following position groups with
  | leaf written => exact ⟨rfl, Nat.lt_add_of_pos_right written.length_pos⟩
  | group captures body ih =>
      have hopening : pattern[position]? = some '('.toUInt8 := by
        rw [← List.head?_drop, h]
        cases captures <;> rfl
      have hlength : 0 < (opening captures).length := by cases captures <;> decide
      have hbody : pattern.drop (position + (opening captures).length) =
          body.word ++ (')'.toUInt8 :: following) := by
        rw [← List.drop_drop, h]
        simp [word]
      refine ⟨rfl, hopening, _, _, Nat.lt_add_of_pos_right hlength, ?_, ih hbody _⟩
      simp only [word, List.length_append]
      omega
  | once operand ih => exact ih h groups
  | repeated operand suffix ih =>
      rw [word, List.append_assoc] at h
      refine ⟨_, ?_, ih h groups⟩
      simp only [word, List.length_append]
      omega
  | last operand ih => exact ih h groups
  | more operand rest ih ihrest =>
      rw [word, List.append_assoc] at h
      have hrest : pattern.drop (position + operand.word.length) = rest.word ++ following := by
        rw [← List.drop_drop, h, List.drop_left]
      rw [word, List.length_append, ← Nat.add_assoc]
      exact ⟨_, ih h groups, ihrest hrest _⟩
  | only branch ih => exact ih h groups
  | choice branch rest ih ihrest =>
      rw [word, List.append_assoc] at h
      have hrest : pattern.drop (position + branch.word.length + 1) = rest.word ++ following := by
        rw [Nat.add_assoc, ← List.drop_drop, h, ← List.drop_drop, List.drop_left]
        rfl
      have hstop : position + (choice branch rest).word.length =
          position + branch.word.length + 1 + rest.word.length := by
        simp only [word, List.length_append, List.length_cons]
        omega
      rw [hstop]
      exact ⟨_, _, Nat.le_succ _, ih h groups, ihrest hrest _⟩

end Derivation

/-! ### Well-formed trees -/

/-- A tree that a pattern with so many capturing groups can have. -/
structure Tree.WellFormed (pattern : Bytes) (groups : Nat) (tree : Tree) : Prop where
  /-- The capturing groups, in the order in which they are listed, are numbered from one on. -/
  numbers : tree.capturing.map Prod.fst = List.range' 1 groups
  ascending : tree.capturing.Pairwise fun first second => first.2 < second.2
  parentheses : ∀ entry ∈ tree.capturing, pattern[entry.2]? = some '('.toUInt8
  /-- A backreference names one of the groups that are opened in front of it. -/
  references : ∀ position index, .atom position (.backref index) ∈ tree.nodes →
    1 ≤ index ∧ index ≤ tree.capturing.countP (·.2 < position)
  bounds : ∀ body times, .rep body times ∈ tree.nodes →
    times.min ≤ 100000 ∧ ∀ max, times.max = some max → times.min ≤ max ∧ max ≤ 100000
  /-- What is repeated is neither an anchor nor repeated already. -/
  repeatable : ∀ body times, .rep body times ∈ tree.nodes → body.isRepeatable = true
  concatenations : ∀ node ∈ tree.nodes, node.isCat = true →
    2 ≤ node.operands.length ∧ ∀ operand ∈ node.operands, operand.isCat = false
  alternations : ∀ node ∈ tree.nodes, node.isAlt = true →
    2 ≤ node.operands.length ∧ ∀ operand ∈ node.operands, operand.isAlt = false
  sets : ∀ position members, .atom position (.set members) ∈ tree.nodes →
    ByteRange.Normal members.ranges
  inside : ∀ node ∈ tree.nodes, node.position < pattern.length
  ordered : tree.nodes.Pairwise fun first second => first.position ≤ second.position
  nesting : tree.nesting ≤ 1000
  height : tree.height ≤ 4004

/-- Every pattern that can be read has a well-formed tree. -/
theorem wellFormed_of_readPattern {pattern : Bytes} {tree : Tree}
    (h : (readPattern pattern).result = .ok tree) :
    tree.WellFormed pattern (readPattern pattern).groups := by
  obtain ⟨d, hderives, rfl, -⟩ := exists_derives_of_result h
  have hshaped := Derivation.shaped_tree hderives.valid 0
  have hback := Derivation.refersBack_tree hderives.valid 0
  have hnesting : (d.tree 0 0).nesting + 0 ≤ maxNesting :=
    Derivation.nesting_tree_le hderives.valid (Nat.zero_le _) 0
  have hwritten : pattern.drop 0 = d.word ++ [] := by
    rw [List.drop_zero, List.append_nil, hderives.word]
  have hspans : (d.tree 0 0).Spans pattern 0 (0 + d.word.length) := d.spans_tree hwritten 0
  rw [Nat.zero_add, hderives.word] at hspans
  have hdepth : (d.tree 0 0).nesting ≤ 1000 := hnesting
  exact {
    numbers := by
      rw [Tree.map_fst_capturing]
      exact groups_of_readPattern h
    ascending := hspans.pairwise_capturing
    parentheses := fun entry hentry => (hspans.of_mem_capturing hentry).2.2
    references := by
      intro position index hnode
      have hindex := Tree.le_countP_capturing hspans hback hnode
      rwa [Nat.zero_add] at hindex
    bounds := by
      intro body times hnode
      obtain ⟨-, -, hbounded, -⟩ := hshaped.of_mem_nodes hnode
      exact ⟨hbounded.min_le, hbounded.max_le⟩
    repeatable := by
      intro body times hnode
      obtain ⟨-, hrepeatable, -⟩ := hshaped.of_mem_nodes hnode
      exact hrepeatable
    concatenations := by
      intro node hnode hcat
      refine ⟨Tree.two_le_length_operands (.inl hcat), ?_⟩
      intro operand hoperand
      have hrank := Tree.isCat_iff.mp hcat
      have hlt := (hshaped.of_mem_nodes hnode).rank_lt_of_mem_operands (by omega) hoperand
      rw [← Bool.not_eq_true, Tree.isCat_iff]
      omega
    alternations := by
      intro node hnode halt
      refine ⟨Tree.two_le_length_operands (.inr halt), ?_⟩
      intro operand hoperand
      have hrank := Tree.isAlt_iff.mp halt
      have hlt := (hshaped.of_mem_nodes hnode).rank_lt_of_mem_operands (by omega) hoperand
      rw [← Bool.not_eq_true, Tree.isAlt_iff]
      omega
    sets := fun position members hnode => hshaped.of_mem_nodes hnode
    inside := fun node hnode => (hspans.position_of_mem_nodes hnode).2
    ordered := hspans.pairwise_nodes
    nesting := hdepth
    height := by
      have hheight := hshaped.height_le
      have hrank := (d.tree 0 0).rank_le
      omega }

/-- In `((a)|b\2)+[z\d]` the second group is the first operand of an alternation, and what the
backreference names comes in front of it. -/
theorem wellFormed_of_readPattern_of_nested_groups :
    ∃ tree, (readPattern (ascii "((a)|b\\2)+[z\\d]")).result = .ok tree ∧
      tree.WellFormed (ascii "((a)|b\\2)+[z\\d]") 2 ∧ tree.capturing = [(1, 0), (2, 1)] ∧
      .atom 6 (.backref 2) ∈ tree.nodes ∧ tree.height = 6 := by
  have hread : (readPattern (ascii "((a)|b\\2)+[z\\d]")).result = .ok
      (.cat (.rep (.group 0 (some 1)
        (.alt (.group 1 (some 2) (.atom 2 (.byte 97)))
          (.cat (.atom 5 (.byte 98)) (.atom 6 (.backref 2))))) ⟨1, none, true⟩)
        (.atom 10 (.set ⟨[⟨48, 57⟩, ⟨122, 122⟩], false⟩))) := rfl
  exact ⟨_, hread, wellFormed_of_readPattern hread, rfl, by decide, rfl⟩

end RegexSearch
