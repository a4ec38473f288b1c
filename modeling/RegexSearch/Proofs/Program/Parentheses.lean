import RegexSearch.Proofs.Pattern.Completeness
import RegexSearch.Proofs.Pattern.WellFormed
import RegexSearch.Proofs.Program.SameLayout

/-!
Parentheses around a whole pattern. A derivation that ends at the end of the pattern may end at a
closing parenthesis as well: nothing in it looks across that byte. Inside the parentheses the same
derivation is written three bytes further on and one level deeper, so it has the same tree up to
places in the pattern, and these places do not go into the program. The parentheses themselves, if
they do not capture, cost nothing and emit nothing.
-/

namespace RegexSearch

/-! ### What may follow -/

namespace Item

theorem wordsBefore_eq (following : Bytes) (items : List Item) :
    wordsBefore following items = items.flatMap word ++ following := by
  induction items with
  | nil => rfl
  | cons item items ih => rw [wordsBefore, ih, List.flatMap_cons, List.append_assoc]

/-- What makes items valid does not reach behind the closing bracket. -/
theorem AllValid.replace {items : List Item} {following following' : Bytes}
    (h : AllValid (']'.toUInt8 :: following) items) :
    AllValid (']'.toUInt8 :: following') items := by
  induction items with
  | nil => trivial
  | cons item items ih =>
      obtain ⟨hitem, hitems⟩ := h
      refine ⟨?_, ih hitems⟩
      cases item with
      | range low high => exact hitem
      | single m =>
          obtain ⟨hm, halone⟩ := hitem
          refine ⟨hm, fun next rest hrest => ?_⟩
          rw [wordsBefore_eq] at halone hrest
          match hwords : items.flatMap word with
          | [] =>
              rw [hwords] at hrest
              cases (List.cons.inj hrest).1
          | [b] =>
              rw [hwords] at hrest
              exact (List.cons.inj (List.cons.inj hrest).2).1.symm
          | b :: c :: more =>
              rw [hwords] at halone hrest
              obtain ⟨rfl, hnext⟩ := List.cons.inj hrest
              obtain ⟨rfl, -⟩ := List.cons.inj hnext
              exact halone c _ rfl

end Item

/-- A leaf stays valid if the pattern goes on with a byte that is no digit. -/
theorem Leaf.Valid.followed {written : Leaf} {groups : Nat} {following rest : Bytes} {b : Byte}
    (h : written.Valid groups following) (hb : b.isDigit = false) :
    written.Valid groups (following ++ b :: rest) := by
  cases written with
  | reference number =>
      obtain ⟨hnumber, hlongest⟩ := h
      refine ⟨hnumber, (stopsNumber_iff hnumber).mp ?_⟩
      have hstops := (stopsNumber_iff hnumber).mpr hlongest
      intro digit more hmore hdigit
      cases following with
      | nil =>
          obtain ⟨rfl, -⟩ := List.cons.inj hmore
          rw [hb] at hdigit
          cases hdigit
      | cons first others =>
          obtain ⟨rfl, -⟩ := List.cons.inj hmore
          exact hstops first others rfl hdigit
  | brackets negated items => exact ⟨h.1.replace, h.2⟩
  | _ => exact h

namespace Derivation

variable {category : Category}

/-- A derivation stays valid if the pattern goes on with a byte that is no digit. -/
theorem Valid.followed {d : Derivation category} {depth groups : Nat} {following rest : Bytes}
    {b : Byte} (h : d.Valid depth groups following) (hb : b.isDigit = false) :
    d.Valid depth groups (following ++ b :: rest) := by
  induction d generalizing depth groups following with
  | leaf written => exact Leaf.Valid.followed h hb
  | group captures body ih => exact ⟨h.1, ih h.2⟩
  | once operand ih => exact ih h
  | repeated operand suffix ih =>
      obtain ⟨hoperand, hanchor, hbounds⟩ := h
      refine ⟨?_, hanchor, hbounds⟩
      rw [← List.append_assoc]
      exact ih hoperand
  | last operand ih => exact ih h
  | more operand rest ih ihrest =>
      refine ⟨?_, ihrest h.2⟩
      rw [← List.append_assoc]
      exact ih h.1
  | only branch ih => exact ih h
  | choice branch rest ih ihrest =>
      refine ⟨?_, ihrest h.2⟩
      rw [← List.append_assoc, ← List.cons_append]
      exact ih h.1

/-- A derivation stays valid at any depth at which its groups have room. -/
theorem Valid.deeper {d : Derivation category} {depth depth' groups position : Nat}
    {following : Bytes} (h : d.Valid depth groups following)
    (hroom : (d.tree position groups).nesting + depth' ≤ maxNesting) :
    d.Valid depth' groups following := by
  induction d generalizing depth depth' groups position following with
  | leaf written => exact h
  | group captures body ih =>
      rw [tree, Tree.nesting] at hroom
      exact ⟨by omega, ih h.2 (by rw [Nat.add_right_comm] at hroom; exact hroom)⟩
  | once operand ih => exact ih h hroom
  | repeated operand suffix ih => exact ⟨ih h.1 hroom, h.2⟩
  | last operand ih => exact ih h hroom
  | more operand rest ih ihrest =>
      rw [tree, Tree.nesting, ← Nat.add_max_add_right, Nat.max_le] at hroom
      exact ⟨ih h.1 hroom.1, ihrest h.2 hroom.2⟩
  | only branch ih => exact ih h hroom
  | choice branch rest ih ihrest =>
      rw [tree, Tree.nesting, ← Nat.add_max_add_right, Nat.max_le] at hroom
      exact ⟨ih h.1 hroom.1, ihrest h.2 hroom.2⟩

end Derivation

/-! ### Trees elsewhere in a pattern -/

namespace Tree

/-- The tree that is written so many bytes further on. -/
def moved (offset : Nat) : Tree → Tree
  | atom position a => atom (position + offset) a
  | group position index body => group (position + offset) index (body.moved offset)
  | cat first rest => cat (first.moved offset) (rest.moved offset)
  | alt first rest => alt (first.moved offset) (rest.moved offset)
  | rep body times => rep (body.moved offset) times

variable (offset : Nat)

theorem position_moved (tree : Tree) : (tree.moved offset).position = tree.position + offset := by
  induction tree with
  | atom position a => rfl
  | group position index body => rfl
  | cat first rest ihf _ => exact ihf
  | alt first rest ihf _ => exact ihf
  | rep body times ih => exact ih

/-- Where a tree is written in the pattern does not show in how it is laid out. -/
theorem sameLayout_moved (tree : Tree) : (tree.moved offset).SameLayout tree := by
  induction tree with
  | atom position a => exact SameLayout.atom _ _ a
  | group position index body ih => exact SameLayout.group _ _ index ih
  | cat first rest ihf ihr => exact SameLayout.cat ihf ihr
  | alt first rest ihf ihr => exact SameLayout.alt ihf ihr
  | rep body times ih => exact SameLayout.rep times ih

theorem firstExpensive?_moved (limit : Nat) (tree : Tree) :
    (tree.moved offset).firstExpensive? limit = (tree.firstExpensive? limit).map (· + offset) := by
  induction tree with
  | atom position a => rfl
  | group position index body ih => exact ih
  | cat first rest ihf ihr => rw [moved, firstExpensive?, firstExpensive?, ihf, ihr, Option.map_or]
  | alt first rest ihf ihr => rw [moved, firstExpensive?, firstExpensive?, ihf, ihr, Option.map_or]
  | rep body times ih =>
      rw [moved, firstExpensive?, firstExpensive?, isExpensive, isExpensive,
        (body.sameLayout_moved offset).cost, position_moved, ih]
      split
      · rfl
      · split <;> rfl

end Tree

theorem Derivation.tree_moved {category : Category} (d : Derivation category)
    (position groups offset : Nat) :
    d.tree (position + offset) groups = (d.tree position groups).moved offset := by
  induction d generalizing position groups with
  | leaf written => rfl
  | group captures body ih => rw [tree, Nat.add_right_comm, ih, tree, Tree.moved]
  | once operand ih => exact ih position groups
  | repeated operand suffix ih => rw [tree, ih, tree, Tree.moved]
  | last operand ih => exact ih position groups
  | more operand rest ih ihrest => rw [tree, ih, Nat.add_right_comm, ihrest, tree, Tree.moved]
  | only branch ih => exact ih position groups
  | choice branch rest ih ihrest =>
      rw [tree, ih, Nat.add_right_comm position, Nat.add_right_comm, ihrest, tree, Tree.moved]

/-! ### Whole patterns -/

/-- A pattern in parentheses that do not capture. -/
def parenthesized (pattern : Bytes) : Bytes :=
  Derivation.opening false ++ pattern ++ [')'.toUInt8]

/-- A pattern whose groups have room for another one around them can be put into parentheses. -/
theorem readPattern_parenthesized {pattern : Bytes} {tree : Tree}
    (h : (readPattern pattern).result = .ok tree) (hnesting : tree.nesting < maxNesting) :
    readPattern (parenthesized pattern) =
      ⟨(readPattern pattern).groups, .ok (.group 0 none (tree.moved 3))⟩ := by
  obtain ⟨d, hderives, rfl, hgroups⟩ := exists_derives_of_result h
  let whole : Derivation .alternation := .only (.last (.once (.group false d)))
  have hbody : d.Valid 1 0 (')'.toUInt8 :: []) :=
    Derivation.Valid.deeper (Derivation.Valid.followed hderives.valid rfl) hnesting
  have hwhole : whole.Derives (parenthesized pattern) := by
    refine ⟨?_, Nat.succ_pos _, hbody⟩
    change Derivation.opening false ++ d.word ++ [')'.toUInt8] = _
    rw [hderives.word, parenthesized]
  have htree : whole.tree 0 0 = .group 0 none ((d.tree 0 0).moved 3) := by
    rw [← d.tree_moved]
    rfl
  rw [hwhole.readPattern_eq, htree, ← hgroups]
  have hcount : whole.groups = d.groups := Nat.zero_add _
  rw [hcount]

/-- Parentheses that do not capture make no difference to a whole pattern: it compiles to the same
program with them, under the same limit, if its groups are not nested too deeply for another one
around them. -/
theorem compilePattern_parenthesized {maxUnroll : Nat} {pattern : Bytes} {tree : Tree}
    {program : Program} (h : compilePattern maxUnroll pattern = ⟨some tree, .ok program⟩)
    (hnesting : tree.nesting ≤ 999) :
    compilePattern maxUnroll (parenthesized pattern) =
      ⟨some (.group 0 none (tree.moved 3)), .ok program⟩ := by
  obtain ⟨htree, hexpensive, rfl⟩ := compilePattern_eq_ok_iff.mp h
  have hread := readPattern_parenthesized htree (Nat.lt_succ_of_le hnesting)
  refine compilePattern_eq_ok_iff.mpr ⟨by rw [hread], ?_, ?_⟩
  · change (tree.moved 3).firstExpensive? maxUnroll = none
    rw [Tree.firstExpensive?_moved, hexpensive]
    rfl
  · rw [hread]
    exact ((tree.sameLayout_moved 3).ofTree _).symm

/-- Behind `(a)[c-]{2}|\1` a digit would belong to the backreference, but the parenthesis ends
it. -/
theorem compilePattern_parenthesized_of_reference :
    let pattern := ascii "(a)[c-]" ++ (Bounds.exactly (ascii "2")).word ++ ascii "|\\1"
    ∃ tree program, compilePattern 8 pattern = ⟨some tree, .ok program⟩ ∧ tree.nesting ≤ 999 ∧
      compilePattern 8 (ascii "(?:" ++ pattern ++ ascii ")") =
        ⟨some (.group 0 none (tree.moved 3)), .ok program⟩ ∧
      program.size = 11 ∧ program.groups = 1 := by
  intro pattern
  have hcompiled : compilePattern 8 pattern = ⟨some _, .ok _⟩ := rfl
  exact ⟨_, _, hcompiled, by decide, compilePattern_parenthesized hcompiled (by decide), rfl, rfl⟩

end RegexSearch
