import RegexSearch.Program.Layout

/-!
Where the parts of a program are. A tree is laid in a program at a place if its code, its sets and
its loop slots are found there; the parts of the tree are then laid at the places that its layout
gives them, and the whole tree is laid behind the first instruction of its own program.
-/

namespace RegexSearch

/-- These are the entries of a table from an index on. -/
def LaidAt {α : Type} (table : Array α) : Nat → List α → Prop
  | _, [] => True
  | index, entry :: entries => table[index]? = some entry ∧ LaidAt table (index + 1) entries

section LaidAt

variable {α : Type} {table : Array α} {index : Nat}

@[simp] theorem laidAt_nil : LaidAt table index [] := trivial

@[simp] theorem laidAt_cons {entry : α} {entries : List α} :
    LaidAt table index (entry :: entries) ↔
      table[index]? = some entry ∧ LaidAt table (index + 1) entries := Iff.rfl

@[simp] theorem laidAt_append {first rest : List α} :
    LaidAt table index (first ++ rest) ↔
      LaidAt table index first ∧ LaidAt table (index + first.length) rest := by
  induction first generalizing index with
  | nil => simp
  | cons entry first ih =>
      have hindex : index + (entry :: first).length = index + 1 + first.length := by
        rw [List.length_cons]
        omega
      rw [List.cons_append, laidAt_cons, laidAt_cons, ih, hindex, and_assoc]

theorem laidAt_toArray (before entries after : List α) :
    LaidAt (before ++ entries ++ after).toArray before.length entries := by
  induction entries generalizing before with
  | nil => trivial
  | cons entry entries ih =>
      have hrest := ih (before ++ [entry])
      simp only [List.append_assoc, List.singleton_append, List.length_append,
        List.length_singleton] at hrest ⊢
      exact ⟨by simp, hrest⟩

end LaidAt

namespace Tree

/-- The tree has its code, its sets and its loop slots in a program, each from the place on. -/
structure Laid (program : Program) (here : Place) (tree : Tree) : Prop where
  code : LaidAt program.code here.pc (tree.code here)
  sets : LaidAt program.sets here.set tree.sets
  slots : here.slot + tree.loopCount ≤ program.loops

theorem laid_ofTree (tree : Tree) (groups : Nat) :
    tree.Laid (Program.ofTree tree groups) ⟨1, 0, 0⟩ where
  code := laidAt_toArray [Instr.openGroup 0] _ [Instr.closeGroup 0, Instr.accept]
  sets := by simpa [Program.ofTree] using laidAt_toArray [] tree.sets []
  slots := by simp [Program.ofTree]

namespace Laid

variable {program : Program} {here : Place}

theorem cat_first {first rest : Tree} (h : (cat first rest).Laid program here) :
    first.Laid program here where
  code := (laidAt_append.mp h.code).1
  sets := (laidAt_append.mp h.sets).1
  slots := by
    have := h.slots
    simp only [loopCount] at this
    omega

theorem cat_rest {first rest : Tree} (h : (cat first rest).Laid program here) :
    rest.Laid program (here.after first) where
  code := by
    have hcode := (laidAt_append.mp h.code).2
    rwa [length_code] at hcode
  sets := (laidAt_append.mp h.sets).2
  slots := by
    have := h.slots
    simp only [loopCount, Place.after] at this ⊢
    omega

theorem alt_split {first rest : Tree} (h : (alt first rest).Laid program here) :
    program.code[here.pc]? =
      some (.split (here.pc + 1) (here.pc + 1 + first.codeSize + 1)) := h.code.1

theorem alt_first {first rest : Tree} (h : (alt first rest).Laid program here) :
    first.Laid program (here.skip 1) where
  code := (laidAt_append.mp h.code.2).1
  sets := (laidAt_append.mp h.sets).1
  slots := by
    have := h.slots
    simp only [loopCount, Place.skip] at this ⊢
    omega

theorem alt_jump {first rest : Tree} (h : (alt first rest).Laid program here) :
    program.code[here.pc + 1 + first.codeSize]? =
      some (.jump (here.pc + 1 + first.codeSize + 1 + rest.codeSize)) := by
  have hcode := (laidAt_append.mp h.code.2).2
  rw [length_code] at hcode
  exact hcode.1

theorem alt_rest {first rest : Tree} (h : (alt first rest).Laid program here) :
    rest.Laid program (((here.skip 1).after first).skip 1) where
  code := by
    have hcode := (laidAt_append.mp h.code.2).2
    rw [length_code] at hcode
    exact hcode.2
  sets := (laidAt_append.mp h.sets).2
  slots := by
    have := h.slots
    simp only [loopCount, Place.skip, Place.after] at this ⊢
    omega

theorem group_open {position index : Nat} {body : Tree}
    (h : (group position (some index) body).Laid program here) :
    program.code[here.pc]? = some (.openGroup index) := h.code.1

theorem group_body {position index : Nat} {body : Tree}
    (h : (group position (some index) body).Laid program here) :
    body.Laid program (here.skip 1) :=
  ⟨(laidAt_append.mp h.code.2).1, h.sets, h.slots⟩

theorem group_close {position index : Nat} {body : Tree}
    (h : (group position (some index) body).Laid program here) :
    program.code[here.pc + 1 + body.codeSize]? = some (.closeGroup index) := by
  have hcode := (laidAt_append.mp h.code.2).2
  rw [length_code] at hcode
  exact hcode.1

end Laid

end Tree

end RegexSearch
