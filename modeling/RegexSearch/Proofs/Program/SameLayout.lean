import RegexSearch.Proofs.Program.Cost

/-!
Trees that are laid out alike. What surrounds a tree depends on it by no more than the space that it
takes, the code that it has, what it costs and whether it is nullable. So trees that agree in these
may stand for each other anywhere, and have the same program. Where a tree is written in a pattern
is none of these.
-/

namespace RegexSearch

namespace Tree

/-- The trees take the same space and have the same code wherever they are laid out. -/
structure SameLayout (first second : Tree) : Prop where
  codeSize : first.codeSize = second.codeSize
  loopCount : first.loopCount = second.loopCount
  sets : first.sets = second.sets
  nullable : first.nullable = second.nullable
  fullCost : first.fullCost = second.fullCost
  code : first.code = second.code

namespace SameLayout

variable {tree tree' first first' rest rest' body body' : Tree}

theorem refl (tree : Tree) : tree.SameLayout tree := ⟨rfl, rfl, rfl, rfl, rfl, rfl⟩

theorem after (h : tree.SameLayout tree') (here : Place) : here.after tree = here.after tree' := by
  rw [Place.after, Place.after, h.codeSize, h.sets, h.loopCount]

theorem cost (h : tree.SameLayout tree') : tree.cost = tree'.cost := by
  rw [cost_eq_ofNat, cost_eq_ofNat, h.fullCost]

theorem ofTree (h : tree.SameLayout tree') (groups : Nat) :
    Program.ofTree tree groups = Program.ofTree tree' groups := by
  rw [Program.ofTree, Program.ofTree, h.code, h.sets, h.loopCount]

theorem atom (position position' : Nat) (a : Atom) :
    (Tree.atom position a).SameLayout (Tree.atom position' a) := by
  cases a <;> exact ⟨rfl, rfl, rfl, rfl, rfl, rfl⟩

theorem group (position position' : Nat) (index : Option Nat) (h : body.SameLayout body') :
    (Tree.group position index body).SameLayout (Tree.group position' index body') := by
  obtain ⟨hsize, hloops, hsets, hnullable, hcost, hcode⟩ := h
  refine ⟨?_, hloops, hsets, hnullable, ?_, ?_⟩
  · rw [Tree.codeSize, Tree.codeSize, hsize]
  · rw [Tree.fullCost, Tree.fullCost, hcost]
  · funext here
    cases index with
    | none => rw [Tree.code, Tree.code, hcode]
    | some index => rw [Tree.code, Tree.code, hcode]

theorem cat (hfirst : first.SameLayout first') (hrest : rest.SameLayout rest') :
    (Tree.cat first rest).SameLayout (Tree.cat first' rest') where
  codeSize := by rw [Tree.codeSize, Tree.codeSize, hfirst.codeSize, hrest.codeSize]
  loopCount := by rw [Tree.loopCount, Tree.loopCount, hfirst.loopCount, hrest.loopCount]
  sets := by rw [Tree.sets, Tree.sets, hfirst.sets, hrest.sets]
  nullable := by rw [Tree.nullable, Tree.nullable, hfirst.nullable, hrest.nullable]
  fullCost := by rw [Tree.fullCost, Tree.fullCost, hfirst.fullCost, hrest.fullCost]
  code := by
    funext here
    rw [Tree.code, Tree.code, hfirst.code, hrest.code, hfirst.after]

theorem alt (hfirst : first.SameLayout first') (hrest : rest.SameLayout rest') :
    (Tree.alt first rest).SameLayout (Tree.alt first' rest') where
  codeSize := by rw [Tree.codeSize, Tree.codeSize, hfirst.codeSize, hrest.codeSize]
  loopCount := by rw [Tree.loopCount, Tree.loopCount, hfirst.loopCount, hrest.loopCount]
  sets := by rw [Tree.sets, Tree.sets, hfirst.sets, hrest.sets]
  nullable := by rw [Tree.nullable, Tree.nullable, hfirst.nullable, hrest.nullable]
  fullCost := by rw [Tree.fullCost, Tree.fullCost, hfirst.fullCost, hrest.fullCost]
  code := by
    funext here
    simp only [Tree.code, hfirst.code, hrest.code, hfirst.after, hrest.codeSize]

theorem rep (times : Quantifier) (h : body.SameLayout body') :
    (Tree.rep body times).SameLayout (Tree.rep body' times) where
  codeSize := by simp only [Tree.codeSize, h.codeSize, h.nullable]
  loopCount := by rw [Tree.loopCount, Tree.loopCount, h.loopCount, h.nullable]
  sets := by rw [Tree.sets, Tree.sets, h.sets]
  nullable := by rw [Tree.nullable, Tree.nullable, h.nullable]
  fullCost := by rw [Tree.fullCost, Tree.fullCost, h.fullCost]
  code := by
    have hafter := funext h.after
    funext here
    simp only [Tree.code, h.code, h.nullable, hafter]

end SameLayout

end Tree

end RegexSearch
