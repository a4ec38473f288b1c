import RegexSearch.Proofs.Program.Extent
import RegexSearch.Proofs.Program.Placement

/-!
Stretches of code. A stretch stands in the code around it if no branch from there leads into its
middle: it is entered at its first instruction or not at all. What stands in a stretch that
stands in other code stands in that code too.
-/

namespace RegexSearch

/-- No target lies strictly between two positions. -/
def Avoids (first last : Nat) (code : List Instr) : Prop :=
  ∀ instr ∈ code, ∀ target ∈ instr.targets, target ≤ first ∨ last ≤ target

/-- In code that is laid out from `base` on, the code `inner` stands at `first`, and the code around
it does not lead into its middle. -/
def StandsIn (base : Nat) (code : List Instr) (first : Nat) (inner : List Instr) : Prop :=
  ∃ before behind, code = before ++ inner ++ behind ∧ first = base + before.length ∧
    Avoids first (first + inner.length) (before ++ behind)

section Avoids

variable {first last first' last' : Nat} {code rest : List Instr} {instr : Instr}

theorem avoids_nil : Avoids first last [] := fun _ hmem => nomatch hmem

theorem avoids_cons : Avoids first last (instr :: code) ↔
    (∀ target ∈ instr.targets, target ≤ first ∨ last ≤ target) ∧ Avoids first last code :=
  List.forall_mem_cons

theorem avoids_append :
    Avoids first last (code ++ rest) ↔ Avoids first last code ∧ Avoids first last rest :=
  List.forall_mem_append

theorem Avoids.mono (h : Avoids first last code) (hfirst : first ≤ first') (hlast : last' ≤ last) :
    Avoids first' last' code := by
  intro instr hmem target htarget
  have := h instr hmem target htarget
  omega

theorem Avoids.loopSplit {greedy : Bool} {body exit : Nat} (hbody : body ≤ first ∨ last ≤ body)
    (hexit : exit ≤ first ∨ last ≤ exit) (hrest : Avoids first last rest) :
    Avoids first last (Instr.loopSplit greedy body exit :: rest) := by
  refine avoids_cons.mpr ⟨?_, hrest⟩
  cases greedy <;> simp [Instr.loopSplit, Instr.targets, hbody, hexit]

theorem Avoids.jump {target : Nat} (htarget : target ≤ first ∨ last ≤ target)
    (hrest : Avoids first last rest) : Avoids first last (.jump target :: rest) := by
  refine avoids_cons.mpr ⟨?_, hrest⟩
  simpa [Instr.targets] using htarget

/-- Code between two places stays out of what lies before and behind them. -/
theorem Confined.avoids {start stop : Place} {groups references : List Nat}
    (h : Confined start stop groups references code)
    (hapart : stop.pc ≤ first ∨ last ≤ start.pc) : Avoids first last code := by
  intro instr hmem target htarget
  have := (h instr hmem).target htarget
  omega

theorem Tree.avoids_code (tree : Tree) {here : Place}
    (hapart : here.pc + tree.codeSize ≤ first ∨ last ≤ here.pc) :
    Avoids first last (tree.code here) :=
  (confined_code (List.Subset.refl tree.groups) (List.Subset.refl tree.references)
    (Place.Le.refl here) (Place.Le.refl _)).avoids hapart

end Avoids

namespace StandsIn

variable {base first : Nat} {code inner : List Instr}

theorem refl (base : Nat) (code : List Instr) : StandsIn base code base code :=
  ⟨[], [], by simp, by simp, avoids_nil⟩

theorem bounds (h : StandsIn base code first inner) :
    base ≤ first ∧ first + inner.length ≤ base + code.length := by
  obtain ⟨before, behind, rfl, rfl, -⟩ := h
  simp only [List.length_append]
  omega

theorem trans {middle : List Instr} {start : Nat} (h : StandsIn base code start middle)
    (h' : StandsIn start middle first inner) : StandsIn base code first inner := by
  have hbounds := h'.bounds
  obtain ⟨before, behind, rfl, rfl, haround⟩ := h
  obtain ⟨before', behind', rfl, rfl, haround'⟩ := h'
  obtain ⟨hbefore, hbehind⟩ := avoids_append.mp (haround.mono hbounds.1 hbounds.2)
  obtain ⟨hbefore', hbehind'⟩ := avoids_append.mp haround'
  refine ⟨before ++ before', behind' ++ behind, by simp, by simp [Nat.add_assoc], ?_⟩
  exact avoids_append.mpr
    ⟨avoids_append.mpr ⟨hbefore, hbefore'⟩, avoids_append.mpr ⟨hbehind', hbehind⟩⟩

/-- The code between two stretches that lead around it. -/
theorem between (before : List Instr) {behind : List Instr} (hfirst : first = base + before.length)
    (hbefore : Avoids first (first + inner.length) before)
    (hbehind : Avoids first (first + inner.length) behind) :
    StandsIn base (before ++ inner ++ behind) first inner :=
  ⟨before, behind, rfl, hfirst, avoids_append.mpr ⟨hbefore, hbehind⟩⟩

/-- What stands in a stretch still does if code is put behind it that does not lead back. -/
theorem append_right {behind : List Instr} (h : StandsIn base code first inner)
    (hbehind : Avoids base (base + code.length) behind) :
    StandsIn base (code ++ behind) first inner := by
  have hwhole : StandsIn base ([] ++ code ++ behind) base code := between [] rfl avoids_nil hbehind
  exact hwhole.trans h

theorem append_left {before : List Instr} {start : Nat} (h : StandsIn start code first inner)
    (hstart : start = base + before.length)
    (hbefore : Avoids start (start + code.length) before) :
    StandsIn base (before ++ code) first inner := by
  have hwhole : StandsIn base (before ++ code ++ []) start code :=
    between before hstart hbefore avoids_nil
  rw [List.append_nil] at hwhole
  exact hwhole.trans h

end StandsIn

/-! ### Stretches of a program -/

namespace StandsIn

variable {table : Array Instr} {first : Nat} {inner : List Instr}

theorem laid (h : StandsIn 0 table.toList first inner) : LaidAt table first inner := by
  obtain ⟨before, behind, htable, rfl, -⟩ := h
  have hlaid := laidAt_toArray before inner behind
  rwa [← htable, Array.toArray_toList, ← Nat.zero_add before.length] at hlaid

/-- Only from inside a stretch does a branch lead to its middle. -/
theorem inside (h : StandsIn 0 table.toList first inner) {pc target : Nat} {instr : Instr}
    (hinstr : table[pc]? = some instr) (htarget : target ∈ instr.targets)
    (hmiddle : first < target ∧ target < first + inner.length) :
    first ≤ pc ∧ pc < first + inner.length := by
  obtain ⟨before, behind, htable, hfirst, haround⟩ := h
  rw [Nat.zero_add] at hfirst
  rw [← Array.getElem?_toList, htable] at hinstr
  have hout (hmem : instr ∈ before ++ behind) : False := by
    have := haround instr hmem target htarget
    omega
  constructor
  · by_contra hlt
    rw [List.append_assoc, List.getElem?_append_left (by omega)] at hinstr
    exact hout (List.mem_append_left _ (List.mem_of_getElem? hinstr))
  · by_contra hge
    rw [List.getElem?_append_right (by rw [List.length_append]; omega)] at hinstr
    exact hout (List.mem_append_right _ (List.mem_of_getElem? hinstr))

end StandsIn

end RegexSearch
