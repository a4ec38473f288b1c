import RegexSearch.Proofs.Emission.Basic
import RegexSearch.Proofs.Pattern.Derivation
import RegexSearch.Proofs.Program.Extent

/-!
What is written instruction by instruction is what is laid out at once. Writing a construct puts the
code of its tree behind what has been written before, with the sets and loop slots of the tree, and
leaves nothing open. What has been written before stays, up to the ways out that are patched at the
end.
-/

namespace RegexSearch

namespace Sketch

@[simp] theorem instr_ofInstr (instr : Instr) : (ofInstr instr).instr = instr := by
  cases instr <;> rfl

/-- Patching the way out of a split gives the split with this way out. -/
@[simp] theorem patch_openSplit (greedy : Bool) (body exit : Nat) :
    (openSplit greedy body).patch exit = ofInstr (.loopSplit greedy body exit) := by
  cases greedy <;> rfl

@[simp] theorem patch_jump (target : Nat) : (jump none).patch target = ofInstr (.jump target) :=
  rfl

end Sketch

namespace Draft

variable {draft : Draft} {code : List Sketch} {sets : List ByteSet} {loops pc target : Nat}

/-- The place behind what has been written. -/
def place (draft : Draft) : Place :=
  ⟨draft.code.size, draft.sets.size, draft.loops⟩

theorem place_empty : empty.place = ⟨0, 0, 0⟩ := rfl

/-- More has been written. -/
def extend (draft : Draft) (code : List Sketch) (sets : List ByteSet) (loops : Nat) : Draft :=
  { draft with
    code := draft.code ++ code.toArray
    sets := draft.sets ++ sets.toArray
    loops := draft.loops + loops }

@[simp] theorem place_extend (draft : Draft) (code : List Sketch) (sets : List ByteSet)
    (loops : Nat) :
    (draft.extend code sets loops).place =
      ⟨draft.place.pc + code.length, draft.place.set + sets.length, draft.place.slot + loops⟩ := by
  simp [place, extend]

@[simp] theorem extend_extend (draft : Draft) (code code' : List Sketch) (sets sets' : List ByteSet)
    (loops loops' : Nat) :
    (draft.extend code sets loops).extend code' sets' loops' =
      draft.extend (code ++ code') (sets ++ sets') (loops + loops') := by
  simp [extend, Nat.add_assoc]

@[simp] theorem extend_nil (draft : Draft) : draft.extend [] [] 0 = draft := by
  simp [extend]

/-- What is patched stays in its place. -/
theorem patch_extend (hpc : pc < draft.place.pc) :
    (draft.extend code sets loops).patch pc target =
      (draft.patch pc target).extend code sets loops := by
  have hsize : pc < draft.code.size := hpc
  have hcode : (draft.code ++ code.toArray).modify pc (Sketch.patch target) =
      draft.code.modify pc (Sketch.patch target) ++ code.toArray := by
    apply Array.ext
    · simp
    · intro i _ _
      simp only [Array.getElem_modify, Array.getElem_append, Array.size_modify]
      split <;> split <;> simp_all
  rw [patch, extend, hcode]
  rfl

/-- The first instruction behind what had been written before is patched. -/
theorem patch_extend_cons (sketch : Sketch) :
    (draft.extend (sketch :: code) sets loops).patch draft.place.pc target =
      draft.extend (sketch.patch target :: code) sets loops := by
  have hcode : (draft.code ++ (sketch :: code).toArray).modify draft.code.size
      (Sketch.patch target) = draft.code ++ (sketch.patch target :: code).toArray := by
    apply Array.ext
    · simp
    · intro i _ _
      simp only [Array.getElem_modify, Array.getElem_append]
      split
      · rename_i heq
        subst heq
        simp
      · rename_i hne
        split
        · rfl
        · obtain ⟨j, rfl⟩ : ∃ j, i = draft.code.size + (j + 1) :=
            ⟨i - draft.code.size - 1, by omega⟩
          simp
  rw [patch, extend]
  exact congrArg (fun code : Array Sketch => Draft.mk code _ _ _) hcode

/-- These instructions are patched, one after the other. -/
def patchAll (target : Nat) (draft : Draft) (pcs : List Nat) : Draft :=
  pcs.foldl (fun draft pc => draft.patch pc target) draft

@[simp] theorem place_patch (draft : Draft) (pc target : Nat) :
    (draft.patch pc target).place = draft.place := by
  simp [place, patch]

@[simp] theorem place_patchAll (target : Nat) (draft : Draft) (pcs : List Nat) :
    (draft.patchAll target pcs).place = draft.place := by
  induction pcs generalizing draft with
  | nil => rfl
  | cons pc pcs ih =>
      rw [patchAll, List.foldl_cons]
      exact (ih _).trans (place_patch draft pc target)

theorem patchAll_extend {pcs : List Nat} (hpcs : ∀ pc ∈ pcs, pc < draft.place.pc) :
    (draft.extend code sets loops).patchAll target pcs =
      (draft.patchAll target pcs).extend code sets loops := by
  induction pcs generalizing draft with
  | nil => rfl
  | cons pc pcs ih =>
      obtain ⟨hpc, hrest⟩ := List.forall_mem_cons.mp hpcs
      have hpatched : ∀ other ∈ pcs, other < (draft.patch pc target).place.pc := by
        rwa [place_patch]
      rw [patchAll, List.foldl_cons, patch_extend hpc]
      exact ih hpatched

/-- The ways out are patched, the last of which is the first instruction behind what had been
written before. -/
theorem patchAll_extend_cons {exits : List Nat} (hexits : ∀ exit ∈ exits, exit < draft.place.pc)
    (sketch : Sketch) :
    (draft.extend (sketch :: code) sets loops).patchAll target (exits ++ [draft.place.pc]) =
      (draft.extend (sketch.patch target :: code) sets loops).patchAll target exits := by
  rw [patchAll, List.foldl_append]
  change ((draft.extend (sketch :: code) sets loops).patchAll target exits).patch
    draft.place.pc target = _
  rw [patchAll_extend hexits, patchAll_extend hexits, ← place_patchAll target draft exits,
    patch_extend_cons]

/-- The code of a tree has been written. -/
def append (draft : Draft) (tree : Tree) : Draft :=
  draft.extend ((tree.code draft.place).map .ofInstr) tree.sets tree.loopCount

@[simp] theorem place_append (draft : Draft) (tree : Tree) :
    (draft.append tree).place = draft.place.after tree := by
  simp [append, Place.after, tree.length_code]

/-- The first of two alternatives has been written, up to the jump that it ends with. -/
def branch (draft : Draft) (first : Tree) : Draft :=
  let here := draft.place.skip 1
  draft.extend (.ofInstr (.split here.pc ((here.after first).skip 1).pc) ::
    (first.code here).map .ofInstr) first.sets first.loopCount

@[simp] theorem place_branch (draft : Draft) (first : Tree) :
    (draft.branch first).place = (draft.place.skip 1).after first := by
  simp [branch, Place.after, Place.skip, first.length_code, Nat.add_assoc, Nat.add_comm 1]

/-- The second of two alternatives is written behind the jump of the first. -/
theorem append_alt (draft : Draft) (first rest : Tree) :
    let right := ((draft.place.skip 1).after first).skip 1
    draft.append (.alt first rest) = (draft.branch first).extend
      (.ofInstr (.jump (right.after rest).pc) :: (rest.code right).map .ofInstr) rest.sets
      rest.loopCount := by
  simp [append, branch, Tree.code, Tree.sets, Tree.loopCount, Place.after]

theorem append_rep (draft : Draft) (body : Tree) (times : Quantifier) :
    draft.append (.rep body times) = draft.extend
      ((repetition (body.code ·) (·.after body) times body.nullable draft.place).map .ofInstr)
      (List.replicate times.copies body.sets).flatten
      (times.copies * body.loopCount + if times.max.isNone && body.nullable then 1 else 0) :=
  rfl

/-- So many rounds of a body have been written, one after the other. -/
def appendRounds (draft : Draft) (body : Tree) (count : Nat) : Draft :=
  draft.extend ((requiredRounds (body.code ·) (·.after body) count draft.place).map .ofInstr)
    (List.replicate count body.sets).flatten (count * body.loopCount)

@[simp] theorem place_appendRounds (draft : Draft) (body : Tree) (count : Nat) :
    (draft.appendRounds body count).place = behindRounds (·.after body) count draft.place := by
  rw [Place.behindRounds_after]
  simp [appendRounds, length_requiredRounds body.length_code]

end Draft

/-! ### What writing comes to -/

/-- The part gives a value and has written a draft; or, if there is a repetition that is too
expensive, it fails for this reason. -/
def Writes {α : Type} (part : Emission α) (draft : Draft) (expensive : Option Nat) (value : α)
    (after : Draft) : Prop :=
  match expensive with
  | none => part.run draft = (some value, after)
  | some position =>
    ∃ stopped, part.run draft = (none, stopped) ∧
      stopped.failure = some ⟨.expensiveUnroll, position⟩

namespace Writes

variable {α β : Type} {part : Emission α} {further : α → Emission β} {draft after final : Draft}
  {expensive expensive' : Option Nat} {value : α} {result : β}

theorem run_bind (part : Emission α) (further : α → Emission β) (draft : Draft) :
    (part >>= further).run draft =
      ((part.run draft).1.elim (Pure.pure none : StateM Draft (Option β))
        fun value => (further value).run) (part.run draft).2 := by
  change StateT.run (OptionT.run (part >>= further)) draft = _
  rw [OptionT.run_bind, Option.elimM, StateT.run_bind]
  rfl

/-- One part after the other fails where the first of them fails. -/
theorem bind (h : Writes part draft expensive value after)
    (h' : Writes (further value) after expensive' result final) :
    Writes (part >>= further) draft (expensive.or expensive') result final := by
  cases expensive with
  | none =>
      have hboth : (part >>= further).run draft = (further value).run after := by
        have hrun : part.run draft = (some value, after) := h
        rw [run_bind, hrun]
        rfl
      cases expensive' with
      | none => exact hboth.trans h'
      | some position =>
          obtain ⟨stopped, hstopped, hfailure⟩ := h'
          exact ⟨stopped, hboth.trans hstopped, hfailure⟩
  | some position =>
      obtain ⟨stopped, hrun, hfailure⟩ := h
      refine ⟨stopped, ?_, hfailure⟩
      rw [run_bind, hrun]
      rfl

theorem pure (value : α) (draft : Draft) : Writes (Pure.pure value) draft none value draft := rfl

theorem here (draft : Draft) : Writes Emission.here draft none draft.place.pc draft := rfl

theorem emit (sketch : Sketch) (draft : Draft) :
    Writes (Emission.emit sketch) draft none draft.place.pc (draft.extend [sketch] [] 0) := by
  have hrun : (Emission.emit sketch).run draft =
      (some draft.code.size, { draft with code := draft.code.push sketch }) := rfl
  have hafter : draft.extend [sketch] [] 0 = { draft with code := draft.code.push sketch } := by
    simp [Draft.extend]
  rw [hafter]
  exact hrun

theorem write (instr : Instr) (draft : Draft) :
    Writes (Emission.write instr) draft none () (draft.extend [.ofInstr instr] [] 0) :=
  (emit (.ofInstr instr) draft).bind (pure () _)

theorem patch (pc target : Nat) (draft : Draft) :
    Writes (Emission.patch pc target) draft none () (draft.patch pc target) := rfl

theorem patchAll (target : Nat) (pcs : List Nat) (draft : Draft) :
    Writes (Emission.patchAll target pcs) draft none () (draft.patchAll target pcs) := by
  induction pcs generalizing draft with
  | nil => exact pure () draft
  | cons pc pcs ih => exact (patch pc target draft).bind (ih _)

theorem enter (members : ByteSet) (draft : Draft) :
    Writes (Emission.enter members) draft none draft.place.set (draft.extend [] [members] 0) := by
  have hrun : (Emission.enter members).run draft =
      (some draft.sets.size, { draft with sets := draft.sets.push members }) := rfl
  have hafter : draft.extend [] [members] 0 = { draft with sets := draft.sets.push members } := by
    simp [Draft.extend]
  rw [hafter]
  exact hrun

theorem takeSlot (draft : Draft) :
    Writes Emission.takeSlot draft none draft.place.slot (draft.extend [] [] 1) := by
  have hrun : Emission.takeSlot.run draft =
      (some draft.loops, { draft with loops := draft.loops + 1 }) := rfl
  have hafter : draft.extend [] [] 1 = { draft with loops := draft.loops + 1 } := by
    simp [Draft.extend]
  rw [hafter]
  exact hrun

theorem loopSplit (greedy : Bool) (draft : Draft) :
    Writes (Emission.loopSplit greedy) draft none draft.place.pc
      (draft.extend [.openSplit greedy (draft.place.pc + 1)] [] 0) :=
  (here draft).bind (emit _ draft)

theorem refuse (position : Nat) (draft : Draft) :
    Writes (Emission.refuse position) draft (some position) () draft :=
  ⟨_, rfl, rfl⟩

theorem map (h : Writes part draft expensive value after) (f : α → β) :
    Writes (f <$> part) draft expensive (f value) after := by
  have hmapped : Writes (f <$> part) draft (expensive.or none) (f value) after :=
    h.bind (pure (f value) after)
  rwa [Option.or_none] at hmapped

theorem congr (h : Writes part draft expensive value after) (hexpensive : expensive = expensive')
    (hafter : after = final) : Writes part draft expensive' value final := by
  rw [← hexpensive, ← hafter]
  exact h

theorem atom (position : Nat) (a : Atom) (draft : Draft) :
    Writes (Emission.atom a) draft none () (draft.append (.atom position a)) := by
  cases a with
  | set members =>
      refine congr ((enter members draft).bind (write _ _)) rfl ?_
      rw [Draft.extend_extend]
      rfl
  | _ => exact write _ draft

/-! ### Repetitions -/

/-- One more way out, behind the others. -/
theorem lt_of_mem_concat {exits : List Nat} {last bound : Nat}
    (hexits : ∀ exit ∈ exits, exit < last) (hlast : last < bound) :
    ∀ exit ∈ exits ++ [last], exit < bound := by
  intro exit hmem
  rcases List.mem_append.mp hmem with hmem | hmem
  · exact Nat.lt_trans (hexits exit hmem) hlast
  · rwa [List.mem_singleton.mp hmem]

section Repetition

variable {body : Tree} {part : Emission Unit}
  (hpart : ∀ draft, Writes part draft expensive () (draft.append body))

include hpart

theorem repeated (count : Nat) (draft : Draft) :
    Writes (Emission.repeated part count) draft (if count = 0 then none else expensive) ()
      (draft.appendRounds body count) := by
  induction count generalizing draft with
  | zero => exact congr (pure () draft) rfl (by simp [Draft.appendRounds, requiredRounds])
  | succ count ih =>
      refine congr ((hpart draft).bind (ih _)) ?_ ?_
      · split <;> simp
      · rw [Draft.appendRounds, Draft.place_append, Draft.append, Draft.extend_extend]
        simp [Draft.appendRounds, requiredRounds, List.replicate_succ, Nat.succ_mul, Nat.add_comm]

theorem optional (greedy : Bool) (count : Nat) {exits : List Nat} {draft : Draft}
    (hexits : ∀ exit ∈ exits, exit < draft.place.pc) :
    let stop := draft.place.pc + count * (body.codeSize + 1)
    Writes (Emission.optional part greedy count exits) draft (if count = 0 then none else expensive)
      () ((draft.extend
          ((optionalRounds (body.code ·) (·.after body) greedy stop count draft.place).map .ofInstr)
          (List.replicate count body.sets).flatten (count * body.loopCount)).patchAll stop
        exits) := by
  induction count generalizing draft exits with
  | zero =>
      refine congr ((here draft).bind (patchAll _ exits draft)) rfl ?_
      simp [optionalRounds]
  | succ count ih =>
      intro stop
      let opened := draft.extend [.openSplit greedy (draft.place.pc + 1)] [] 0
      have hplace : (opened.append body).place = (draft.place.skip 1).after body := by
        simp [opened, Place.skip]
      have hstop : (opened.append body).place.pc + count * (body.codeSize + 1) = stop := by
        rw [hplace]
        simp only [stop, Place.after, Place.skip, Nat.succ_mul]
        omega
      have hlt : draft.place.pc < (opened.append body).place.pc := by
        rw [hplace]
        simp only [Place.after, Place.skip]
        omega
      -- The split of this round is patched together with those in front of it.
      have hrest := ih (lt_of_mem_concat hexits hlt)
      rw [hstop, hplace] at hrest
      refine congr ((loopSplit greedy draft).bind ((hpart opened).bind hrest)) ?_ ?_
      · split <;> simp
      · rw [Draft.append, Draft.extend_extend, Draft.extend_extend]
        rw [List.singleton_append, Draft.patchAll_extend_cons hexits, Sketch.patch_openSplit]
        simp [optionalRounds, List.replicate_succ, Nat.succ_mul, Nat.add_comm, opened, Place.skip]

/-- A loop without a mark that is tested in front of its body. -/
theorem star (greedy : Bool) (draft : Draft) :
    Writes (Emission.star part greedy none) draft expensive ()
      (draft.extend ((starLoop (body.code ·) (·.after body) greedy false draft.place).map .ofInstr)
        body.sets body.loopCount) := by
  let opened := draft.extend [.openSplit greedy (draft.place.pc + 1)] [] 0
  refine congr ((loopSplit greedy draft).bind ((hpart opened).bind
    ((write (.jump draft.place.pc) _).bind ((here _).bind (patch draft.place.pc _ _)))))
    (by simp) ?_
  rw [Draft.place_extend, Draft.place_append, Draft.append, Draft.extend_extend,
    Draft.extend_extend, List.singleton_append, Draft.patch_extend_cons, Sketch.patch_openSplit]
  simp [starLoop, opened, Place.after, Place.skip]

/-- A loop with a mark that is tested in front of its body. -/
theorem starGuarded (greedy : Bool) (draft : Draft) :
    Writes (Emission.star part greedy (some draft.place.slot)) (draft.extend [] [] 1) expensive ()
      (draft.extend ((starLoop (body.code ·) (·.after body) greedy true draft.place).map .ofInstr)
        body.sets (1 + body.loopCount)) := by
  let taken := draft.extend [] [] 1
  let marked := (taken.extend [.openSplit greedy (taken.place.pc + 1)] [] 0).extend
    [.ofInstr (.mark draft.place.slot)] [] 0
  refine congr ((loopSplit greedy taken).bind ((write (.mark _) _).bind ((hpart marked).bind
    ((write (.check _) _).bind ((write (.jump taken.place.pc) _).bind
      ((here _).bind (patch taken.place.pc _ _))))))) (by simp) ?_
  have hpc : taken.place.pc = draft.place.pc := by simp [taken]
  rw [hpc, Draft.append]
  simp only [taken, marked, Draft.extend_extend, List.nil_append, List.cons_append,
    Draft.patch_extend_cons, Sketch.patch_openSplit]
  simp [starLoop, Place.after, body.length_code, Nat.add_assoc, Nat.add_left_comm 2]

/-- A loop without a mark that is tested behind its body. -/
theorem plus (greedy : Bool) (slot : Nat) (draft : Draft) :
    Writes (Emission.plus part greedy none) draft expensive ()
      (draft.extend
        ((plusLoop (body.code ·) (·.after body) greedy false slot draft.place).map .ofInstr)
        body.sets body.loopCount) := by
  refine congr ((here draft).bind ((hpart draft).bind ((here _).bind (write _ _)))) (by simp) ?_
  rw [Draft.append, Draft.extend_extend]
  simp [plusLoop, Place.after, body.length_code]

/-- A loop with a mark that is tested behind its body. -/
theorem plusGuarded (greedy : Bool) (slot : Nat) (draft : Draft) :
    Writes (Emission.plus part greedy (some slot)) draft expensive ()
      (draft.extend
        ((plusLoop (body.code ·) (·.after body) greedy true slot draft.place).map .ofInstr)
        body.sets body.loopCount) := by
  let marked := draft.extend [.ofInstr (.mark slot)] [] 0
  refine congr ((here draft).bind ((write (.mark slot) draft).bind ((hpart marked).bind
    ((here _).bind ((write _ _).bind ((write (.check slot) _).bind
      (write (.jump draft.place.pc) _))))))) (by simp) ?_
  simp only [marked, Draft.append, Draft.extend_extend]
  simp [plusLoop, Place.after, Place.skip, body.length_code, Nat.add_assoc, Nat.add_left_comm 1]

/-- A repetition without bound. -/
theorem unbounded (times : Quantifier) (hmax : times.max = none) (draft : Draft) :
    Writes (Emission.unbounded part times body.nullable) draft expensive ()
      (draft.append (.rep body times)) := by
  obtain ⟨min, max, greedy⟩ := times
  obtain rfl : max = none := hmax
  have hrounds (before : Nat) :
      (if before = 0 then none else expensive).or expensive = expensive := by
    split <;> simp
  cases hguarded : body.nullable with
  | false =>
      cases min with
      | zero =>
          refine congr ((pure none draft).bind (star hpart greedy draft)) (by simp) ?_
          simp [Draft.append_rep, repetition, Quantifier.copies, hguarded]
      | succ before =>
          refine congr ((pure none draft).bind ((repeated hpart before draft).bind
            (plus hpart greedy draft.place.slot _))) (by simp [hrounds]) ?_
          rw [Draft.place_appendRounds, Draft.appendRounds, Draft.extend_extend]
          simp [Draft.append_rep, repetition, Quantifier.copies, hguarded, List.replicate_succ',
            Nat.succ_mul]
  | true =>
      have htaken := (takeSlot draft).map some
      cases min with
      | zero =>
          refine congr (htaken.bind (starGuarded hpart greedy draft)) (by simp) ?_
          simp [Draft.append_rep, repetition, Quantifier.copies, hguarded, Nat.add_comm]
      | succ before =>
          refine congr (htaken.bind ((repeated hpart before _).bind
            (plusGuarded hpart greedy draft.place.slot _))) (by simp [hrounds]) ?_
          rw [Draft.place_appendRounds, Draft.appendRounds, Draft.extend_extend,
            Draft.extend_extend]
          simp [Draft.append_rep, repetition, Quantifier.copies, hguarded, List.replicate_succ',
            Nat.succ_mul, Nat.add_comm 1]

/-- A repetition that is written out. -/
theorem bounded (times : Quantifier) {max : Nat} (hmax : times.max = some max) (draft : Draft) :
    Writes (Emission.bounded part times max) draft (if times.copies = 0 then none else expensive) ()
      (draft.append (.rep body times)) := by
  obtain ⟨min, bound, greedy⟩ := times
  obtain rfl : bound = some max := hmax
  have hno : ∀ exit ∈ ([] : List Nat), exit < (draft.appendRounds body min).place.pc := by simp
  have hsize : ((draft.appendRounds body min).place.skip 1 |>.after body).pc -
      (draft.appendRounds body min).place.pc = body.codeSize + 1 := by
    simp only [Place.skip, Place.after]
    omega
  refine congr ((repeated hpart min draft).bind (optional hpart greedy (max - min) hno)) ?_ ?_
  · change _ = if min + (max - min) = 0 then none else expensive
    cases min <;> cases expensive <;> simp
  · have hsets : (List.replicate min body.sets).flatten ++
        (List.replicate (max - min) body.sets).flatten =
          (List.replicate (min + (max - min)) body.sets).flatten := by
      rw [← List.flatten_append, List.replicate_append_replicate]
    rw [← hsize, Draft.place_appendRounds, Draft.appendRounds, Draft.extend_extend, hsets]
    simp [Draft.append_rep, Draft.patchAll, repetition, Quantifier.copies, Nat.add_mul]

end Repetition

/-! ### Alternatives -/

/-- An alternative, whose way out is left open. -/
theorem alternative {first : Tree} {part : Emission Unit}
    (hpart : ∀ draft, Writes part draft expensive () (draft.append first)) (draft : Draft) :
    Writes (Emission.alternative part) draft expensive (draft.branch first).place.pc
      ((draft.branch first).extend [.jump none] [] 0) := by
  let opened := draft.extend [.openSplit true (draft.place.pc + 1)] [] 0
  have hopened : opened.place = draft.place.skip 1 := by simp [opened, Place.skip]
  have hexit : (opened.append first).place.pc = (draft.branch first).place.pc := by
    rw [Draft.place_append, hopened, Draft.place_branch]
  rw [← hexit]
  refine congr ((loopSplit true draft).bind ((hpart opened).bind ((emit (.jump none) _).bind
    ((here _).bind ((patch draft.place.pc _ _).bind (pure _ _)))))) (by simp) ?_
  simp only [opened, Draft.append, hopened, Draft.extend_extend, List.nil_append, List.cons_append,
    Draft.patch_extend_cons, Sketch.patch_openSplit]
  simp [Draft.branch, Instr.loopSplit, first.length_code, Place.after, Place.skip, Nat.add_assoc,
    Nat.add_comm 1]

end Writes

/-! ### Whole trees -/

/-- A repetition has no copies just if it admits no round. -/
theorem Quantifier.copies_eq_zero_iff {times : Quantifier} (h : times.Valid) :
    times.copies = 0 ↔ times.max = some 0 := by
  unfold copies
  cases hmax : times.max with
  | none =>
      have hcopy := Nat.le_max_right times.min 1
      simp only [reduceCtorEq, iff_false]
      omega
  | some max =>
      have hle := h max hmax
      simp only [Option.some.injEq]
      omega

/-- Writing the construct of a tree comes to the code of the tree. -/
def Tree.WrittenAsCode (limit : Nat) (tree : Tree) : Prop :=
  ∀ draft, Writes (tree.construct.emit limit) draft (tree.firstExpensive? limit) ()
    (draft.append tree)

/-- The same for the alternatives of a tree, behind others. -/
def Tree.AlternativesWrittenAsCode (limit : Nat) (tree : Tree) : Prop :=
  ∀ exits draft, (∀ exit ∈ exits, exit < draft.place.pc) →
    Writes (Construct.emitAlternatives limit exits tree.construct.alternatives) draft
      (tree.firstExpensive? limit) ()
      ((draft.append tree).patchAll (draft.append tree).place.pc exits)

section WholeTree

variable {limit : Nat} {tree first rest body : Tree} {times : Quantifier}

theorem Construct.emitItems_items (construct : Construct) :
    emitItems limit construct.items = construct.emit limit := by
  cases construct with
  | concatenation position items => rfl
  | _ => exact bind_pure_unit

theorem Tree.WrittenAsCode.group {position : Nat} {index : Option Nat}
    (h : body.WrittenAsCode limit) : (Tree.group position index body).WrittenAsCode limit := by
  intro draft
  cases index with
  | none => exact h draft
  | some index =>
      let opened := draft.extend [.ofInstr (.openGroup index)] [] 0
      refine Writes.congr ((Writes.write _ draft).bind ((h opened).bind (Writes.write _ _))) ?_ ?_
      · simp [Tree.firstExpensive?]
      · simp only [opened, Draft.append, Draft.extend_extend]
        simp [Tree.code, Tree.sets, Tree.loopCount, Place.skip]

theorem Tree.WrittenAsCode.cat (hfirst : first.WrittenAsCode limit)
    (hrest : rest.WrittenAsCode limit) : (Tree.cat first rest).WrittenAsCode limit := by
  intro draft
  have hitems := hrest (draft.append first)
  rw [← Construct.emitItems_items] at hitems
  refine Writes.congr ((hfirst draft).bind hitems) rfl ?_
  rw [Draft.append, Draft.place_append, Draft.append, Draft.extend_extend]
  simp [Draft.append, Tree.code, Tree.sets, Tree.loopCount]

theorem Tree.WrittenAsCode.rep (hvalid : times.Valid) (h : body.WrittenAsCode limit) :
    (Tree.rep body times).WrittenAsCode limit := by
  intro draft
  have hcopies := Quantifier.copies_eq_zero_iff hvalid
  rw [construct, Construct.emit, cost_construct, nullable_construct, firstExpensive?, isExpensive]
  split
  · exact Writes.refuse _ draft
  · cases hmax : times.max with
    | none => exact Writes.unbounded h times hmax draft
    | some max =>
        refine Writes.congr (Writes.bounded h times hmax draft) ?_ rfl
        simp only [beq_iff_eq, ← hmax, ← hcopies]

/-- A tree that is no alternation is the only alternative. -/
theorem Tree.WrittenAsCode.alone (h : tree.WrittenAsCode limit) (halt : tree.isAlt = false) :
    tree.AlternativesWrittenAsCode limit := by
  intro exits draft _
  rw [alternatives_construct halt]
  exact Writes.congr ((h draft).bind ((Writes.here _).bind (Writes.patchAll _ exits _)))
    (by simp) rfl

/-- Behind the last alternative all ways out are patched, that of the first one with them. -/
theorem Tree.WrittenAsCode.alt (hfirst : first.WrittenAsCode limit)
    (hrest : rest.AlternativesWrittenAsCode limit) :
    (Tree.alt first rest).AlternativesWrittenAsCode limit := by
  intro exits draft hexits
  obtain ⟨next, others, hlist⟩ : ∃ next others, rest.construct.alternatives = next :: others :=
    List.exists_cons_of_ne_nil rest.alternatives_construct_ne_nil
  let left := draft.branch first
  have hbefore : ∀ exit ∈ exits, exit < left.place.pc := by
    intro exit hmem
    have hlt := hexits exit hmem
    rw [Draft.place_branch]
    simp only [Place.after, Place.skip]
    omega
  have hlt : left.place.pc < (left.extend [.jump none] [] 0).place.pc := by
    rw [Draft.place_extend]
    exact Nat.lt_succ_self _
  have hothers := hrest _ _ (Writes.lt_of_mem_concat hbefore hlt)
  rw [hlist] at hothers
  rw [construct, Construct.alternatives, hlist, Construct.emitAlternatives]
  refine Writes.congr ((Writes.alternative hfirst draft).bind hothers) rfl ?_
  let right := ((draft.place.skip 1).after first).skip 1
  have hright : (left.extend [.jump none] [] 0).place = right := by
    rw [Draft.place_extend, Draft.place_branch]
    rfl
  have hstop : ((left.extend [.jump none] [] 0).append rest).place.pc = (right.after rest).pc := by
    rw [Draft.place_append, hright]
  have hwhole : (draft.append (.alt first rest)).place.pc = (right.after rest).pc := by
    rw [Draft.place_append]
    simp only [Place.after, Tree.codeSize, right, Place.skip]
    omega
  have hcode : (left.extend [.jump none] [] 0).append rest =
      left.extend (.jump none :: (rest.code right).map .ofInstr) rest.sets rest.loopCount := by
    rw [Draft.append, hright, Draft.extend_extend, List.singleton_append, List.nil_append,
      Nat.zero_add]
  rw [hstop, hwhole, hcode, Draft.patchAll_extend_cons hbefore, Sketch.patch_jump,
    Draft.append_alt]

/-- Without other ways out, writing the alternatives of an alternation is writing it. -/
theorem Tree.AlternativesWrittenAsCode.whole
    (h : (Tree.alt first rest).AlternativesWrittenAsCode limit) :
    (Tree.alt first rest).WrittenAsCode limit :=
  fun draft => h [] draft (fun _ hmem => nomatch hmem)

theorem Tree.writtenAsCode (h : tree.Ordered) :
    tree.WrittenAsCode limit ∧ tree.AlternativesWrittenAsCode limit := by
  induction tree with
  | atom position a =>
      have hatom : (Tree.atom position a).WrittenAsCode limit := Writes.atom position a
      exact ⟨hatom, hatom.alone rfl⟩
  | group position index body ih =>
      have hgroup : (Tree.group position index body).WrittenAsCode limit := (ih h).1.group
      exact ⟨hgroup, hgroup.alone rfl⟩
  | cat first rest ihfirst ihrest =>
      have hcat := (ihfirst h.1).1.cat (ihrest h.2).1
      exact ⟨hcat, hcat.alone rfl⟩
  | alt first rest ihfirst ihrest =>
      have halt := (ihfirst h.1).1.alt (ihrest h.2).2
      exact ⟨halt.whole, halt⟩
  | rep body times ih =>
      have hrep := (ih h.2).1.rep h.1
      exact ⟨hrep, hrep.alone rfl⟩

theorem Construct.emitWhole_construct (h : tree.Ordered) :
    Writes (tree.construct.emitWhole limit) .empty (tree.firstExpensive? limit) ()
      (Draft.empty.extend ((Program.wrap (tree.code ⟨1, 0, 0⟩)).map .ofInstr) tree.sets
        tree.loopCount) := by
  let opened := Draft.empty.extend [.ofInstr (.openGroup 0)] [] 0
  have hbody : tree.WrittenAsCode limit := (Tree.writtenAsCode h).1
  refine Writes.congr ((Writes.write _ .empty).bind ((hbody opened).bind
    ((Writes.write _ _).bind (Writes.write _ _)))) (by simp) ?_
  simp only [opened, Draft.append, Draft.extend_extend, Draft.place_extend, Draft.place_empty]
  simp [Program.wrap]

/-- The sketches of a program that is written with all targets are its instructions. -/
theorem Draft.program_ofTree (tree : Tree) (groups : Nat) :
    (Draft.empty.extend ((Program.wrap (tree.code ⟨1, 0, 0⟩)).map .ofInstr) tree.sets
      tree.loopCount).program groups = .ofTree tree groups := by
  simp [Draft.program, Draft.extend, Draft.empty, Program.ofTree, Function.comp_def]

/-- Writing comes to the program that is laid out for the tree, or it fails at the first repetition
that is too expensive, and notes where that is. -/
theorem Construct.lower_construct (limit : Nat) (h : tree.Ordered) (groups : Nat) :
    tree.construct.lower limit groups =
      match tree.firstExpensive? limit with
      | none => (none, .ofTree tree groups)
      | some position => (some ⟨.expensiveUnroll, position⟩, .empty) := by
  have hwhole := @emitWhole_construct limit tree h
  rw [lower]
  cases hfound : tree.firstExpensive? limit with
  | none =>
      rw [hfound] at hwhole
      have hrun : (tree.construct.emitWhole limit).run Draft.empty = (some (), _) := hwhole
      rw [hrun]
      exact Prod.ext rfl (Draft.program_ofTree tree groups)
  | some position =>
      rw [hfound] at hwhole
      obtain ⟨stopped, hrun, hfailure⟩ := hwhole
      rw [hrun]
      exact Prod.ext hfailure rfl

end WholeTree

end RegexSearch
