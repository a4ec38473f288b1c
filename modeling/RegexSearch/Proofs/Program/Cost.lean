import RegexSearch.Proofs.Program.Compiled

/-!
The cost of a pattern against what it stands for. The cost wraps around, so it is compared with
the same cost in unbounded numbers. A repetition with a large cost is not let through because the
repetitions inside it have been looked at too: if these are cheap, the cost of the body is bounded
by the length of the pattern, and does not wrap around.

The cost does not count the marks and checks of guarded loops. A tree takes at most two
instructions more for each loop slot than its cost says, and never more than twice its cost.
-/

namespace RegexSearch

/-- The cost of a repetition in unbounded numbers. -/
def Quantifier.fullCost (times : Quantifier) (body : Nat) : Nat :=
  match times.max with
  | none => (if times.min = 0 then body else times.min * body) + 2
  | some max => times.min * body + (max - times.min) * (body + 1)

namespace Tree

/-- The cost of a tree in unbounded numbers. -/
def fullCost : Tree → Nat
  | atom .. => 1
  | group _ index body => body.fullCost + if index.isSome then 2 else 0
  | cat first rest => first.fullCost + rest.fullCost
  | alt first rest => first.fullCost + 2 + rest.fullCost
  | rep body times => times.fullCost body.fullCost

/-- The repetitions in a tree that are written out: those that are not inside a repetition that
admits no round at all. -/
def repetitions : Tree → List (Tree × Quantifier)
  | atom .. => []
  | group _ _ body => body.repetitions
  | cat first rest => first.repetitions ++ rest.repetitions
  | alt first rest => first.repetitions ++ rest.repetitions
  | rep body times => (body, times) :: if times.max = some 0 then [] else body.repetitions

/-- No counted repetition that is written out costs more than the limit, in unbounded numbers. -/
def Affordable (limit : Nat) (tree : Tree) : Prop :=
  ∀ body times, (body, times) ∈ tree.repetitions → times.isCounted = true →
    (rep body times).fullCost ≤ limit

end Tree

/-! ### Wrapping around -/

theorem Quantifier.cost_ofNat (times : Quantifier) (body : Nat) :
    times.cost (UInt64.ofNat body) = UInt64.ofNat (times.fullCost body) := by
  unfold cost fullCost
  cases times.max with
  | none =>
      by_cases hmin : times.min = 0
      · simp [hmin, UInt64.ofNat_add]
      · simp [hmin, UInt64.ofNat_add, UInt64.ofNat_mul]
  | some max => simp [UInt64.ofNat_add, UInt64.ofNat_mul]

namespace Tree

/-- The cost is the unbounded one, wrapped around. -/
theorem cost_eq_ofNat (tree : Tree) : tree.cost = UInt64.ofNat tree.fullCost := by
  induction tree with
  | atom position a => rfl
  | group position index body ih =>
      cases index <;> simp [cost, fullCost, ih, UInt64.ofNat_add]
  | cat first rest ihfirst ihrest => simp [cost, fullCost, ihfirst, ihrest, UInt64.ofNat_add]
  | alt first rest ihfirst ihrest => simp [cost, fullCost, ihfirst, ihrest, UInt64.ofNat_add]
  | rep body times ih => rw [cost, fullCost, ih, Quantifier.cost_ofNat]

/-- The cost is exact while the unbounded one fits into a word. -/
theorem toNat_cost {tree : Tree} (h : tree.fullCost < 2 ^ 64) : tree.cost.toNat = tree.fullCost := by
  rw [cost_eq_ofNat, UInt64.toNat_ofNat', Nat.mod_eq_of_lt h]

/-! ### What is affordable -/

section Affordable

variable {limit : Nat} {first rest body : Tree} {times : Quantifier}

theorem affordable_atom (position : Nat) (a : Atom) : (atom position a).Affordable limit :=
  fun _ _ hmem => nomatch hmem

theorem affordable_cat :
    (cat first rest).Affordable limit ↔ first.Affordable limit ∧ rest.Affordable limit := by
  simp only [Affordable, repetitions, List.mem_append, or_imp, forall_and]

theorem affordable_alt :
    (alt first rest).Affordable limit ↔ first.Affordable limit ∧ rest.Affordable limit := by
  simp only [Affordable, repetitions, List.mem_append, or_imp, forall_and]

theorem affordable_rep :
    (rep body times).Affordable limit ↔
      (times.isCounted = true → (rep body times).fullCost ≤ limit) ∧
        (times.max = some 0 ∨ body.Affordable limit) := by
  unfold Affordable
  simp only [repetitions, List.mem_cons, Prod.mk.injEq]
  constructor
  · intro h
    refine ⟨h body times (.inl ⟨rfl, rfl⟩), ?_⟩
    by_cases hzero : times.max = some 0
    · exact .inl hzero
    · right
      intro inner innerTimes hmem
      exact h inner innerTimes (.inr (by rwa [if_neg hzero]))
  · intro ⟨hrep, hbody⟩ inner innerTimes hmem
    rcases hmem with ⟨rfl, rfl⟩ | hmem
    · exact hrep
    · split at hmem
      · cases hmem
      · rename_i hzero
        exact hbody.resolve_left hzero inner innerTimes hmem

theorem firstExpensive?_cat :
    (cat first rest).firstExpensive? limit = none ↔
      first.firstExpensive? limit = none ∧ rest.firstExpensive? limit = none := by
  simp only [firstExpensive?, Option.or_eq_none_iff]

theorem firstExpensive?_alt :
    (alt first rest).firstExpensive? limit = none ↔
      first.firstExpensive? limit = none ∧ rest.firstExpensive? limit = none := by
  simp only [firstExpensive?, Option.or_eq_none_iff]

theorem firstExpensive?_rep :
    (rep body times).firstExpensive? limit = none ↔
      body.isExpensive limit times = false ∧
        (times.max = some 0 ∨ body.firstExpensive? limit = none) := by
  rw [firstExpensive?]
  split
  · simp_all
  · split <;> simp_all

end Affordable

end Tree

/-! ### Bounds of repetitions -/

/-- The bounds of a repetition are in order and not too large. -/
structure Quantifier.Bounded (times : Quantifier) : Prop where
  min_le : times.min ≤ maxRepeatCount
  max_le : ∀ max, times.max = some max → times.min ≤ max ∧ max ≤ maxRepeatCount

theorem Suffix.bounded {suffix : Suffix} (h : suffix.bounds.Valid) : suffix.times.Bounded := by
  cases suffix with
  | mk bounds greedy =>
      cases bounds with
      | star => exact ⟨Nat.zero_le _, nofun⟩
      | plus => exact ⟨Nat.le_add_left 1 99999, nofun⟩
      | option =>
          refine ⟨Nat.zero_le _, ?_⟩
          rintro max ⟨⟩
          exact ⟨Nat.zero_le _, by decide⟩
      | exactly count =>
          refine ⟨h.le, ?_⟩
          rintro max ⟨⟩
          exact ⟨Nat.le_refl _, h.le⟩
      | atLeast count => exact ⟨h.le, nofun⟩
      | between low high =>
          refine ⟨h.1.le, ?_⟩
          rintro max ⟨⟩
          exact ⟨h.2.2, h.2.1.le⟩

/-- Optional rounds cost one branch more than required ones. -/
theorem rounds_le (required optional body : Nat) :
    required * body + optional * (body + 1) ≤ (required + optional) * (body + 1) := by
  rw [Nat.add_mul]
  exact Nat.add_le_add_right (Nat.mul_le_mul_left required (Nat.le_succ body)) _

namespace Quantifier.Bounded

variable {times : Quantifier}

/-- A repetition that is written out more than once costs at least as much as its body. -/
theorem le_fullCost (h : times.Bounded) (hcounted : times.isCounted = true) (body : Nat) :
    body ≤ times.fullCost body := by
  unfold fullCost
  unfold isCounted at hcounted
  cases hmax : times.max with
  | none =>
      dsimp only
      split
      · omega
      · rename_i hmin
        have hbody := Nat.le_mul_of_pos_left body (Nat.pos_of_ne_zero hmin)
        omega
  | some max =>
      obtain ⟨extra, rfl⟩ := Nat.exists_eq_add_of_le (h.max_le max hmax).1
      rw [hmax] at hcounted
      simp only [Option.any_some, Bool.or_eq_true, decide_eq_true_eq] at hcounted
      dsimp only
      rw [Nat.add_sub_cancel_left]
      by_cases hmin : times.min = 0
      · have hextra := Nat.le_mul_of_pos_left (body + 1) (by omega : 0 < extra)
        omega
      · have hbody := Nat.le_mul_of_pos_left body (Nat.pos_of_ne_zero hmin)
        omega

/-- A repetition that admits no round costs nothing. -/
theorem fullCost_zero (h : times.Bounded) (hzero : times.max = some 0) (body : Nat) :
    times.fullCost body = 0 := by
  have hmin := Nat.le_zero.mp (h.max_le 0 hzero).1
  simp [fullCost, hzero, hmin]

/-- The other repetitions that are not written out more than once add two branches at most. -/
theorem fullCost_le_add_two (h : times.Bounded) (hcounted : times.isCounted = false) (body : Nat) :
    times.fullCost body ≤ body + 2 := by
  unfold isCounted at hcounted
  simp only [Bool.or_eq_false_iff, decide_eq_false_iff_not, Nat.not_lt] at hcounted
  obtain ⟨hmin, hmax⟩ := hcounted
  unfold fullCost
  cases hbound : times.max with
  | none =>
      dsimp only
      split
      · omega
      · have hone : times.min = 1 := by omega
        rw [hone]
        omega
  | some max =>
      have hle := (h.max_le max hbound).1
      rw [hbound, Option.any_some, decide_eq_false_iff_not, Nat.not_lt] at hmax
      dsimp only
      have hrounds : times.min + (max - times.min) ≤ 1 := by omega
      calc times.min * body + (max - times.min) * (body + 1)
          ≤ (times.min + (max - times.min)) * (body + 1) := rounds_le _ _ body
        _ ≤ 1 * (body + 1) := Nat.mul_le_mul_right _ hrounds
        _ ≤ body + 2 := by omega

theorem isCounted_zero (h : times.Bounded) (hzero : times.max = some 0) :
    times.isCounted = false := by
  have hmin := Nat.le_zero.mp (h.max_le 0 hzero).1
  simp [isCounted, hzero, hmin]

/-- Many rounds of a cheap body do not wrap around. -/
theorem fullCost_le (h : times.Bounded) (body : Nat) :
    times.fullCost body ≤ maxRepeatCount * (body + 1) := by
  unfold fullCost
  cases hmax : times.max with
  | none =>
      dsimp only
      split
      · unfold maxRepeatCount
        omega
      · have hrounds := Nat.mul_le_mul_right body h.min_le
        have htwo : 2 ≤ maxRepeatCount := by decide
        rw [Nat.mul_succ]
        omega
  | some max =>
      obtain ⟨hle, hmaximum⟩ := h.max_le max hmax
      obtain ⟨extra, rfl⟩ := Nat.exists_eq_add_of_le hle
      dsimp only
      rw [Nat.add_sub_cancel_left]
      exact Nat.le_trans (rounds_le _ _ body) (Nat.mul_le_mul_right _ hmaximum)

end Quantifier.Bounded

/-! ### The cost of what has been written -/

theorem Leaf.length_pos (written : Leaf) : 0 < written.word.length := by
  cases written with
  | anchor kind => cases kind <;> exact Nat.succ_pos _
  | _ => exact Nat.succ_pos _

/-- Costs that do not wrap around are looked at as they are. -/
theorem Tree.isExpensive_eq_false_iff {limit : Nat} {body : Tree} {times : Quantifier}
    (hbounded : times.Bounded) (hbody : body.fullCost < 2 ^ 64)
    (hlimit : maxRepeatCount * (limit + 1) < 2 ^ 64) :
    body.isExpensive limit times = false ↔
      (times.isCounted = true → (rep body times).fullCost ≤ limit) := by
  change (times.isCounted && (limit < body.cost.toNat || limit < (rep body times).cost.toNat)) =
    false ↔ _
  cases hcounted : times.isCounted with
  | false => simp
  | true =>
      simp only [Bool.true_and, Bool.or_eq_false_iff, decide_eq_false_iff_not, Nat.not_lt,
        true_imp_iff, toNat_cost hbody]
      have hsmall (hcheap : body.fullCost ≤ limit) :
          (rep body times).cost.toNat = (rep body times).fullCost := by
        apply toNat_cost
        calc (rep body times).fullCost
            ≤ maxRepeatCount * (body.fullCost + 1) := hbounded.fullCost_le _
          _ ≤ maxRepeatCount * (limit + 1) := Nat.mul_le_mul_left _ (Nat.succ_le_succ hcheap)
          _ < 2 ^ 64 := hlimit
      constructor
      · intro ⟨hcheap, hrep⟩
        rwa [hsmall hcheap] at hrep
      · intro hrep
        have hcheap := Nat.le_trans (hbounded.le_fullCost hcounted body.fullCost) hrep
        exact ⟨hcheap, by rwa [hsmall hcheap]⟩

namespace Derivation

variable {category : Category} {limit : Nat}

/-- If all counted repetitions are affordable, the length of a pattern bounds its cost. -/
theorem fullCost_tree_le {d : Derivation category} {depth groups : Nat} {following : Bytes}
    (hvalid : d.Valid depth groups following) {position : Nat}
    (h : (d.tree position groups).Affordable limit) :
    (d.tree position groups).fullCost ≤ max limit 2 * d.word.length := by
  have htwo : 2 ≤ max limit 2 := Nat.le_max_right limit 2
  have hlimit : limit ≤ max limit 2 := Nat.le_max_left limit 2
  generalize max limit 2 = bound at htwo hlimit
  -- A construct that adds at most two to the cost writes a byte that pays for it.
  have hpay {cost length more : Nat} (hcost : cost ≤ bound * length) (hmore : 0 < more) :
      cost + 2 ≤ bound * (length + more) := by
    have hmore := Nat.mul_le_mul htwo hmore
    rw [Nat.mul_add]
    omega
  induction d generalizing depth position groups following with
  | leaf written =>
      have hone : 1 ≤ bound := Nat.le_of_succ_le htwo
      exact Nat.le_trans hone (Nat.le_mul_of_pos_right bound (Leaf.length_pos written))
  | group captures body ih =>
      have hparentheses : 0 < (opening captures).length + 1 := Nat.succ_pos _
      have hlength : (group captures body).word.length =
          body.word.length + ((opening captures).length + 1) := by
        rw [word, List.length_append, List.length_append, List.length_singleton]
        omega
      rw [hlength]
      refine Nat.le_trans ?_ (hpay (ih hvalid.2 h) hparentheses)
      rw [tree, Tree.fullCost]
      exact Nat.add_le_add_left (by cases captures <;> simp) _
  | once operand ih => exact ih hvalid h
  | repeated operand suffix ih =>
      obtain ⟨hcounted, hbody⟩ := Tree.affordable_rep.mp h
      have hbounded := Suffix.bounded hvalid.2.2
      have hsuffix : 0 < suffix.word.length := by
        obtain ⟨b, rest, hword, -⟩ := suffix.exists_head
        rw [hword]
        exact Nat.succ_pos _
      rw [tree, Tree.fullCost, word, List.length_append]
      cases hmany : suffix.times.isCounted with
      | true =>
          calc suffix.times.fullCost (operand.tree position groups).fullCost
              ≤ limit := hcounted hmany
            _ ≤ bound := hlimit
            _ ≤ bound * (operand.word.length + suffix.word.length) :=
              Nat.le_mul_of_pos_right bound (by omega)
      | false =>
          rcases hbody with hzero | hbody
          · rw [hbounded.fullCost_zero hzero]
            exact Nat.zero_le _
          · exact Nat.le_trans (hbounded.fullCost_le_add_two hmany _)
              (hpay (ih hvalid.1 hbody) hsuffix)
  | last operand ih => exact ih hvalid h
  | more operand rest ih ihrest =>
      obtain ⟨hoperand, hrest⟩ := Tree.affordable_cat.mp h
      rw [tree, Tree.fullCost, word, List.length_append, Nat.mul_add]
      exact Nat.add_le_add (ih hvalid.1 hoperand) (ihrest hvalid.2 hrest)
  | only branch ih => exact ih hvalid h
  | choice branch rest ih ihrest =>
      obtain ⟨hbranch, hrest⟩ := Tree.affordable_alt.mp h
      have hfirst := hpay (ih hvalid.1 hbranch) (Nat.succ_pos 0)
      have hlast := ihrest hvalid.2 hrest
      rw [tree, Tree.fullCost, word, List.length_append, List.length_cons]
      calc _ ≤ bound * (branch.word.length + 1) + bound * rest.word.length :=
            Nat.add_le_add hfirst hlast
        _ = bound * (branch.word.length + (rest.word.length + 1)) := by
            rw [← Nat.mul_add, Nat.add_right_comm, Nat.add_assoc]

/-- While costs of this size do not wrap around, a tree is let through just if it is affordable. -/
theorem firstExpensive?_tree_iff {d : Derivation category} {depth groups : Nat} {following : Bytes}
    (hvalid : d.Valid depth groups following) (hlength : max limit 2 * d.word.length < 2 ^ 64)
    (hlimit : maxRepeatCount * (limit + 1) < 2 ^ 64) {position : Nat} :
    (d.tree position groups).firstExpensive? limit = none ↔
      (d.tree position groups).Affordable limit := by
  induction d generalizing depth position groups following with
  | leaf written => exact ⟨fun _ => Tree.affordable_atom _ _, fun _ => rfl⟩
  | group captures body ih =>
      rw [word, List.length_append, List.length_append, Nat.mul_add, Nat.mul_add] at hlength
      exact ih hvalid.2 (by omega)
  | once operand ih => exact ih hvalid hlength
  | repeated operand suffix ih =>
      rw [word, List.length_append, Nat.mul_add] at hlength
      have hoperand : max limit 2 * operand.word.length < 2 ^ 64 := by omega
      have hbounded := Suffix.bounded hvalid.2.2
      rw [tree, Tree.firstExpensive?_rep, Tree.affordable_rep, ih hvalid.1 hoperand]
      apply and_congr_left
      intro hbody
      rcases hbody with hzero | haffordable
      · have hcounted := hbounded.isCounted_zero hzero
        simp [Tree.isExpensive, hcounted]
      · have hcost := Nat.lt_of_le_of_lt (fullCost_tree_le hvalid.1 haffordable) hoperand
        exact Tree.isExpensive_eq_false_iff hbounded hcost hlimit
  | last operand ih => exact ih hvalid hlength
  | more operand rest ih ihrest =>
      rw [word, List.length_append, Nat.mul_add] at hlength
      rw [tree, Tree.firstExpensive?_cat, Tree.affordable_cat, ih hvalid.1 (by omega),
        ihrest hvalid.2 (by omega)]
  | only branch ih => exact ih hvalid hlength
  | choice branch rest ih ihrest =>
      rw [word, List.length_append, List.length_cons, Nat.mul_add, Nat.mul_add] at hlength
      rw [tree, Tree.firstExpensive?_alt, Tree.affordable_alt, ih hvalid.1 (by omega),
        ihrest hvalid.2 (by omega)]

end Derivation

/-! ### Costs and instructions -/

/-- A repetition costs its copies of the body and its branches. -/
theorem Quantifier.fullCost_eq (times : Quantifier) (body : Nat) :
    times.fullCost body = times.copies * body + times.fullCost 0 := by
  unfold fullCost copies
  cases times.max with
  | none =>
      by_cases hmin : times.min = 0
      · simp [hmin]
      · have hone : Max.max times.min 1 = times.min :=
          Nat.max_eq_left (Nat.one_le_iff_ne_zero.mpr hmin)
        simp [hmin, hone]
  | some max =>
      simp only [Nat.mul_zero, Nat.zero_add, Nat.mul_succ, Nat.add_mul]
      omega

namespace Tree

theorem codeSize_rep_le (body : Tree) (times : Quantifier) :
    (rep body times).codeSize ≤ times.copies * body.codeSize + times.fullCost 0 +
      if times.max.isNone && body.nullable then 2 else 0 := by
  obtain ⟨min, max, greedy⟩ := times
  simp only [codeSize, Quantifier.copies, Quantifier.fullCost]
  cases max with
  | none =>
      cases min with
      | zero => simp
      | succ before =>
          cases body.nullable <;> simp
  | some max =>
      simp only [Nat.mul_zero, Nat.zero_add, Nat.mul_succ, Nat.add_mul, Option.isNone_some,
        Bool.false_and]
      omega

/-- Every guarded loop has paid two for its branch and its jump. -/
theorem two_mul_loopCount_le (tree : Tree) : 2 * tree.loopCount ≤ tree.fullCost := by
  induction tree with
  | atom position a => exact Nat.zero_le _
  | group position index body ih => exact Nat.le_trans ih (Nat.le_add_right _ _)
  | cat first rest ihfirst ihrest =>
      rw [loopCount, fullCost]
      omega
  | alt first rest ihfirst ihrest =>
      rw [loopCount, fullCost]
      omega
  | rep body times ih =>
      have hcopies := Nat.mul_le_mul_left times.copies ih
      have hloop : (if times.max.isNone && body.nullable then 1 else 0) * 2 ≤ times.fullCost 0 := by
        unfold Quantifier.fullCost
        cases times.max with
        | none => cases body.nullable <;> simp
        | some max => exact Nat.zero_le _
      rw [loopCount, fullCost, Quantifier.fullCost_eq, Nat.mul_add, Nat.mul_left_comm]
      omega

/-- The instructions of a tree are those that its cost counts, and for each loop slot at most a
mark and a check. -/
theorem codeSize_le (tree : Tree) : tree.codeSize ≤ tree.fullCost + 2 * tree.loopCount := by
  induction tree with
  | atom position a => exact Nat.le_refl 1
  | group position index body ih =>
      rw [codeSize, fullCost, loopCount]
      omega
  | cat first rest ihfirst ihrest =>
      rw [codeSize, fullCost, loopCount]
      omega
  | alt first rest ihfirst ihrest =>
      rw [codeSize, fullCost, loopCount]
      omega
  | rep body times ih =>
      have hcode := codeSize_rep_le body times
      have hcopies := Nat.mul_le_mul_left times.copies ih
      rw [Nat.mul_add, Nat.mul_left_comm] at hcopies
      rw [fullCost, Quantifier.fullCost_eq, loopCount, Nat.mul_add]
      split at hcode
      · rename_i hguarded
        rw [if_pos hguarded]
        omega
      · rename_i hguarded
        rw [if_neg hguarded]
        omega

theorem codeSize_le_two_mul (tree : Tree) : tree.codeSize ≤ 2 * tree.fullCost := by
  have hcode := tree.codeSize_le
  have hloops := tree.two_mul_loopCount_le
  omega

end Tree

/-! ### Patterns -/

theorem firstExpensive?_eq_none_iff_of_result {maxUnroll : Nat} {pattern : Bytes} {tree : Tree}
    (hlength : max maxUnroll 2 * pattern.length < 2 ^ 64)
    (hlimit : maxRepeatCount * (maxUnroll + 1) < 2 ^ 64)
    (h : (readPattern pattern).result = .ok tree) :
    tree.firstExpensive? maxUnroll = none ↔ tree.Affordable maxUnroll := by
  obtain ⟨d, hderives, rfl, -⟩ := exists_derives_of_result h
  rw [← hderives.word] at hlength
  exact Derivation.firstExpensive?_tree_iff hderives.valid hlength hlimit

/-- Wrapping around lets no expensive pattern through: a pattern becomes a program just if it can
be read and none of its counted repetitions that are written out costs more than the limit in
unbounded numbers. The length of the pattern then bounds the size of the program. -/
theorem compilePattern_ok_iff_affordable {maxUnroll : Nat} {pattern : Bytes}
    (hlength : max maxUnroll 2 * pattern.length < 2 ^ 64)
    (hlimit : maxRepeatCount * (maxUnroll + 1) < 2 ^ 64) :
    ((∃ program, (compilePattern maxUnroll pattern).program = .ok program) ↔
        ∃ tree, (readPattern pattern).result = .ok tree ∧ tree.Affordable maxUnroll) ∧
      ∀ program, (compilePattern maxUnroll pattern).program = .ok program →
        program.size ≤ 2 * max maxUnroll 2 * pattern.length + 3 := by
  refine ⟨⟨?_, ?_⟩, ?_⟩
  · intro ⟨program, hprogram⟩
    obtain ⟨tree, hcompiled⟩ := exists_tree_of_program hprogram
    obtain ⟨htree, hexpensive, -⟩ := compilePattern_eq_ok_iff.mp hcompiled
    exact ⟨tree, htree, (firstExpensive?_eq_none_iff_of_result hlength hlimit htree).mp hexpensive⟩
  · intro ⟨tree, htree, haffordable⟩
    have hexpensive := (firstExpensive?_eq_none_iff_of_result hlength hlimit htree).mpr haffordable
    rw [compilePattern_eq_ok_iff.mpr ⟨htree, hexpensive, rfl⟩]
    exact ⟨_, rfl⟩
  · intro program hprogram
    obtain ⟨tree, hcompiled⟩ := exists_tree_of_program hprogram
    obtain ⟨htree, hexpensive, rfl⟩ := compilePattern_eq_ok_iff.mp hcompiled
    have haffordable := (firstExpensive?_eq_none_iff_of_result hlength hlimit htree).mp hexpensive
    obtain ⟨d, hderives, rfl, -⟩ := exists_derives_of_result htree
    have hcost := Derivation.fullCost_tree_le hderives.valid haffordable
    have hcode := (d.tree 0 0).codeSize_le_two_mul
    rw [hderives.word] at hcost
    rw [Program.size_ofTree, Nat.mul_assoc]
    omega

/-- In `(?:(?:(?:(?:a{65536}){65536}){65536}){65536}){2}` the four repetitions inside make the cost of
the whole wrap around to zero, but they are refused themselves. -/
theorem compilePattern_ok_iff_affordable_of_wrapped :
    let large := (Bounds.exactly (ascii "65536")).word
    let grouped (operand : Bytes) : Bytes := ascii "(?:" ++ operand ++ ascii ")"
    let pattern := grouped (grouped (grouped (grouped (ascii "a" ++ large) ++ large) ++ large) ++
      large) ++ (Bounds.exactly (ascii "2")).word
    (∃ tree, (readPattern pattern).result = .ok tree ∧ tree.cost = 0) ∧
      ¬ ∃ program, (compilePattern 2000 pattern).program = .ok program := by
  intro large grouped pattern
  refine ⟨⟨_, rfl, by decide +kernel⟩, ?_⟩
  intro hprogram
  obtain ⟨tree, htree, haffordable⟩ :=
    (compilePattern_ok_iff_affordable (by decide) (by decide)).1.mp hprogram
  cases htree
  have hcost := haffordable _ _ (.head _) rfl
  exact absurd hcost (by decide +kernel)

/-- A counted repetition that has been let through emits at most as many instructions as the limit
allows, and a mark and a check for each guarded loop that it writes. Altogether these are never more
than twice the limit. -/
theorem length_code_of_counted {maxUnroll : Nat} {pattern : Bytes} {tree body : Tree}
    {times : Quantifier} {program : Program}
    (hlength : max maxUnroll 2 * pattern.length < 2 ^ 64)
    (hlimit : maxRepeatCount * (maxUnroll + 1) < 2 ^ 64)
    (h : compilePattern maxUnroll pattern = ⟨some tree, .ok program⟩)
    (hmem : (body, times) ∈ tree.repetitions) (hcounted : times.isCounted = true) (here : Place) :
    ((Tree.rep body times).code here).length ≤
        maxUnroll + 2 * (Tree.rep body times).loopCount ∧
      ((Tree.rep body times).code here).length ≤ 2 * maxUnroll := by
  obtain ⟨htree, hexpensive, -⟩ := compilePattern_eq_ok_iff.mp h
  have haffordable := (firstExpensive?_eq_none_iff_of_result hlength hlimit htree).mp hexpensive
  have hcost := haffordable body times hmem hcounted
  have hcode := (Tree.rep body times).codeSize_le
  have htwice := (Tree.rep body times).codeSize_le_two_mul
  rw [Tree.length_code]
  omega

/-- The three rounds of `a{3}` take exactly the three instructions that are allowed. -/
theorem length_code_of_counted_three :
    let body := Tree.atom 0 (.byte 97)
    let times : Quantifier := ⟨3, some 3, true⟩
    let pattern := ascii "a" ++ (Bounds.exactly (ascii "3")).word
    (readPattern pattern).result = .ok (.rep body times) ∧
      ((Tree.rep body times).code ⟨1, 0, 0⟩).length ≤ 3 := by
  intro body times pattern
  exact ⟨rfl, (@length_code_of_counted 3 pattern _ body times _ (by decide) (by decide) rfl
    (.head _) rfl ⟨1, 0, 0⟩).1⟩

/-- The cost of `(?:(?:a?)*){2}` is eight, but it takes twelve instructions, because the loops are
guarded. -/
theorem counted_code_exceeds_limit :
    let body := Tree.group 0 none
      (.rep (.group 3 none (.rep (.atom 6 (.byte 97)) ⟨0, some 1, true⟩)) ⟨0, none, true⟩)
    let times : Quantifier := ⟨2, some 2, true⟩
    let pattern := ascii "(?:(?:a?)*)" ++ (Bounds.exactly (ascii "2")).word
    (compilePattern 8 pattern).tree = some (.rep body times) ∧
      (∃ program, (compilePattern 8 pattern).program = .ok program) ∧
      times.isCounted = true ∧ ((Tree.rep body times).code ⟨1, 0, 0⟩).length = 12 := by
  intro body times pattern
  exact ⟨rfl, ⟨_, rfl⟩, rfl, rfl⟩

end RegexSearch
