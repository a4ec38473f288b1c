import RegexSearch.Proofs.Descent.Runs
import RegexSearch.Proofs.Pattern.Quantifier

/-!
How a descent reads quantifiers. It gives a count up as soon as the digits make too large a number,
where the function on lists looks at all digits first; and bounds in braces fail without a reason,
which is noted afterwards.
-/

namespace RegexSearch

section Quantifiers

variable {pattern rest : Bytes} {groups position : Nat} {b : Byte}

/-- Digits are read up to a byte that is none. -/
theorem yields_digits {more following : Bytes}
    (hrest : pattern.drop position = b :: (more ++ following))
    (hdigits : ∀ digit ∈ more, digit.isDigit = true)
    (hstops : following.head?.any Byte.isDigit = false) (number : Nat) :
    Yields pattern groups (Descent.Source.digits pattern number) position
      (if maxRepeatCount < appendDigits number (b :: more) then .error none
        else .ok (appendDigits number (b :: more), position + (more.length + 1))) := by
  induction more generalizing b position number with
  | nil =>
      unfold Descent.Source.digits
      refine Yields.after .cursor (Yields.after (.take hrest) ?_)
      have hvalue : appendDigits number [b] = number * 10 + b.digitValue := rfl
      dsimp only
      rw [hvalue]
      split
      · exact Yields.failure
      · have hnext : pattern.drop (position + 1) = following := drop_add_of_drop hrest 1
        refine Yields.after (.round (Nat.lt_succ_self _)) (Yields.after (.ahead hnext _) ?_)
        rw [hstops]
        exact Yields.pure _ _
  | cons digit more ih =>
      obtain ⟨hdigit, hdigits⟩ := List.forall_mem_cons.mp hdigits
      have hnext : pattern.drop (position + 1) = digit :: (more ++ following) :=
        drop_add_of_drop hrest 1
      unfold Descent.Source.digits
      refine Yields.after .cursor (Yields.after (.take hrest) ?_)
      dsimp only
      rw [appendDigits_cons]
      by_cases hlarge : maxRepeatCount < number * 10 + b.digitValue
      · have hgrows := le_appendDigits (number * 10 + b.digitValue) (digit :: more)
        rw [if_pos hlarge, if_pos (Nat.lt_of_lt_of_le hlarge hgrows)]
        exact Yields.failure
      · have hfurther := ih hnext hdigits (number * 10 + b.digitValue)
        rw [Nat.add_assoc, Nat.add_comm 1] at hfurther
        rw [if_neg hlarge]
        refine Yields.after (.round (Nat.lt_succ_self _)) (Yields.after (.ahead hnext _) ?_)
        rw [List.head?_cons, Option.any_some, hdigit]
        exact hfurther

theorem yields_count :
    Yields pattern groups (Descent.count pattern) position
      (counted none position (readCount (pattern.drop position))) := by
  generalize hbytes : pattern.drop position = bytes
  have hahead := @Runs.ahead pattern ⟨position, groups, none⟩ bytes hbytes Byte.isDigit
  rw [readCount]
  cases hdigits : bytes.takeWhile Byte.isDigit with
  | nil =>
      have hnone : bytes.head?.any Byte.isDigit = false := by
        cases bytes with
        | nil => rfl
        | cons b rest =>
            cases hb : b.isDigit with
            | false => exact hb
            | true =>
                rw [List.takeWhile_cons_of_pos hb] at hdigits
                cases hdigits
      rw [hnone] at hahead
      exact .after hahead .failure
  | cons b more =>
      have hsplit : bytes = b :: (more ++ bytes.dropWhile Byte.isDigit) := by
        rw [← List.cons_append, ← hdigits, List.takeWhile_append_dropWhile]
      have hall (digit : Byte) (hmem : digit ∈ b :: more) : digit.isDigit = true := by
        rw [← hdigits] at hmem
        exact List.mem_takeWhile_imp hmem
      obtain ⟨hb, hmore⟩ := List.forall_mem_cons.mp hall
      have hstops : (bytes.dropWhile Byte.isDigit).head?.any Byte.isDigit = false := by
        have hhead := List.head?_dropWhile_not Byte.isDigit bytes
        cases hdrop : (bytes.dropWhile Byte.isDigit).head? with
        | none => rfl
        | some digit =>
            rw [hdrop] at hhead
            exact hhead
      have hvalue : bytes.head?.any Byte.isDigit = true := by
        rw [hsplit]
        exact hb
      rw [hvalue] at hahead
      have hcount := @yields_digits pattern groups position b more _ (hbytes.trans hsplit) hmore
        hstops 0
      have hnumber : appendDigits 0 (b :: more) = digitsValue (b :: more) := rfl
      rw [hnumber] at hcount
      refine Yields.after hahead ?_
      rw [List.isEmpty_cons, Bool.false_or]
      by_cases hlarge : maxRepeatCount < digitsValue (b :: more)
      · rw [if_pos hlarge] at hcount
        rw [if_pos (decide_eq_true hlarge)]
        exact hcount
      · rw [if_neg hlarge] at hcount
        rw [if_neg (decide_eq_true_iff.not.mpr hlarge)]
        exact hcount

/-- The upper bound in braces, read from what follows the comma. -/
def readUpper (min : Nat) (bytes : Bytes) : Option ((Nat × Option Nat) × Nat) :=
  if bytes.head?.any (·.toChar == '}') then some ((min, none), 1)
  else
    (readCount bytes).bind fun (max, taken) =>
      if (bytes.drop taken).head?.any (·.toChar == '}') && min ≤ max then
        some ((min, some max), taken + 1)
      else none

theorem yields_upper (min : Nat) :
    Yields pattern groups (Descent.upper pattern min) position
      (counted none position (readUpper min (pattern.drop position))) := by
  have hskip := @Runs.skip pattern ⟨position, groups, none⟩ (pattern.drop position) rfl
    (·.toChar == '}')
  refine Yields.after hskip ?_
  rw [readUpper]
  split
  · rename_i hclosing
    rw [hclosing]
    exact .pure _ _
  · rename_i hopen
    rw [Bool.eq_false_iff.mpr hopen]
    have hcount := @yields_count pattern groups position
    cases hmax : readCount (pattern.drop position) with
    | none =>
        rw [hmax] at hcount
        exact hcount.stopped
    | some result =>
        obtain ⟨max, taken⟩ := result
        rw [hmax] at hcount
        have hahead := @Runs.ahead pattern ⟨position + taken, groups, none⟩
          (pattern.drop (position + taken)) rfl (·.toChar == '}')
        refine Yields.after hcount (Yields.after hahead ?_)
        rw [Option.bind_some]
        dsimp only
        rw [List.drop_drop]
        by_cases hclosed : (pattern.drop (position + taken)).head?.any (·.toChar == '}') = true
        · obtain ⟨behind, hrest⟩ :=
            List.head?_eq_some_iff.mp ((head?_any_toChar_iff (by decide)).mp hclosed)
          rw [if_pos hclosed, hclosed, Bool.true_and]
          by_cases hle : min ≤ max
          · rw [if_pos hle, if_pos (decide_eq_true hle)]
            exact .after (.move (lt_length_of_drop hrest)) (.pure _ _)
          · rw [if_neg hle, if_neg (decide_eq_true_iff.not.mpr hle)]
            exact .failure
        · rw [if_neg hclosed, Bool.eq_false_iff.mpr hclosed]
          exact .failure

section ReadBraces

variable {bytes more : Bytes} {min taken : Nat}

theorem readBraces_exactly (hmin : readCount bytes = some (min, taken))
    (hfollowing : bytes.drop taken = '}'.toUInt8 :: more) :
    readBraces bytes = some ((min, some min), taken + 1) := by
  simp only [readBraces, hmin, Option.bind_eq_bind, Option.bind_some, hfollowing]
  cases more <;> rfl

theorem readBraces_comma (hmin : readCount bytes = some (min, taken))
    (hfollowing : bytes.drop taken = ','.toUInt8 :: more) :
    readBraces bytes =
      (readUpper min more).map fun (bounds, further) => (bounds, taken + 1 + further) := by
  simp only [readBraces, hmin, Option.bind_eq_bind, Option.bind_some, hfollowing]
  cases more with
  | nil => rfl
  | cons b rest =>
      by_cases hb : b.toChar = '}'
      · obtain rfl := Byte.eq_of_toChar hb
        rfl
      · have hopen : ¬ ((b :: rest).head?.any (·.toChar == '}')) = true := by
          rw [List.head?_cons, Option.any_some, beq_iff_eq]
          exact hb
        rw [readUpper, if_neg hopen]
        split
        · rename_i hchars
          cases (List.cons.inj hchars).1
        · rename_i hchars
          exact absurd (List.cons.inj (List.cons.inj hchars).2).1 hb
        · rw [List.drop_succ_cons, List.drop_zero]
          cases readCount (b :: rest) with
          | none => rfl
          | some result =>
              obtain ⟨max, digits⟩ := result
              simp only [Option.bind_some, Nat.add_comm 1 digits, List.drop_succ_cons]
              split
              · rfl
              · rfl
        · rename_i hother
          exact absurd rfl (hother _)

theorem readBraces_other (hmin : readCount bytes = some (min, taken))
    (hfollowing : ∀ b more, bytes.drop taken = b :: more → b.toChar ≠ '}' ∧ b.toChar ≠ ',') :
    readBraces bytes = none := by
  simp only [readBraces, hmin, Option.bind_eq_bind, Option.bind_some]
  cases hrest : bytes.drop taken with
  | nil => rfl
  | cons b more =>
      obtain ⟨hclosing, hcomma⟩ := hfollowing b more hrest
      split
      · rename_i hchars
        exact absurd (List.cons.inj hchars).1 hclosing
      · rename_i hchars
        exact absurd (List.cons.inj hchars).1 hcomma
      · rename_i hchars
        exact absurd (List.cons.inj hchars).1 hcomma
      · rfl

end ReadBraces

theorem yields_braces :
    Yields pattern groups (Descent.braces pattern) position
      (counted none position (readBraces (pattern.drop position))) := by
  have hcount := @yields_count pattern groups position
  cases hmin : readCount (pattern.drop position) with
  | none =>
      rw [hmin] at hcount
      rw [readBraces, hmin]
      exact hcount.stopped
  | some result =>
      obtain ⟨min, taken⟩ := result
      rw [hmin] at hcount
      have hbehind : (pattern.drop position).drop taken = pattern.drop (position + taken) :=
        List.drop_drop
      refine Yields.after hcount ?_
      cases hrest : pattern.drop (position + taken) with
      | nil =>
          rw [hrest] at hbehind
          rw [readBraces_other hmin]
          · exact .after (.atEnd hrest) .failure
          · intro b more hcons
            cases hbehind.symm.trans hcons
      | cons b more =>
          rw [hrest] at hbehind
          refine Yields.after (.atEnd hrest) (Yields.after (.peek hrest) ?_)
          split
          · rename_i hchar
            obtain rfl := Byte.eq_of_toChar hchar
            rw [readBraces_exactly hmin hbehind]
            exact .after (.pass hrest) (.pure _ _)
          · rename_i hchar
            obtain rfl := Byte.eq_of_toChar hchar
            rw [readBraces_comma hmin hbehind]
            have hupper := @yields_upper pattern groups (position + taken + 1) min
            rw [drop_add_of_drop hrest 1] at hupper
            refine Yields.after (.pass hrest) ?_
            change Yields pattern groups _ _ (counted none _ (readUpper min more)) at hupper
            cases hread : readUpper min more with
            | none =>
                rw [hread] at hupper
                exact hupper
            | some result =>
                rw [hread] at hupper
                change Yields pattern groups _ _ (.ok (_, _ + (taken + 1 + result.2)))
                rw [← Nat.add_assoc, ← Nat.add_assoc]
                exact hupper
          · rename_i hclosing hcomma
            rw [readBraces_other hmin]
            · exact .failure
            · intro b' more' hcons
              obtain ⟨rfl, -⟩ := List.cons.inj (hbehind.symm.trans hcons)
              exact ⟨hclosing, hcomma⟩

theorem yields_bounds (hrest : pattern.drop position = b :: rest) :
    Yields pattern groups (Descent.bounds pattern) position
      (counted (some ⟨.badBraceExpression, position⟩) (position + 1) (readBounds b rest)) := by
  refine Yields.after .cursor (Yields.after (.take hrest) ?_)
  have hbraces := @yields_braces pattern groups (position + 1)
  rw [drop_add_of_drop hrest 1] at hbraces
  dsimp only [Standing.forward]
  split
  · rename_i hchar
    obtain rfl := Byte.eq_of_toChar hchar
    exact .pure _ _
  · rename_i hchar
    obtain rfl := Byte.eq_of_toChar hchar
    exact .pure _ _
  · rename_i hchar
    obtain rfl := Byte.eq_of_toChar hchar
    exact .pure _ _
  · have hread : readBounds b rest = readBraces rest := by
      unfold readBounds
      split
      any_goals contradiction
      rfl
    rw [hread]
    exact .orElse hbraces fun stop => .refuse _ _

theorem yields_quantifier (hrest : pattern.drop position = b :: rest) :
    Yields pattern groups (Descent.quantifier pattern) position
      (counted (some ⟨.badBraceExpression, position⟩) (position + 1) (readQuantifier b rest)) := by
  have hbounds := @yields_bounds pattern rest groups position b hrest
  unfold readQuantifier
  cases hread : readBounds b rest with
  | none =>
      rw [hread] at hbounds
      exact hbounds.stopped
  | some result =>
      obtain ⟨⟨min, max⟩, taken⟩ := result
      rw [hread] at hbounds
      have hskip := @Runs.skip pattern ⟨position + 1 + taken, groups, none⟩ (rest.drop taken)
        (drop_behind_of_drop hrest taken) (·.toChar == '?')
      refine Yields.after hbounds (Yields.after hskip ?_)
      simp only [Option.bind_eq_bind, Option.bind_some]
      cases (rest.drop taken).head?.any (·.toChar == '?') with
      | true => exact .pure _ _
      | false => exact .pure _ _

end Quantifiers

end RegexSearch
