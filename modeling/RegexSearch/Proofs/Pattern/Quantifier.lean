import Mathlib.Data.List.TakeWhile
import RegexSearch.Proofs.Pattern.Escape

/-!
How quantifiers are read. A count is a maximal run of digits, so the byte behind it is none, and
the byte behind the count tells which of the three forms in braces is meant.
-/

namespace RegexSearch

theorem readCount_iff {bytes : Bytes} {number taken : Nat} :
    readCount bytes = some (number, taken) ↔
      ∃ count following, bytes = count ++ following ∧ IsCount count ∧
        following.takeWhile Byte.isDigit = [] ∧ number = digitsValue count ∧
        taken = count.length := by
  have hread (count : Bytes) (hcount : bytes.takeWhile Byte.isDigit = count) :
      readCount bytes = some (number, taken) ↔
        count ≠ [] ∧ digitsValue count ≤ maxRepeatCount ∧ number = digitsValue count ∧
          taken = count.length := by
    unfold readCount
    dsimp only
    rw [hcount]
    split
    · rename_i hrefused
      simp only [reduceCtorEq, false_iff]
      rintro ⟨hne, hle, -⟩
      simp [hne] at hrefused
      omega
    · rename_i haccepted
      simp only [Bool.or_eq_true, List.isEmpty_iff, decide_eq_true_eq, not_or, Nat.not_lt]
        at haccepted
      simp [haccepted, eq_comm]
  constructor
  · intro h
    obtain ⟨hne, hle, hnumber, htaken⟩ := (hread _ rfl).mp h
    refine ⟨_, _, List.takeWhile_append_dropWhile.symm, ⟨hne, ?_, hle⟩, ?_, hnumber, htaken⟩
    · intro digit hmem
      exact List.mem_takeWhile_imp hmem
    · exact List.takeWhile_eq_nil_iff.mpr (List.dropWhile_get_zero_not _ _)
  · rintro ⟨count, following, rfl, hcount, hstops, hnumber, htaken⟩
    refine (hread count ?_).mpr ⟨hcount.ne_nil, hcount.le, hnumber, htaken⟩
    rw [List.takeWhile_append_of_pos hcount.digits, hstops, List.append_nil]

/-- A count ends at a byte that is no digit. -/
theorem readCount_append {count : Bytes} (h : IsCount count) {b : Byte}
    (hb : b.isDigit = false) (rest : Bytes) :
    readCount (count ++ b :: rest) = some (digitsValue count, count.length) :=
  readCount_iff.mpr ⟨count, b :: rest, rfl, h, by simp [hb], rfl, rfl⟩

/-- What stands in braces is read just as the grammar has it. -/
theorem readBraces_iff {bytes : Bytes} {bounds : Nat × Option Nat} {taken : Nat} :
    readBraces bytes = some (bounds, taken) ↔
      ∃ (written : Bounds) (following : Bytes), '{'.toUInt8 :: bytes = written.word ++ following ∧
        written.Valid ∧ bounds = (written.min, written.max) ∧
        taken + 1 = written.word.length := by
  constructor
  · intro h
    unfold readBraces at h
    obtain ⟨⟨min, digits⟩, hmin, h⟩ := Option.bind_eq_some_iff.mp h
    obtain ⟨low, following, rfl, hlow, -, rfl, rfl⟩ := readCount_iff.mp hmin
    dsimp only at h
    rw [List.drop_left] at h
    split at h
    · rename_i hclosing
      cases h
      cases following with
      | nil => cases hclosing
      | cons b rest =>
          obtain rfl := Byte.eq_of_toChar (List.cons.inj hclosing).1
          exact ⟨.exactly low, rest, by simp [Bounds.word], hlow, rfl, by simp [Bounds.word]⟩
    · rename_i hclosing
      cases h
      match following, hclosing with
      | [_], hclosing => simp at hclosing
      | comma :: brace :: rest, hclosing =>
          obtain ⟨hcomma, hbrace⟩ := List.cons.inj hclosing
          obtain rfl := Byte.eq_of_toChar hcomma
          obtain rfl := Byte.eq_of_toChar (List.cons.inj hbrace).1
          exact ⟨.atLeast low, rest, by simp [Bounds.word], hlow, rfl, by simp [Bounds.word]⟩
    · rename_i hcomma
      cases following with
      | nil => cases hcomma
      | cons comma following =>
          obtain rfl := Byte.eq_of_toChar (List.cons.inj hcomma).1
          obtain ⟨⟨max, more⟩, hmax, h⟩ := Option.bind_eq_some_iff.mp h
          obtain ⟨high, behind, hbehind, hhigh, -, rfl, rfl⟩ := readCount_iff.mp hmax
          obtain rfl : following = high ++ behind := hbehind
          rw [Nat.add_comm 1, List.drop_succ_cons, List.drop_left] at h
          dsimp only at h
          split at h
          · rename_i hbounds
            cases h
            obtain ⟨hbrace, hle⟩ := Bool.and_eq_true_iff.mp hbounds
            rw [head?_any_toChar_iff (by decide), List.head?_eq_some_iff] at hbrace
            obtain ⟨rest, rfl⟩ := hbrace
            refine ⟨.between low high, rest, by simp [Bounds.word],
              ⟨hlow, hhigh, of_decide_eq_true hle⟩, rfl, ?_⟩
            simp [Bounds.word]
            omega
          · cases h
    · cases h
  · rintro ⟨written, following, hbytes, hvalid, rfl, htaken⟩
    cases written with
    | star => cases (List.cons.inj hbytes).1
    | plus => cases (List.cons.inj hbytes).1
    | option => cases (List.cons.inj hbytes).1
    | exactly count =>
        obtain rfl : bytes = count ++ '}'.toUInt8 :: following := by
          simpa [Bounds.word] using hbytes
        have htaken : taken = count.length + 1 := by simpa [Bounds.word] using htaken
        have hcount := @readCount_append count hvalid '}'.toUInt8 (by decide) following
        simp only [readBraces, hcount, htaken,
          Option.bind_eq_bind, Option.bind_some, List.drop_left]
        cases following <;> rfl
    | atLeast count =>
        obtain rfl : bytes = count ++ ','.toUInt8 :: '}'.toUInt8 :: following := by
          simpa [Bounds.word] using hbytes
        have htaken : taken = count.length + 2 := by simpa [Bounds.word] using htaken
        have hcount := @readCount_append count hvalid ','.toUInt8 (by decide)
          ('}'.toUInt8 :: following)
        simp only [readBraces, hcount, htaken,
          Option.bind_eq_bind, Option.bind_some, List.drop_left]
        rfl
    | between low high =>
        obtain rfl : bytes = low ++ ','.toUInt8 :: (high ++ '}'.toUInt8 :: following) := by
          simpa [Bounds.word] using hbytes
        obtain ⟨hlow, hhigh, hle⟩ := hvalid
        have htaken : taken = low.length + 1 + high.length + 1 := by
          simp [Bounds.word] at htaken
          omega
        have hlower := @readCount_append low hlow ','.toUInt8 (by decide)
          (high ++ '}'.toUInt8 :: following)
        have hupper := @readCount_append high hhigh '}'.toUInt8 (by decide) following
        simp only [readBraces, hlower, htaken,
          Option.bind_eq_bind, Option.bind_some, List.drop_left]
        split
        · rename_i hchars
          cases (List.cons.inj hchars).1
        · rename_i hchars
          obtain ⟨digit, rest, rfl⟩ := List.exists_cons_of_ne_nil hhigh.ne_nil
          have hdigit := hhigh.digits digit List.mem_cons_self
          obtain rfl := Byte.eq_of_toChar (List.cons.inj (List.cons.inj hchars).2).1
          cases hdigit
        · rw [List.drop_succ_cons, List.drop_zero, hupper, Option.bind_some, Nat.add_comm 1,
            List.drop_succ_cons, List.drop_left]
          exact if_pos (Bool.and_eq_true_iff.mpr ⟨rfl, decide_eq_true hle⟩)
        · rename_i hother
          exact absurd rfl (hother _)

theorem readBounds_iff {b : Byte} {rest : Bytes} {bounds : Nat × Option Nat} {taken : Nat}
    (hb : b.isQuantifier = true) :
    readBounds b rest = some (bounds, taken) ↔
      ∃ (written : Bounds) (following : Bytes), b :: rest = written.word ++ following ∧
        written.Valid ∧ bounds = (written.min, written.max) ∧
        taken + 1 = written.word.length := by
  constructor
  · intro h
    unfold readBounds at h
    split at h
    · rename_i hchar
      obtain rfl := Byte.eq_of_toChar hchar
      cases h
      exact ⟨.star, rest, rfl, trivial, rfl, rfl⟩
    · rename_i hchar
      obtain rfl := Byte.eq_of_toChar hchar
      cases h
      exact ⟨.plus, rest, rfl, trivial, rfl, rfl⟩
    · rename_i hchar
      obtain rfl := Byte.eq_of_toChar hchar
      cases h
      exact ⟨.option, rest, rfl, trivial, rfl, rfl⟩
    · rename_i hstar hplus hoption
      have hbrace : b = '{'.toUInt8 := by
        unfold Byte.isQuantifier at hb
        split at hb
        · rename_i hchar
          exact absurd hchar hstar
        · rename_i hchar
          exact absurd hchar hplus
        · rename_i hchar
          exact absurd hchar hoption
        · rename_i hchar
          exact Byte.eq_of_toChar hchar
        · cases hb
      rw [hbrace]
      exact readBraces_iff.mp h
  · rintro ⟨written, following, hbytes, hvalid, rfl, htaken⟩
    have hbraces (hb : b = '{'.toUInt8) :
        readBounds b rest = some ((written.min, written.max), taken) := by
      subst hb
      exact readBraces_iff.mpr ⟨written, following, hbytes, hvalid, rfl, htaken⟩
    cases written with
    | star =>
        obtain ⟨rfl, rfl⟩ := List.cons.inj hbytes
        cases htaken
        rfl
    | plus =>
        obtain ⟨rfl, rfl⟩ := List.cons.inj hbytes
        cases htaken
        rfl
    | option =>
        obtain ⟨rfl, rfl⟩ := List.cons.inj hbytes
        cases htaken
        rfl
    | exactly count => exact hbraces (List.cons.inj hbytes).1
    | atLeast count => exact hbraces (List.cons.inj hbytes).1
    | between low high => exact hbraces (List.cons.inj hbytes).1

/-- A quantifier is read just as the grammar has it. A question mark behind the bounds always
belongs to the quantifier. -/
theorem readQuantifier_iff {b : Byte} {rest : Bytes} {times : Quantifier} {taken : Nat}
    (hb : b.isQuantifier = true) :
    readQuantifier b rest = some (times, taken) ↔
      ∃ (suffix : Suffix) (following : Bytes), b :: rest = suffix.word ++ following ∧
        suffix.bounds.Valid ∧ (suffix.greedy = true → following.head? ≠ some '?'.toUInt8) ∧
        times = suffix.times ∧ taken + 1 = suffix.word.length := by
  constructor
  · intro h
    unfold readQuantifier at h
    obtain ⟨⟨⟨min, max⟩, count⟩, hbounds, h⟩ := Option.bind_eq_some_iff.mp h
    obtain ⟨written, following, hbytes, hvalid, hwritten, hcount⟩ := (readBounds_iff hb).mp hbounds
    cases hwritten
    dsimp only at h
    rw [drop_of_cons_eq_append hbytes hcount] at h
    split at h
    · rename_i hlazy
      rw [head?_any_toChar_iff (by decide), List.head?_eq_some_iff] at hlazy
      obtain ⟨behind, rfl⟩ := hlazy
      cases h
      refine ⟨⟨written, false⟩, behind, ?_, hvalid, nofun, rfl, ?_⟩
      · simp [Suffix.word, hbytes]
      · simp [Suffix.word, ← hcount]
    · rename_i hgreedy
      rw [head?_any_toChar_iff (by decide)] at hgreedy
      cases h
      refine ⟨⟨written, true⟩, following, ?_, hvalid, fun _ => hgreedy, rfl, ?_⟩
      · simp [Suffix.word, hbytes]
      · simp [Suffix.word, ← hcount]
  · rintro ⟨⟨written, greedy⟩, following, hbytes, hvalid, hgreedy, rfl, htaken⟩
    rw [Suffix.word, List.append_assoc] at hbytes
    rw [Suffix.word, List.length_append] at htaken
    obtain ⟨count, hcount⟩ : ∃ count, count + 1 = written.word.length := by
      cases written <;> exact ⟨_, rfl⟩
    have hbounds := (readBounds_iff hb).mpr ⟨written, _, hbytes, hvalid, rfl, hcount⟩
    have hlazy := @head?_any_toChar_iff (rest.drop count) '?' (by decide)
    unfold readQuantifier
    rw [hbounds]
    simp only [Option.bind_eq_bind, Option.bind_some, drop_of_cons_eq_append hbytes hcount]
      at hlazy ⊢
    cases greedy with
    | true =>
        obtain rfl : taken = count := by
          simp at htaken
          omega
        have hstops : ¬ List.head? following = some '?'.toUInt8 := hgreedy rfl
        exact if_neg (hlazy.not.mpr hstops)
    | false =>
        obtain rfl : taken = count + 1 := by
          simp at htaken
          omega
        exact if_pos (hlazy.mpr rfl)

namespace Suffix

theorem exists_head (suffix : Suffix) :
    ∃ b rest, suffix.word = b :: rest ∧ b.isQuantifier = true := by
  unfold word
  cases suffix.bounds <;> exact ⟨_, _, rfl, rfl⟩

theorem readQuantifier_word {suffix : Suffix} (h : suffix.bounds.Valid) {b : Byte}
    {rest following : Bytes} (hword : suffix.word = b :: rest)
    (hgreedy : suffix.greedy = true → following.head? ≠ some '?'.toUInt8) :
    readQuantifier b (rest ++ following) = some (suffix.times, rest.length) := by
  obtain ⟨first, tail, hfirst, hb⟩ := suffix.exists_head
  obtain ⟨rfl, rfl⟩ := List.cons.inj (hword.symm.trans hfirst)
  exact (readQuantifier_iff hb).mpr
    ⟨suffix, following, by rw [hword]; rfl, h, hgreedy, rfl, by rw [hword]; rfl⟩

end Suffix

end RegexSearch
