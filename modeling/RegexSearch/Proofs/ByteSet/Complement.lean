import RegexSearch.Proofs.ByteSet

/-!
Complements of ranges. The gaps between ranges in normal form cover what the ranges leave out, and
they are in normal form themselves, since a range separates any two of them. As a normal form is
determined by what it covers, the complement of the complement is the normal form of the ranges.
-/

namespace RegexSearch.ByteRange

theorem toInt_ofInt {n : Int} (hlow : -128 ≤ n) (hhigh : n ≤ 127) : (Int8.ofInt n).toInt = n :=
  Int8.toInt_ofInt_of_le hlow (Int.lt_add_one_of_le hhigh)

theorem least_le (value : Int8) : -128 ≤ value.toInt :=
  value.le_toInt

theorem le_largest (value : Int8) : value.toInt ≤ 127 :=
  value.toInt_le

/-- The gaps between ranges are what the ranges leave out. -/
theorem covers_gapsFrom {ranges : List ByteRange} (hranges : Normal ranges) {next : Int}
    (hnext : -128 ≤ next) (hbelow : ∀ range ∈ ranges, next ≤ range.low.toInt) {value : Int8} :
    Covers (gapsFrom next ranges) value ↔ next ≤ value.toInt ∧ ¬ Covers ranges value := by
  have hvalue := le_largest value
  induction ranges generalizing next with
  | nil =>
      rw [gapsFrom]
      split
      · rename_i hroom
        have hhigh : Int8.toInt 127 = 127 := rfl
        simp only [covers_cons, contains_iff, toInt_ofInt hnext hroom, hhigh, not_covers_nil,
          or_false, not_false_eq_true, and_true]
        omega
      · rename_i hfull
        simp only [not_covers_nil, not_false_eq_true, and_true, false_iff]
        omega
  | cons range ranges ih =>
      obtain ⟨hordered, hgap, hrest⟩ := normal_cons.mp hranges
      unfold Ordered at hordered
      have hlow := hbelow range List.mem_cons_self
      have hlargest := le_largest range.low
      have hbehind : Covers (gapsFrom (range.high.toInt + 1) ranges) value ↔
          range.high.toInt + 1 ≤ value.toInt ∧ ¬ Covers ranges value :=
        ih hrest (by omega) fun other hmem => Int.le_of_lt (hgap other hmem)
      rw [gapsFrom, covers_cons, contains_iff]
      split
      · rename_i hroom
        rw [covers_cons, contains_iff, toInt_ofInt hnext (by omega),
          toInt_ofInt (by omega) (by omega), hbehind]
        by_cases hcovered : Covers ranges value
        · -- What the ranges behind cover lies above this one.
          have habove := hcovered
          obtain ⟨other, hmem, hother⟩ := habove
          have hlater := hgap other hmem
          rw [contains_iff] at hother
          simp only [hcovered, not_true_eq_false, and_false, or_true, or_false, iff_false]
          omega
        · simp only [hcovered, not_false_eq_true, and_true, or_false]
          omega
      · rename_i hroom
        rw [hbehind]
        by_cases hcovered : Covers ranges value
        · simp [hcovered]
        · simp only [hcovered, not_false_eq_true, and_true, or_false]
          omega

/-- No gap begins before the value from which on they are looked for. -/
theorem le_low_of_mem_gapsFrom {ranges : List ByteRange} (hranges : Normal ranges) {next : Int}
    (hnext : -128 ≤ next) (hbelow : ∀ range ∈ ranges, next ≤ range.low.toInt) :
    ∀ gap ∈ gapsFrom next ranges, next ≤ gap.low.toInt := by
  induction ranges generalizing next with
  | nil =>
      intro gap hgap
      rw [gapsFrom] at hgap
      split at hgap
      · rename_i hroom
        obtain rfl := List.mem_singleton.mp hgap
        exact Int.le_of_eq (toInt_ofInt hnext hroom).symm
      · cases hgap
  | cons range ranges ih =>
      obtain ⟨hordered, hgaps, hrest⟩ := normal_cons.mp hranges
      have hends : range.low.toInt ≤ range.high.toInt := hordered
      have hlow := hbelow range List.mem_cons_self
      have hlargest := le_largest range.low
      have hbehind : ∀ gap ∈ gapsFrom (range.high.toInt + 1) ranges,
          range.high.toInt + 1 ≤ gap.low.toInt :=
        ih hrest (by omega) fun other hmem => Int.le_of_lt (hgaps other hmem)
      intro gap hgap
      rw [gapsFrom] at hgap
      split at hgap
      · rcases List.mem_cons.mp hgap with rfl | hgap
        · exact Int.le_of_eq (toInt_ofInt hnext (by omega)).symm
        · have hlater := hbehind gap hgap
          omega
      · have hlater := hbehind gap hgap
        omega

/-- Gaps between ranges in normal form are in normal form. -/
theorem normal_gapsFrom {ranges : List ByteRange} (hranges : Normal ranges) {next : Int}
    (hnext : -128 ≤ next) (hbelow : ∀ range ∈ ranges, next ≤ range.low.toInt) :
    Normal (gapsFrom next ranges) := by
  induction ranges generalizing next with
  | nil =>
      rw [gapsFrom]
      split
      · rename_i hroom
        have hordered : Ordered ⟨Int8.ofInt next, 127⟩ := by
          change (Int8.ofInt next).toInt ≤ 127
          rwa [toInt_ofInt hnext hroom]
        exact normal_cons.mpr ⟨hordered, (fun _ hmem => nomatch hmem), normal_nil⟩
      · exact normal_nil
  | cons range ranges ih =>
      obtain ⟨hordered, hgaps, hrest⟩ := normal_cons.mp hranges
      have hends : range.low.toInt ≤ range.high.toInt := hordered
      have hlow := hbelow range List.mem_cons_self
      have hlargest := le_largest range.low
      have hstart : -128 ≤ range.high.toInt + 1 := by omega
      have hbehind : ∀ other ∈ ranges, range.high.toInt + 1 ≤ other.low.toInt :=
        fun other hmem => Int.le_of_lt (hgaps other hmem)
      have hnormal := ih hrest hstart hbehind
      rw [gapsFrom]
      split
      · have hlast : (Int8.ofInt (range.low.toInt - 1)).toInt = range.low.toInt - 1 :=
          toInt_ofInt (by omega) (by omega)
        refine normal_cons.mpr ⟨?_, ?_, hnormal⟩
        · change (Int8.ofInt next).toInt ≤ (Int8.ofInt (range.low.toInt - 1)).toInt
          rw [toInt_ofInt hnext (by omega), hlast]
          omega
        · -- The range itself separates this gap from the next one.
          intro gap hgap
          have hlater := le_low_of_mem_gapsFrom hrest hstart hbehind gap hgap
          dsimp only
          omega
      · exact hnormal

section Complement

variable {ranges : List ByteRange} (h : ∀ range ∈ ranges, range.Ordered)

include h

/-- The complement of ranges covers what they do not. -/
theorem covers_complement {value : Int8} :
    Covers (complement ranges) value ↔ ¬ Covers ranges value := by
  rw [complement, covers_gapsFrom (normal_normalize h) (Int.le_refl _)
    (fun range _ => least_le range.low), covers_normalize h]
  simp [least_le value]

theorem normal_complement : Normal (complement ranges) :=
  normal_gapsFrom (normal_normalize h) (Int.le_refl _) fun range _ => least_le range.low

/-- The complement of the complement has the members of the ranges, in normal form. -/
theorem complement_complement : complement (complement ranges) = normalize ranges := by
  have hordered := (normal_complement h).ordered
  apply (normal_complement hordered).eq_of_covers (normal_normalize h)
  intro value
  rw [covers_complement hordered, covers_complement h, covers_normalize h, not_not]

end Complement

end RegexSearch.ByteRange
