import Mathlib.Data.List.Perm.Basic
import RegexSearch.ByteSet

/-!
Normal forms of ranges. Inserting a range into ranges that are sorted with gaps keeps them so and
adds its bytes, and such a list is determined by the bytes in it. So the normal form of a list of
ranges depends on the bytes in them alone, not on their order or on how they overlap.
-/

namespace RegexSearch.ByteRange

/-- The ends of the range are not reversed. -/
def Ordered (range : ByteRange) : Prop :=
  range.low.toInt ≤ range.high.toInt

/-- Ranges that are not reversed, each with a gap to those behind it. -/
structure Normal (ranges : List ByteRange) : Prop where
  ordered : ∀ range ∈ ranges, range.Ordered
  gaps : ranges.Pairwise fun first second => first.high.toInt + 1 < second.low.toInt

/-- Some range of the list contains the value. -/
def Covers (ranges : List ByteRange) (value : Int8) : Prop :=
  ∃ range ∈ ranges, range.contains value = true

theorem contains_iff {range : ByteRange} {value : Int8} :
    range.contains value = true ↔
      range.low.toInt ≤ value.toInt ∧ value.toInt ≤ range.high.toInt := by
  simp [contains, Int8.le_iff_toInt_le]

theorem precedes_iff {first second : ByteRange} :
    first.precedes second = true ↔ first.high.toInt + 1 < second.low.toInt := by
  simp [precedes]

theorem covers_cons {range : ByteRange} {ranges : List ByteRange} {value : Int8} :
    Covers (range :: ranges) value ↔ range.contains value = true ∨ Covers ranges value := by
  simp [Covers]

theorem not_covers_nil (value : Int8) : ¬ Covers [] value := by
  simp [Covers]

theorem low_hull (first second : ByteRange) :
    (first.hull second).low.toInt = min first.low.toInt second.low.toInt := by
  change (if first.low ≤ second.low then first.low else second.low).toInt = _
  split <;> rename_i h <;> rw [Int8.le_iff_toInt_le] at h <;> omega

theorem high_hull (first second : ByteRange) :
    (first.hull second).high.toInt = max first.high.toInt second.high.toInt := by
  change (if first.high ≤ second.high then second.high else first.high).toInt = _
  split <;> rename_i h <;> rw [Int8.le_iff_toInt_le] at h <;> omega

theorem Ordered.hull {first second : ByteRange} (hfirst : first.Ordered)
    (hsecond : second.Ordered) : (first.hull second).Ordered := by
  unfold Ordered at hfirst hsecond ⊢
  rw [low_hull, high_hull]
  omega

/-- Ranges without a gap between them have no bytes between them either. -/
theorem contains_hull {first second : ByteRange} (hfirst : first.Ordered)
    (hsecond : second.Ordered) (hbefore : ¬ first.precedes second = true)
    (hbehind : ¬ second.precedes first = true) {value : Int8} :
    (first.hull second).contains value = true ↔
      first.contains value = true ∨ second.contains value = true := by
  rw [precedes_iff] at hbefore hbehind
  have hfirstEnds : first.low.toInt ≤ first.high.toInt := hfirst
  have hsecondEnds : second.low.toInt ≤ second.high.toInt := hsecond
  simp only [contains_iff, low_hull, high_hull]
  omega

/-! ### Inserting a range -/

theorem normal_nil : Normal [] := ⟨(fun _ hmem => nomatch hmem), .nil⟩

theorem normal_cons {range : ByteRange} {ranges : List ByteRange} :
    Normal (range :: ranges) ↔
      range.Ordered ∧ (∀ other ∈ ranges, range.high.toInt + 1 < other.low.toInt) ∧
        Normal ranges := by
  constructor
  · rintro ⟨hordered, hgaps⟩
    obtain ⟨hrange, hordered⟩ := List.forall_mem_cons.mp hordered
    obtain ⟨hgap, hgaps⟩ := List.pairwise_cons.mp hgaps
    exact ⟨hrange, hgap, hordered, hgaps⟩
  · rintro ⟨hrange, hgap, hordered, hgaps⟩
    exact ⟨List.forall_mem_cons.mpr ⟨hrange, hordered⟩, List.pairwise_cons.mpr ⟨hgap, hgaps⟩⟩

theorem covers_insert {range : ByteRange} {ranges : List ByteRange} (hrange : range.Ordered)
    (hranges : ∀ other ∈ ranges, other.Ordered) {value : Int8} :
    Covers (range.insert ranges) value ↔ range.contains value = true ∨ Covers ranges value := by
  induction ranges generalizing range with
  | nil => exact covers_cons
  | cons head rest ih =>
      obtain ⟨hhead, hrest⟩ := List.forall_mem_cons.mp hranges
      rw [insert]
      split
      · exact covers_cons
      · rename_i hbefore
        split
        · rw [covers_cons, ih hrange hrest, covers_cons]
          tauto
        · rename_i hbehind
          rw [ih (hrange.hull hhead) hrest, contains_hull hrange hhead hbefore hbehind, covers_cons,
            or_assoc]

/-- What lies below all ranges still does when another one above it is inserted. -/
theorem lt_low_of_mem_insert {bound : Int} {range : ByteRange} {ranges : List ByteRange}
    (hrange : bound < range.low.toInt) (hranges : ∀ other ∈ ranges, bound < other.low.toInt) :
    ∀ other ∈ range.insert ranges, bound < other.low.toInt := by
  induction ranges generalizing range with
  | nil => simpa [insert] using hrange
  | cons head rest ih =>
      obtain ⟨hhead, hrest⟩ := List.forall_mem_cons.mp hranges
      rw [insert]
      split
      · exact List.forall_mem_cons.mpr ⟨hrange, hranges⟩
      · split
        · exact List.forall_mem_cons.mpr ⟨hhead, ih hrange hrest⟩
        · apply ih _ hrest
          rw [low_hull]
          omega

theorem Normal.insert {range : ByteRange} {ranges : List ByteRange} (hranges : Normal ranges)
    (hrange : range.Ordered) : Normal (range.insert ranges) := by
  induction ranges generalizing range with
  | nil => exact normal_cons.mpr ⟨hrange, (fun _ hmem => nomatch hmem), normal_nil⟩
  | cons head rest ih =>
      obtain ⟨hhead, hgap, hrest⟩ := normal_cons.mp hranges
      rw [ByteRange.insert]
      split
      · rename_i hbefore
        rw [precedes_iff] at hbefore
        refine normal_cons.mpr ⟨hrange, List.forall_mem_cons.mpr ⟨hbefore, ?_⟩, hranges⟩
        intro other hmem
        have hother := hgap other hmem
        unfold Ordered at hhead
        omega
      · split
        · rename_i hbehind
          rw [precedes_iff] at hbehind
          exact normal_cons.mpr ⟨hhead, lt_low_of_mem_insert hbehind hgap, ih hrest hrange⟩
        · exact ih hrest (hrange.hull hhead)

/-! ### The normal form -/

theorem normal_normalize {ranges : List ByteRange} (h : ∀ range ∈ ranges, range.Ordered) :
    Normal (normalize ranges) := by
  induction ranges with
  | nil => exact normal_nil
  | cons range ranges ih =>
      obtain ⟨hrange, hranges⟩ := List.forall_mem_cons.mp h
      exact (ih hranges).insert hrange

theorem covers_normalize {ranges : List ByteRange} (h : ∀ range ∈ ranges, range.Ordered)
    {value : Int8} : Covers (normalize ranges) value ↔ Covers ranges value := by
  induction ranges with
  | nil => rfl
  | cons range ranges ih =>
      obtain ⟨hrange, hranges⟩ := List.forall_mem_cons.mp h
      have hinsert : normalize (range :: ranges) = range.insert (normalize ranges) := rfl
      rw [hinsert, covers_insert hrange (normal_normalize hranges).ordered, ih hranges, covers_cons]

theorem covers_low {range : ByteRange} (h : range.Ordered) (ranges : List ByteRange) :
    Covers (range :: ranges) range.low :=
  covers_cons.mpr (.inl (contains_iff.mpr ⟨Int.le_refl _, h⟩))

/-- Nothing below a list with gaps is covered by it. -/
theorem Normal.le_of_covers {range : ByteRange} {ranges : List ByteRange}
    (h : Normal (range :: ranges)) {value : Int8} (hvalue : Covers (range :: ranges) value) :
    range.low.toInt ≤ value.toInt ∧ (range.high.toInt < value.toInt →
      range.high.toInt + 1 < value.toInt) := by
  obtain ⟨hrange, hgap, -⟩ := normal_cons.mp h
  obtain ⟨other, hmem, hother⟩ := hvalue
  rw [contains_iff] at hother
  unfold Ordered at hrange
  rcases List.mem_cons.mp hmem with rfl | hmem
  · omega
  · have hbefore := hgap other hmem
    omega

/-- The first ranges of two lists with the same bytes end at the same byte. -/
theorem Normal.high_le {range other : ByteRange} {ranges others : List ByteRange}
    (h : Normal (range :: ranges)) (hother : other.Ordered)
    (hcovers : ∀ value, Covers (other :: others) value → Covers (range :: ranges) value)
    (hlow : range.low = other.low) : other.high.toInt ≤ range.high.toInt := by
  by_contra hlt
  have hrange : range.low.toInt ≤ range.high.toInt := (normal_cons.mp h).1
  have hotherEnds : other.low.toInt ≤ other.high.toInt := hother
  have hbound := other.high.toInt_le
  have hmax : Int8.maxValue.toInt = 127 := rfl
  have hbelow := range.high.le_toInt
  have hnext : (Int8.ofInt (range.high.toInt + 1)).toInt = range.high.toInt + 1 := by
    rw [Int8.toInt_ofInt_of_le] <;> omega
  have hin : other.contains (Int8.ofInt (range.high.toInt + 1)) = true := by
    rw [contains_iff, hnext, ← hlow]
    omega
  have hgap := (h.le_of_covers (hcovers _ (covers_cons.mpr (.inl hin)))).2
  rw [hnext] at hgap
  omega

theorem Normal.covers_tail {range : ByteRange} {ranges : List ByteRange}
    (h : Normal (range :: ranges)) {value : Int8} :
    Covers ranges value ↔ Covers (range :: ranges) value ∧ ¬ range.contains value = true := by
  obtain ⟨hrange, hgap, -⟩ := normal_cons.mp h
  rw [covers_cons]
  constructor
  · rintro ⟨other, hmem, hother⟩
    refine ⟨.inr ⟨other, hmem, hother⟩, ?_⟩
    have hbefore := hgap other hmem
    rw [contains_iff] at hother ⊢
    unfold Ordered at hrange
    omega
  · rintro ⟨hin | hcovers, hout⟩
    · exact absurd hin hout
    · exact hcovers

/-- Lists in normal form with the same bytes are equal. -/
theorem Normal.eq_of_covers {ranges others : List ByteRange} (h : Normal ranges)
    (hothers : Normal others) (hcovers : ∀ value, Covers ranges value ↔ Covers others value) :
    ranges = others := by
  induction ranges generalizing others with
  | nil =>
      cases others with
      | nil => rfl
      | cons other others =>
          have hlow := covers_low (normal_cons.mp hothers).1 others
          exact absurd ((hcovers other.low).mpr hlow) (not_covers_nil _)
  | cons range ranges ih =>
      have hrange := (normal_cons.mp h).1
      have hrangeLow := covers_low hrange ranges
      cases others with
      | nil => exact absurd ((hcovers range.low).mp hrangeLow) (not_covers_nil _)
      | cons other others =>
          have hother := (normal_cons.mp hothers).1
          have hotherLow := covers_low hother others
          have hlow : range.low = other.low := by
            apply Int8.toInt_inj.mp
            exact Int.le_antisymm (h.le_of_covers ((hcovers _).mpr hotherLow)).1
              (hothers.le_of_covers ((hcovers _).mp hrangeLow)).1
          have hhigh : range.high = other.high := by
            apply Int8.toInt_inj.mp
            exact Int.le_antisymm
              (hothers.high_le hrange (fun value => (hcovers value).mp) hlow.symm)
              (h.high_le hother (fun value => (hcovers value).mpr) hlow)
          obtain rfl : range = other := by
            cases range
            cases other
            cases hlow
            cases hhigh
            rfl
          rw [ih (normal_cons.mp h).2.2 (normal_cons.mp hothers).2.2]
          intro value
          rw [h.covers_tail, hothers.covers_tail, hcovers]

/-- The normal form does not depend on the order of the ranges. -/
theorem normalize_perm {ranges others : List ByteRange} (hperm : ranges.Perm others)
    (h : ∀ range ∈ ranges, range.Ordered) : normalize ranges = normalize others := by
  have hothers : ∀ range ∈ others, range.Ordered :=
    fun range hmem => h range (hperm.mem_iff.mpr hmem)
  apply (normal_normalize h).eq_of_covers (normal_normalize hothers)
  intro value
  rw [covers_normalize h, covers_normalize hothers]
  simp only [Covers, hperm.mem_iff]

end RegexSearch.ByteRange
