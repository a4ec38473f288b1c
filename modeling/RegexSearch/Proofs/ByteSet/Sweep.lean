import RegexSearch.Proofs.ByteSet.Complement

/-!
Normal forms and complements in one pass. If ranges are sorted by their low ends, in any order among
those with the same one, then a range can touch only the range that was kept last, so that joining
each one to it, or keeping it apart, gives the normal form. The complement takes another pass, which
looks for the gap in front of each range. Both passes work on signed bytes. They look one value up
or down only where there is such a value: each sum and difference that they form is checked here,
and none is out of bounds, whatever the ranges at the ends of the order are.
-/

namespace RegexSearch.ByteRange

/-- An integer as a signed byte, if it is the value of one. -/
def signed? (n : Int) : Option Int8 :=
  if -128 ≤ n ∧ n ≤ 127 then some (Int8.ofInt n) else none

/-- Whether a range overlaps or touches another one that begins no later. Nothing touches the
largest value from above. -/
def touches? (last range : ByteRange) : Option Bool :=
  if range.low ≤ last.high then some true
  else if last.high = 127 then some false
  else (signed? (last.high.toInt + 1)).map (range.low == ·)

/-- Joins each range to the last one kept if it touches that, and keeps it if not. -/
def joinFrom? (last : ByteRange) : List ByteRange → Option (List ByteRange)
  | [] => some [last]
  | range :: rest => do
    if ← last.touches? range then joinFrom? ⟨last.low, max last.high range.high⟩ rest
    else return last :: (← joinFrom? range rest)

/-- The normal form of sorted ranges, in one pass. -/
def join? : List ByteRange → Option (List ByteRange)
  | [] => some []
  | first :: rest => joinFrom? first rest

/-- What lies from the value `next` on in front of a range. -/
def gapBefore? (next : Int8) (range : ByteRange) : Option (List ByteRange) :=
  if next < range.low then (signed? (range.low.toInt - 1)).map fun high => [⟨next, high⟩]
  else some []

/-- The gaps between ranges from the value `next` on. Behind the largest value there is none. -/
def gaps? (next : Int8) : List ByteRange → Option (List ByteRange)
  | [] => some [⟨next, 127⟩]
  | range :: rest => do
    let before ← gapBefore? next range
    if range.high = 127 then return before
    else
      let behind ← gaps? (← signed? (range.high.toInt + 1)) rest
      return before ++ behind

/-- The complement of sorted ranges, in two passes. -/
def joinedGaps? (sorted : List ByteRange) : Option (List ByteRange) := do
  gaps? (-128) (← join? sorted)

/-- Ranges in the order of their low ends. -/
def Sorted (ranges : List ByteRange) : Prop :=
  ranges.Pairwise fun first second => first.low ≤ second.low

theorem signed?_eq {n : Int} (hlow : -128 ≤ n) (hhigh : n ≤ 127) :
    signed? n = some (Int8.ofInt n) :=
  if_pos ⟨hlow, hhigh⟩

theorem toInt_lt_of_ne_largest {value : Int8} (h : value ≠ 127) : value.toInt < 127 := by
  apply Int.lt_iff_le_and_ne.mpr
  refine ⟨le_largest value, ?_⟩
  intro heq
  exact h (Int8.toInt_inj.mp heq)

/-! ### The first pass -/

/-- Two ranges, the first of which begins no later, touch unless the first precedes the second. -/
theorem touches?_eq (last range : ByteRange) :
    last.touches? range = some (!last.precedes range) := by
  have hleast := least_le last.high
  unfold touches?
  split
  · rename_i hle
    rw [Int8.le_iff_toInt_le] at hle
    have hjoined : last.precedes range = false := by
      rw [← Bool.not_eq_true, precedes_iff]
      omega
    rw [hjoined]
    rfl
  · rename_i habove
    rw [Int8.le_iff_toInt_le] at habove
    split
    · rename_i hlast
      have hrange := le_largest range.low
      have hlargest : last.high.toInt = 127 := by
        rw [hlast]
        rfl
      omega
    · rename_i hlast
      have hroom := toInt_lt_of_ne_largest hlast
      have hnext : (Int8.ofInt (last.high.toInt + 1)).toInt = last.high.toInt + 1 :=
        toInt_ofInt (by omega) (by omega)
      rw [signed?_eq (by omega) (by omega), Option.map_some, Option.some.injEq]
      rw [Bool.eq_iff_iff, beq_iff_eq, ← Int8.toInt_inj, hnext, Bool.not_eq_true',
        ← Bool.not_eq_true, precedes_iff]
      omega

/-- Joining to the last range kept is what the hull does, if that begins no later. -/
theorem hull_eq {last range : ByteRange} (h : last.low ≤ range.low) :
    last.hull range = ⟨last.low, max last.high range.high⟩ := by
  have hlow : min last.low range.low = last.low := if_pos h
  rw [hull, hlow]

/-- The first pass gives ranges in normal form that cover what it was given, from the low end of the
range that it begins with. -/
theorem exists_joinFrom? {last : ByteRange} {rest : List ByteRange}
    (hsorted : Sorted (last :: rest)) (hordered : ∀ range ∈ last :: rest, range.Ordered) :
    ∃ joined, joinFrom? last rest = some joined ∧ Normal joined ∧
      (∀ range ∈ joined, last.low.toInt ≤ range.low.toInt) ∧
      ∀ value, Covers joined value ↔ Covers (last :: rest) value := by
  induction rest generalizing last with
  | nil =>
      have hlast := hordered last List.mem_cons_self
      refine ⟨[last], rfl, ?_, ?_, fun _ => Iff.rfl⟩
      · exact normal_cons.mpr ⟨hlast, (fun _ hmem => nomatch hmem), normal_nil⟩
      · exact List.forall_mem_singleton.mpr (Int.le_refl _)
  | cons range rest ih =>
      obtain ⟨hfirst, hrest⟩ := List.pairwise_cons.mp hsorted
      obtain ⟨hle, hbehind⟩ := List.forall_mem_cons.mp hfirst
      obtain ⟨hlast, hothers⟩ := List.forall_mem_cons.mp hordered
      obtain ⟨hrange, hrestOrdered⟩ := List.forall_mem_cons.mp hothers
      rw [joinFrom?, touches?_eq]
      cases hprecedes : last.precedes range with
      | true =>
          obtain ⟨joined, hjoined, hnormal, hlow, hcovers⟩ := ih hrest hothers
          rw [precedes_iff] at hprecedes
          refine ⟨last :: joined, by simp [hjoined], ?_, ?_, ?_⟩
          · refine normal_cons.mpr ⟨hlast, ?_, hnormal⟩
            intro other hmem
            have hother := hlow other hmem
            omega
          · have hends : last.low.toInt ≤ last.high.toInt := hlast
            refine List.forall_mem_cons.mpr ⟨Int.le_refl _, ?_⟩
            intro other hmem
            have hother := hlow other hmem
            omega
          · intro value
            rw [covers_cons, hcovers]
            exact covers_cons.symm
      | false =>
          -- The hull begins where the last range does, so what follows is still sorted behind it.
          have hsortedHull : Sorted (last.hull range :: rest) := by
            refine List.pairwise_cons.mpr ⟨?_, (List.pairwise_cons.mp hrest).2⟩
            rw [hull_eq hle]
            exact hbehind
          have hhullOrdered : ∀ other ∈ last.hull range :: rest, other.Ordered :=
            List.forall_mem_cons.mpr ⟨hlast.hull hrange, hrestOrdered⟩
          obtain ⟨joined, hjoined, hnormal, hlow, hcovers⟩ := ih hsortedHull hhullOrdered
          rw [hull_eq hle] at hjoined hlow
          refine ⟨joined, by simp [hjoined], hnormal, hlow, ?_⟩
          intro value
          have hbefore : ¬ last.precedes range = true := Bool.not_eq_true _ ▸ hprecedes
          have hnotBehind : ¬ range.precedes last = true := by
            rw [precedes_iff]
            rw [Int8.le_iff_toInt_le] at hle
            have hends : range.low.toInt ≤ range.high.toInt := hrange
            omega
          rw [hcovers, covers_cons, contains_hull hlast hrange hbefore hnotBehind, covers_cons,
            covers_cons, or_assoc]

/-- One pass over sorted ranges gives their normal form. -/
theorem join?_eq {sorted ranges : List ByteRange} (hperm : sorted.Perm ranges)
    (hsorted : Sorted sorted) (h : ∀ range ∈ ranges, range.Ordered) :
    join? sorted = some (normalize ranges) := by
  have hordered : ∀ range ∈ sorted, range.Ordered :=
    fun range hmem => h range (hperm.mem_iff.mp hmem)
  rw [← normalize_perm hperm hordered]
  cases sorted with
  | nil => rfl
  | cons first rest =>
      obtain ⟨joined, hjoined, hnormal, -, hcovers⟩ := exists_joinFrom? hsorted hordered
      have heq : joined = normalize (first :: rest) := by
        apply hnormal.eq_of_covers (normal_normalize hordered)
        intro value
        rw [hcovers, covers_normalize hordered]
      rw [join?, hjoined, heq]

/-! ### The second pass -/

theorem gapBefore?_eq (next : Int8) (range : ByteRange) :
    gapBefore? next range = some (if next.toInt < range.low.toInt then
      [⟨Int8.ofInt next.toInt, Int8.ofInt (range.low.toInt - 1)⟩] else []) := by
  have hnext := least_le next
  have hlow := le_largest range.low
  unfold gapBefore?
  by_cases hroom : next < range.low
  · rw [if_pos hroom]
    rw [Int8.lt_iff_toInt_lt] at hroom
    rw [if_pos hroom, signed?_eq (by omega) (by omega), Int8.ofInt_toInt]
    rfl
  · rw [if_neg hroom]
    rw [Int8.lt_iff_toInt_lt] at hroom
    rw [if_neg hroom]

/-- Signed bytes are enough for the gaps between ranges in normal form. -/
theorem gaps?_eq {ranges : List ByteRange} (hnormal : Normal ranges) (next : Int8) :
    gaps? next ranges = some (gapsFrom next.toInt ranges) := by
  induction ranges generalizing next with
  | nil => rw [gaps?, gapsFrom, if_pos (le_largest next), Int8.ofInt_toInt]
  | cons range rest ih =>
      obtain ⟨-, hgaps, hrest⟩ := normal_cons.mp hnormal
      have hleast := least_le range.high
      rw [gaps?, gapBefore?_eq, gapsFrom]
      by_cases hlast : range.high = 127
      · -- No range fits behind the largest value, and no gap either.
        have hlargest : range.high.toInt = 127 := by
          rw [hlast]
          rfl
        have hnil : rest = [] := by
          apply List.eq_nil_iff_forall_not_mem.mpr
          intro other hmem
          have hother := hgaps other hmem
          have hbound := le_largest other.low
          omega
        have hnone : gapsFrom (range.high.toInt + 1) rest = [] := by
          rw [hnil, hlargest]
          rfl
        rw [hnone]
        simp [hlast]
      · have hroom := toInt_lt_of_ne_largest hlast
        have hbehind := ih hrest (Int8.ofInt (range.high.toInt + 1))
        rw [toInt_ofInt (by omega) (by omega)] at hbehind
        rw [signed?_eq (by omega) (by omega)]
        simp only [Option.bind_eq_bind, Option.bind_some, if_neg hlast, hbehind]
        split <;> rfl

theorem joinedGaps?_eq {sorted ranges : List ByteRange} (hperm : sorted.Perm ranges)
    (hsorted : Sorted sorted) (h : ∀ range ∈ ranges, range.Ordered) :
    joinedGaps? sorted = some (complement ranges) := by
  rw [joinedGaps?, join?_eq hperm hsorted h]
  exact gaps?_eq (normal_normalize h) (-128)

/-! ### Canonical forms -/

/-- Normal forms and complements are canonical. Take ranges that are not reversed, in any order and
with any overlaps. Their normal form is sorted, with gaps between its ranges, and covers the same
values; ranges that cover the same values have the same normal form, as do in particular the same
ranges in another order or listed more often. The complement is in normal form already and covers
the other values, and the complement of the complement is the normal form. Sorted in any way by
their low ends, the ranges take one pass to their normal form and another one to their complement,
and neither leaves the signed bytes. -/
theorem normalize_and_complement_canonical {ranges : List ByteRange}
    (h : ∀ range ∈ ranges, range.Ordered) :
    Normal (normalize ranges) ∧ (∀ value, Covers (normalize ranges) value ↔ Covers ranges value) ∧
    (∀ others, (∀ range ∈ others, range.Ordered) →
      (normalize ranges = normalize others ↔ ∀ value, Covers ranges value ↔ Covers others value)) ∧
    (∀ others, (∀ range, range ∈ ranges ↔ range ∈ others) →
      normalize ranges = normalize others) ∧
    Normal (complement ranges) ∧
    (∀ value, Covers (complement ranges) value ↔ ¬ Covers ranges value) ∧
    complement (complement ranges) = normalize ranges ∧
    ∀ sorted, sorted.Perm ranges → Sorted sorted →
      join? sorted = some (normalize ranges) ∧ joinedGaps? sorted = some (complement ranges) := by
  have hcanonical (others : List ByteRange) (hothers : ∀ range ∈ others, range.Ordered) :
      normalize ranges = normalize others ↔
        ∀ value, Covers ranges value ↔ Covers others value := by
    constructor
    · intro heq value
      rw [← covers_normalize h, heq, covers_normalize hothers]
    · intro hcovers
      apply (normal_normalize h).eq_of_covers (normal_normalize hothers)
      intro value
      rw [covers_normalize h, hcovers, covers_normalize hothers]
  refine ⟨normal_normalize h, fun _ => covers_normalize h, hcanonical, ?_, normal_complement h,
    fun _ => covers_complement h, complement_complement h, ?_⟩
  · intro others hmem
    apply (hcanonical others fun range hother => h range ((hmem range).mpr hother)).mpr
    intro value
    simp only [Covers, hmem]
  · intro sorted hperm hsorted
    exact ⟨join?_eq hperm hsorted h, joinedGaps?_eq hperm hsorted h⟩

/-- Ranges that reach to both ends of the order, two of which begin together and two of which touch
without overlapping. -/
theorem normalize_and_complement_canonical_of_both_ends :
    let ranges : List ByteRange := [⟨100, 127⟩, ⟨-128, -100⟩, ⟨5, 9⟩, ⟨10, 20⟩, ⟨5, 5⟩]
    let sorted : List ByteRange := [⟨-128, -100⟩, ⟨5, 9⟩, ⟨5, 5⟩, ⟨10, 20⟩, ⟨100, 127⟩]
    Normal (normalize ranges) ∧ complement (complement ranges) = normalize ranges ∧
      join? sorted = some [⟨-128, -100⟩, ⟨5, 20⟩, ⟨100, 127⟩] ∧
      joinedGaps? sorted = some (complement ranges) ∧
      complement ranges = [⟨-99, 4⟩, ⟨21, 99⟩] := by
  intro ranges sorted
  have hordered : ∀ range ∈ ranges, range.Ordered := by
    simp only [ranges, Ordered]
    decide
  have hperm : sorted.Perm ranges := by decide
  have hsorted : Sorted sorted := by
    simp only [sorted, Sorted]
    decide
  obtain ⟨hnormal, -, -, -, -, -, hinvolution, hpasses⟩ :=
    normalize_and_complement_canonical hordered
  obtain ⟨hjoin, hgaps⟩ := hpasses sorted hperm hsorted
  exact ⟨hnormal, hinvolution, hjoin, hgaps, by decide⟩

end RegexSearch.ByteRange
