import RegexSearch.Proofs.ByteSet
import RegexSearch.Proofs.Pattern.Unambiguity

/-!
What the text of a set tells about it. Bytes can be read back from what is shown of them, because
an escape begins with the backslash and the backslash is shown by an escape itself. Ranges cannot
always: a minus that belongs to the set looks like the one between the ends of a range, and a
circumflex in front looks like the sign. In normal form the ranges ascend, so there is one minus
among their ends at most, and these are the only sets that are taken for each other.
-/

namespace RegexSearch

/-! ### Bytes -/

namespace Byte

theorem hexValue?_hexDigit : ∀ value < 16, hexValue? (hexDigit value) = some value := by
  decide

/-- A byte is shown by itself or by an escape for it. -/
theorem shown_cases (b : Byte) :
    b.shown = [b] ∧ b ≠ '\\'.toUInt8 ∨
      ∃ e : Escape, e.Valid ∧ b.shown = e.word ∧ e.meaning = .byte b := by
  have hcontrol {name value : Byte} {c : Char} (hchar : b.toChar = c) (hvalue : c.toUInt8 = value)
      (hvalid : (name, value) ∈ controlNames) :
      ∃ e : Escape, e.Valid ∧ ['\\'.toUInt8, name] = e.word ∧ e.meaning = .byte b := by
    cases hvalue
    cases eq_of_toChar hchar
    exact ⟨.control name _, hvalid, rfl, rfl⟩
  unfold shown
  split
  · exact .inr (hcontrol ‹_› rfl (by decide))
  · exact .inr (hcontrol ‹_› rfl (by decide))
  · exact .inr (hcontrol ‹_› rfl (by decide))
  · exact .inr (hcontrol ‹_› rfl (by decide))
  · exact .inr (hcontrol ‹_› rfl (by decide))
  · exact .inr (hcontrol ‹_› rfl (by decide))
  · cases eq_of_toChar ‹_›
    exact .inr ⟨.literal '\\'.toUInt8, rfl, rfl, rfl⟩
  · rename_i hbackslash
    split
    · have hhigh := hexValue?_hexDigit (b.toNat / 16) (by have := b.toNat_lt; omega)
      have hlow := hexValue?_hexDigit (b.toNat % 16) (Nat.mod_lt _ (by decide))
      refine .inr ⟨.hexadecimal _ _, ⟨?_, ?_⟩, rfl, ?_⟩
      · rw [hhigh]
        rfl
      · rw [hlow]
        rfl
      · simp only [Escape.meaning, hhigh, hlow, Option.getD_some, Nat.div_add_mod',
          UInt8.ofNat_toNat]
    · refine .inl ⟨rfl, ?_⟩
      rintro rfl
      exact hbackslash rfl

/-- What is shown of a byte is determined by its bytes, whatever follows. -/
theorem eq_of_shown_append {b c : Byte} {rest rest' : Bytes}
    (h : b.shown ++ rest = c.shown ++ rest') : b = c ∧ rest = rest' := by
  rcases shown_cases b with ⟨hb, hbackslash⟩ | ⟨e, he, hb, hmeaning⟩
  · rcases shown_cases c with ⟨hc, -⟩ | ⟨e', -, hc, -⟩
    · rw [hb, hc] at h
      exact List.cons.inj h
    · rw [hb, hc] at h
      exact absurd (List.cons.inj h).1 hbackslash
  · rcases shown_cases c with ⟨hc, hbackslash⟩ | ⟨e', he', hc, hmeaning'⟩
    · rw [hb, hc] at h
      exact absurd (List.cons.inj h).1.symm hbackslash
    · rw [hb, hc] at h
      obtain ⟨rfl, hrest⟩ := Escape.eq_of_append he he' h
      rw [hmeaning] at hmeaning'
      exact ⟨BracketMember.byte.inj hmeaning', hrest⟩

theorem shown_ne_nil (b : Byte) : b.shown ≠ [] := by
  rcases shown_cases b with ⟨hb, -⟩ | ⟨e, -, hb, -⟩
  · simp [hb]
  · simp [hb, Escape.word]

/-- The bytes of a list can be read back from what is shown of them. -/
theorem flatMap_shown_injective : Function.Injective (List.flatMap shown) := by
  intro bytes
  induction bytes with
  | nil =>
      intro bytes' h
      cases bytes' with
      | nil => rfl
      | cons c bytes' => exact absurd (List.append_eq_nil_iff.mp h.symm).1 c.shown_ne_nil
  | cons b bytes ih =>
      intro bytes' h
      cases bytes' with
      | nil => exact absurd (List.append_eq_nil_iff.mp h).1 b.shown_ne_nil
      | cons c bytes' =>
          obtain ⟨rfl, hrest⟩ := eq_of_shown_append h
          rw [ih hrest]

end Byte

/-! ### Ranges -/

namespace ByteRange

/-- The minus, which stands between the ends of a range. -/
def minus : Int8 := '-'.toUInt8.toInt8

/-- The values that are shown of a range, with the minus among them. -/
def symbols (range : ByteRange) : List Int8 :=
  if range.low = range.high then [range.low] else [range.low, minus, range.high]

/-- A list of ranges and another one that is shown alike: where the first one has two neighbours
with a minus between them, the second one has a range, or the other way round. -/
inductive Confused : List ByteRange → List ByteRange → Prop
  | single (low high : Int8) (rest : List ByteRange) :
    Confused (⟨low, low⟩ :: ⟨minus, minus⟩ :: ⟨high, high⟩ :: rest) (⟨low, high⟩ :: rest)
  | bound (low high : Int8) (rest : List ByteRange) :
    Confused (⟨low, low⟩ :: ⟨minus, high⟩ :: rest) (⟨low, minus⟩ :: ⟨high, high⟩ :: rest)
  | cons (range : ByteRange) {ranges ranges' : List ByteRange} (h : Confused ranges ranges') :
    Confused (range :: ranges) (range :: ranges')

variable {range : ByteRange} {ranges ranges' rest : List ByteRange} {low high value : Int8}

theorem symbols_single (value : Int8) : symbols ⟨value, value⟩ = [value] :=
  if_pos rfl

theorem symbols_of_ne (h : low ≠ high) : symbols ⟨low, high⟩ = [low, minus, high] :=
  if_neg h

theorem shown_eq_flatMap (range : ByteRange) :
    range.shown = range.symbols.flatMap fun value => Byte.shown value.toUInt8 := by
  unfold shown symbols
  split
  · simp
  · simp only [List.flatMap_cons, List.flatMap_nil, List.append_nil, List.append_assoc]
    rfl

/-- The first symbol of a list of ranges is the beginning of its first range. -/
theorem exists_of_symbols_cons {symbols' : List Int8}
    (h : ranges.flatMap symbols = value :: symbols') :
    (∃ rest, ranges = ⟨value, value⟩ :: rest ∧ symbols' = rest.flatMap symbols) ∨
      ∃ high rest, ranges = ⟨value, high⟩ :: rest ∧ value ≠ high ∧
        symbols' = minus :: high :: rest.flatMap symbols := by
  cases ranges with
  | nil => cases h
  | cons range rest =>
      obtain ⟨low, high⟩ := range
      by_cases heq : low = high
      · cases heq
        rw [List.flatMap_cons, symbols_single] at h
        obtain ⟨rfl, hrest⟩ := List.cons.inj h
        exact .inl ⟨rest, rfl, hrest.symm⟩
      · rw [List.flatMap_cons, symbols_of_ne heq] at h
        obtain ⟨rfl, hrest⟩ := List.cons.inj h
        exact .inr ⟨high, rest, rfl, heq, hrest.symm⟩

/-- All of the ranges lie above the minus. -/
def Above (ranges : List ByteRange) : Prop :=
  ∀ range ∈ ranges, minus.toInt < range.low.toInt

/-- What follows a range that begins at the minus or above lies above it. -/
theorem above_of_normal (h : Normal (range :: ranges)) (hlow : minus.toInt ≤ range.low.toInt) :
    Above ranges := by
  obtain ⟨hordered, hgap, -⟩ := normal_cons.mp h
  intro other hmem
  have := hgap other hmem
  unfold Ordered at hordered
  omega

theorem symbols_ne_minus {symbols' : List Int8} (habove : Above ranges) :
    ranges.flatMap symbols ≠ minus :: symbols' := by
  intro h
  obtain ⟨high, rest, rfl⟩ : ∃ high rest, ranges = ⟨minus, high⟩ :: rest := by
    obtain ⟨rest, rfl, -⟩ | ⟨high, rest, rfl, -⟩ := exists_of_symbols_cons h
    · exact ⟨minus, rest, rfl⟩
    · exact ⟨high, rest, rfl⟩
  have hlow : minus.toInt < minus.toInt := habove ⟨minus, high⟩ List.mem_cons_self
  exact Int.lt_irrefl minus.toInt hlow

/-- Above the minus, ranges can be read back from their symbols. -/
theorem eq_of_symbols (hranges : Normal ranges) (hranges' : Normal ranges') (habove : Above ranges)
    (h : ranges.flatMap symbols = ranges'.flatMap symbols) : ranges = ranges' := by
  induction ranges generalizing ranges' with
  | nil =>
      cases ranges' with
      | nil => rfl
      | cons range rest =>
          rw [List.flatMap_cons, symbols] at h
          split at h <;> cases h
  | cons range ranges ih =>
      obtain ⟨low, high⟩ := range
      have hlow := (List.forall_mem_cons.mp habove).1
      have hbehind := above_of_normal hranges (Int.le_of_lt hlow)
      have hnormal := (normal_cons.mp hranges).2.2
      rw [List.flatMap_cons] at h
      by_cases heq : low = high
      · cases heq
        rw [symbols_single] at h
        obtain ⟨rest, rfl, hrest⟩ | ⟨high, rest, rfl, -, hrest⟩ := exists_of_symbols_cons h.symm
        · rw [ih hnormal (normal_cons.mp hranges').2.2 hbehind hrest]
        · exact absurd hrest (symbols_ne_minus hbehind)
      · rw [symbols_of_ne heq] at h
        obtain ⟨rest, rfl, hrest⟩ | ⟨high', rest, rfl, -, hrest⟩ := exists_of_symbols_cons h.symm
        · exact absurd hrest.symm (symbols_ne_minus (above_of_normal hranges' (Int.le_of_lt hlow)))
        · obtain ⟨rfl, hsame⟩ := List.cons.inj (List.cons.inj hrest).2
          rw [ih hnormal (normal_cons.mp hranges').2.2 hbehind hsame]

/-- Ranges that are shown with a minus and another value first, and what comes behind that value
being known: either both are ranges by themselves or the minus begins a longer one. -/
theorem eq_of_minus_symbols (hranges : Normal ranges) (hrest : Normal (⟨value, value⟩ :: rest))
    (h : ranges.flatMap symbols = minus :: value :: rest.flatMap symbols) :
    ranges = ⟨minus, minus⟩ :: ⟨value, value⟩ :: rest ∨
      value = minus ∧ ∃ high behind, ranges = ⟨minus, high⟩ :: behind ∧
        rest = ⟨high, high⟩ :: behind := by
  have hnormal := (normal_cons.mp hrest).2.2
  obtain ⟨behind, rfl, hbehind⟩ | ⟨high, behind, rfl, -, hbehind⟩ := exists_of_symbols_cons h
  · left
    have habove := above_of_normal hranges (Int.le_refl _)
    obtain ⟨last, rfl, hlast⟩ | ⟨high, last, rfl, -, hlast⟩ := exists_of_symbols_cons hbehind.symm
    · have hvalue := habove _ List.mem_cons_self
      have hlaid := (normal_cons.mp (normal_cons.mp hranges).2.2).2.2
      rw [eq_of_symbols hnormal hlaid (above_of_normal hrest (Int.le_of_lt hvalue)) hlast]
    · have hvalue := habove _ List.mem_cons_self
      exact absurd hlast (symbols_ne_minus (above_of_normal hrest (Int.le_of_lt hvalue)))
  · right
    obtain ⟨rfl, hsame⟩ := List.cons.inj hbehind
    have habove := above_of_normal hranges (Int.le_refl _)
    obtain ⟨last, rfl, hlast⟩ | ⟨other, last, rfl, -, hlast⟩ := exists_of_symbols_cons hsame
    · have hlaid := (normal_cons.mp hranges).2.2
      rw [eq_of_symbols hlaid (normal_cons.mp hnormal).2.2 habove hlast]
      exact ⟨rfl, high, last, rfl, rfl⟩
    · exact absurd hlast (symbols_ne_minus habove)

/-- A value by itself on the one side and a longer range on the other are followed by what is
taken for this range. -/
theorem confused_of_symbols (hranges : Normal (⟨low, low⟩ :: ranges))
    (hranges' : Normal (⟨low, high⟩ :: ranges'))
    (h : ranges.flatMap symbols = minus :: high :: ranges'.flatMap symbols) :
    Confused (⟨low, low⟩ :: ranges) (⟨low, high⟩ :: ranges') := by
  have hhigh : Normal (⟨high, high⟩ :: ranges') := by
    obtain ⟨-, hgap, hnormal⟩ := normal_cons.mp hranges'
    exact normal_cons.mpr ⟨Int.le_refl _, hgap, hnormal⟩
  rcases eq_of_minus_symbols (normal_cons.mp hranges).2.2 hhigh h with
    rfl | ⟨rfl, last, behind, rfl, rfl⟩
  · exact .single low high ranges'
  · exact .bound low last behind

/-- Ranges in normal form can be read back from their symbols up to what a minus means. -/
theorem eq_or_confused_of_symbols (hranges : Normal ranges) (hranges' : Normal ranges')
    (h : ranges.flatMap symbols = ranges'.flatMap symbols) :
    ranges = ranges' ∨ Confused ranges ranges' ∨ Confused ranges' ranges := by
  induction ranges generalizing ranges' with
  | nil => exact .inl (eq_of_symbols hranges hranges' nofun h)
  | cons range ranges ih =>
      obtain ⟨low, high⟩ := range
      have htail {range : ByteRange} {others : List ByteRange} (hothers : Normal (range :: others))
          (hsame : ranges.flatMap symbols = others.flatMap symbols) :
          ranges = others ∨ Confused ranges others ∨ Confused others ranges :=
        ih (normal_cons.mp hranges).2.2 (normal_cons.mp hothers).2.2 hsame
      rw [List.flatMap_cons] at h
      by_cases heq : low = high
      · cases heq
        rw [symbols_single] at h
        obtain ⟨rest, rfl, hrest⟩ | ⟨high, rest, rfl, -, hrest⟩ := exists_of_symbols_cons h.symm
        · exact (htail hranges' hrest).imp (congrArg _) (.imp (.cons _) (.cons _))
        · exact .inr (.inl (confused_of_symbols hranges hranges' hrest))
      · rw [symbols_of_ne heq] at h
        obtain ⟨rest, rfl, hrest⟩ | ⟨high', rest, rfl, -, hrest⟩ := exists_of_symbols_cons h.symm
        · exact .inr (.inr (confused_of_symbols hranges' hranges hrest.symm))
        · obtain ⟨rfl, hsame⟩ := List.cons.inj (List.cons.inj hrest).2
          exact (htail hranges' hsame).imp (congrArg _) (.imp (.cons _) (.cons _))

/-- What is confused is shown alike. -/
theorem Confused.symbols_eq (h : Confused ranges ranges') (hranges : Normal ranges)
    (hranges' : Normal ranges') : ranges.flatMap symbols = ranges'.flatMap symbols := by
  have hne {first second : Int8} (hgap : first.toInt + 1 < second.toInt) : first ≠ second := by
    rintro rfl
    omega
  induction h with
  | single low high rest =>
      have hgap := (normal_cons.mp hranges).2.1 ⟨high, high⟩ (.tail _ (.head _))
      simp [symbols_single, symbols_of_ne (hne hgap)]
  | bound low high rest =>
      have hgap := (normal_cons.mp hranges).2.1 ⟨minus, high⟩ (.head _)
      have hgap' := (normal_cons.mp hranges').2.1 ⟨high, high⟩ (.head _)
      simp [symbols_single, symbols_of_ne (hne hgap), symbols_of_ne (hne hgap')]
  | cons range _ ih =>
      rw [List.flatMap_cons, List.flatMap_cons,
        ih (normal_cons.mp hranges).2.2 (normal_cons.mp hranges').2.2]

theorem Confused.exists_minus (h : Confused ranges ranges') :
    ∃ range ∈ ranges, range.low = minus := by
  induction h with
  | single low high rest => exact ⟨_, .tail _ (.head _), rfl⟩
  | bound low high rest => exact ⟨_, .tail _ (.head _), rfl⟩
  | cons range _ ih =>
      obtain ⟨other, hmem, hlow⟩ := ih
      exact ⟨other, .tail _ hmem, hlow⟩

end ByteRange

/-! ### Sets -/

namespace ByteSet

open ByteRange (minus)

/-- The circumflex, which marks the set as negated. -/
def circumflex : Int8 := '^'.toUInt8.toInt8

/-- The values that are shown of a set between its brackets. -/
def symbols (set : ByteSet) : List Int8 :=
  (if set.negated then [circumflex] else []) ++ set.ranges.flatMap ByteRange.symbols

/-- A set and another one that is shown alike: a minus or a circumflex that belongs to the set is
taken for what it means. -/
inductive Confused : ByteSet → ByteSet → Prop
  | ranges {ranges ranges' : List ByteRange} (negated : Bool)
    (h : ByteRange.Confused ranges ranges') : Confused ⟨ranges, negated⟩ ⟨ranges', negated⟩
  | negated (rest : List ByteRange) :
    Confused ⟨⟨circumflex, circumflex⟩ :: rest, false⟩ ⟨rest, true⟩
  | negatedRange {high : Int8} (rest : List ByteRange) (h : circumflex ≠ high) :
    Confused ⟨⟨circumflex, high⟩ :: rest, false⟩
      ⟨⟨minus, minus⟩ :: ⟨high, high⟩ :: rest, true⟩

variable {set set' : ByteSet}

theorem shown_eq_flatMap (set : ByteSet) :
    set.shown = ascii "[" ++ (set.symbols.map Int8.toUInt8).flatMap Byte.shown ++ ascii "]" := by
  have hranges : set.ranges.flatMap ByteRange.shown =
      ((set.ranges.flatMap ByteRange.symbols).map Int8.toUInt8).flatMap Byte.shown := by
    simp only [List.map_flatMap, List.flatMap_assoc, List.flatMap_map]
    exact congrArg (List.flatMap · set.ranges) (funext ByteRange.shown_eq_flatMap)
  have hcircumflex : Byte.shown circumflex.toUInt8 = ascii "^" := rfl
  cases hnegated : set.negated <;> simp [shown, symbols, hnegated, hranges, hcircumflex]

theorem shown_eq_iff_symbols : set.shown = set'.shown ↔ set.symbols = set'.symbols := by
  have hinjective : Function.Injective Int8.toUInt8 :=
    fun value value' h => congrArg UInt8.toInt8 h
  rw [shown_eq_flatMap, shown_eq_flatMap, List.append_left_inj, List.append_right_inj,
    Byte.flatMap_shown_injective.eq_iff, hinjective.list_map.eq_iff]

/-- A set with a circumflex in front and a negated one are shown alike only if the circumflex comes
first in the former. -/
theorem confused_of_symbols {ranges ranges' : List ByteRange} (hranges : ByteRange.Normal ranges)
    (hranges' : ByteRange.Normal ranges')
    (h : ranges.flatMap ByteRange.symbols = circumflex :: ranges'.flatMap ByteRange.symbols) :
    Confused ⟨ranges, false⟩ ⟨ranges', true⟩ := by
  obtain ⟨rest, rfl, hrest⟩ | ⟨high, rest, rfl, hne, hrest⟩ := ByteRange.exists_of_symbols_cons h
  · have habove := ByteRange.above_of_normal hranges (by decide)
    have hnormal := (ByteRange.normal_cons.mp hranges).2.2
    rw [← ByteRange.eq_of_symbols hnormal hranges' habove hrest.symm]
    exact .negated rest
  · obtain ⟨hordered, hgap, hnormal⟩ := ByteRange.normal_cons.mp hranges
    have hhigh : ByteRange.Normal (⟨high, high⟩ :: rest) :=
      ByteRange.normal_cons.mpr ⟨Int.le_refl _, hgap, hnormal⟩
    rcases ByteRange.eq_of_minus_symbols hranges' hhigh hrest with rfl | ⟨rfl, -⟩
    · exact .negatedRange rest hne
    · exact absurd hordered (by unfold ByteRange.Ordered; decide)

/-- Two sets in normal form are shown alike only if they are the same or one is confused with the
other. -/
theorem shown_eq_iff (hset : ByteRange.Normal set.ranges) (hset' : ByteRange.Normal set'.ranges) :
    set.shown = set'.shown ↔ set = set' ∨ Confused set set' ∨ Confused set' set := by
  rw [shown_eq_iff_symbols]
  constructor
  · intro h
    obtain ⟨ranges, negated⟩ := set
    obtain ⟨ranges', negated'⟩ := set'
    have hsame {negated : Bool} (h : symbols ⟨ranges, negated⟩ = symbols ⟨ranges', negated⟩) :
        (⟨ranges, negated⟩ : ByteSet) = ⟨ranges', negated⟩ ∨
          Confused ⟨ranges, negated⟩ ⟨ranges', negated⟩ ∨
            Confused ⟨ranges', negated⟩ ⟨ranges, negated⟩ := by
      have hranges := ByteRange.eq_or_confused_of_symbols hset hset' (List.append_cancel_left h)
      exact hranges.imp (congrArg (ByteSet.mk · negated))
        (.imp (.ranges negated) (.ranges negated))
    cases negated <;> cases negated'
    · exact hsame h
    · have hfirst : ranges.flatMap ByteRange.symbols =
          circumflex :: ranges'.flatMap ByteRange.symbols := by simpa [symbols] using h
      exact .inr (.inl (confused_of_symbols hset hset' hfirst))
    · have hfirst : ranges'.flatMap ByteRange.symbols =
          circumflex :: ranges.flatMap ByteRange.symbols := by simpa [symbols] using h.symm
      exact .inr (.inr (confused_of_symbols hset' hset hfirst))
    · exact hsame h
  · have hconfused {set set' : ByteSet} (h : Confused set set')
        (hset : ByteRange.Normal set.ranges) (hset' : ByteRange.Normal set'.ranges) :
        set.symbols = set'.symbols := by
      cases h with
      | ranges negated h => exact congrArg (_ ++ ·) (h.symbols_eq hset hset')
      | negated rest => rfl
      | negatedRange rest hne =>
          simp [symbols, ByteRange.symbols_single, ByteRange.symbols_of_ne hne]
    rintro (rfl | h | h)
    · rfl
    · exact hconfused h hset hset'
    · exact (hconfused h hset' hset).symm

/-- No range begins with a minus, and the first one does not begin with a circumflex unless the set
is negated. -/
structure Plain (set : ByteSet) : Prop where
  minus : ∀ range ∈ set.ranges, range.low ≠ minus
  circumflex : set.negated = false → ∀ range ∈ set.ranges.head?, range.low ≠ circumflex

theorem Confused.not_plain (h : Confused set set') : ¬ set.Plain := by
  intro hplain
  cases h with
  | ranges negated h =>
      obtain ⟨range, hmem, hlow⟩ := h.exists_minus
      exact hplain.minus range hmem hlow
  | negated rest => exact hplain.circumflex rfl _ rfl rfl
  | negatedRange rest hne => exact hplain.circumflex rfl _ rfl rfl

/-- Lists of sets in normal form are shown alike only if their sets are. -/
theorem map_shown_eq_iff {sets sets' : List ByteSet}
    (hsets : ∀ set ∈ sets, ByteRange.Normal set.ranges)
    (hsets' : ∀ set ∈ sets', ByteRange.Normal set.ranges) :
    sets.map shown = sets'.map shown ↔
      List.Forall₂ (fun set set' => set = set' ∨ Confused set set' ∨ Confused set' set)
        sets sets' := by
  induction sets generalizing sets' with
  | nil => cases sets' <;> simp
  | cons set sets ih =>
      cases sets' with
      | nil => simp
      | cons set' sets' =>
          obtain ⟨hset, hsets⟩ := List.forall_mem_cons.mp hsets
          obtain ⟨hset', hsets'⟩ := List.forall_mem_cons.mp hsets'
          rw [List.map_cons, List.map_cons, List.cons_eq_cons, List.forall₂_cons,
            shown_eq_iff hset hset', ih hsets hsets']

/-- Plain sets are not confused. -/
theorem eq_of_forall₂_plain {sets sets' : List ByteSet}
    (h : List.Forall₂ (fun set set' => set = set' ∨ Confused set set' ∨ Confused set' set)
      sets sets')
    (hsets : ∀ set ∈ sets, set.Plain) (hsets' : ∀ set ∈ sets', set.Plain) : sets = sets' := by
  induction h with
  | nil => rfl
  | cons hpair _ ih =>
      obtain ⟨hset, hrest⟩ := List.forall_mem_cons.mp hsets
      obtain ⟨hset', hrest'⟩ := List.forall_mem_cons.mp hsets'
      rcases hpair with rfl | hpair | hpair
      · rw [ih hrest hrest']
      · exact absurd hset hpair.not_plain
      · exact absurd hset' hpair.not_plain

end ByteSet

end RegexSearch
