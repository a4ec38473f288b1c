import RegexSearch.Proofs.ByteSet.Complement
import RegexSearch.Proofs.Pattern.Unambiguity

/-!
What a bracket expression stands for. Each of its items denotes bytes by how it is written: a byte
or an escape of one byte denotes that byte, the name of a class the bytes of the class, and a range
what lies between its ends as signed bytes. The set that is read holds what some item denotes or, if
it is negated, the rest. Its ranges are in normal form, and the items are the only ones with which
the bytes behind the opening bracket can be read.
-/

namespace RegexSearch

theorem ByteSet.contains_iff {set : ByteSet} {c : Byte} :
    set.contains c = true ↔ (ByteRange.Covers set.ranges c.toInt8 ↔ set.negated = false) := by
  have hcovers : ByteRange.Covers set.ranges c.toInt8 ↔
      set.ranges.any (·.contains c.toInt8) = true := by
    rw [List.any_eq_true]
    rfl
  rw [hcovers, ByteSet.contains]
  cases set.ranges.any (·.contains c.toInt8) <;> cases set.negated <;> simp

/-! ### Classes -/

/-- Whether a byte belongs to the class that a letter names. A capital letter names the class of all
other bytes. -/
def namesClass (name c : Byte) : Bool :=
  match name.toChar with
  | 'd' => c.isDigit
  | 'D' => !c.isDigit
  | 's' => c.isSpace
  | 'S' => !c.isSpace
  | 'w' => c.isWord
  | 'W' => !c.isWord
  | _ => false

theorem covers_of_class {members : ByteSet} {test : Byte → Bool}
    (h : ∀ n < 256, (members.ranges.any (·.contains (UInt8.ofNat n).toInt8)) =
      test (UInt8.ofNat n)) (c : Byte) :
    ByteRange.Covers members.ranges c.toInt8 ↔ test c = true := by
  have hc := h c.toNat c.toNat_lt
  rw [UInt8.ofNat_toNat] at hc
  rw [← hc, List.any_eq_true]
  rfl

/-- The predefined classes contribute the bytes that their names stand for. -/
theorem covers_of_predefined {name : Byte} {members : ByteSet}
    (h : (name, members) ∈ predefinedNames) (c : Byte) :
    ByteRange.Covers members.positiveRanges c.toInt8 ↔ namesClass name c = true := by
  have hdigits := @covers_of_class .digits Byte.isDigit (by decide +kernel) c
  have hspaces := @covers_of_class .spaces Byte.isSpace (by decide +kernel) c
  have hwords := @covers_of_class .words Byte.isWord (by decide +kernel) c
  have hother {set : ByteSet} {test : Bool} (hset : ∀ range ∈ set.ranges, range.Ordered)
      (hcovers : ByteRange.Covers set.ranges c.toInt8 ↔ test = true) :
      ByteRange.Covers (ByteRange.complement set.ranges) c.toInt8 ↔ (!test) = true := by
    rw [ByteRange.covers_complement hset, hcovers]
    simp
  simp only [predefinedNames, List.mem_cons, Prod.mk.injEq, List.not_mem_nil, or_false] at h
  rcases h with ⟨rfl, rfl⟩ | ⟨rfl, rfl⟩ | ⟨rfl, rfl⟩ | ⟨rfl, rfl⟩ | ⟨rfl, rfl⟩ | ⟨rfl, rfl⟩
  · exact hdigits
  · exact hother (@ordered_of_predefined _ .digits (.head _)) hdigits
  · exact hspaces
  · exact hother (@ordered_of_predefined 's'.toUInt8 .spaces (by decide)) hspaces
  · exact hwords
  · exact hother (@ordered_of_predefined 'w'.toUInt8 .words (by decide)) hwords

/-! ### Items -/

/-- A predefined class denotes the bytes that its name stands for, and what else may stand between
brackets denotes one byte. -/
def Member.Denotes (c : Byte) : Member → Prop
  | .escape (.predefined name _) => namesClass name c = true
  | member => member.meaning = .byte c

/-- A range denotes what lies between its ends, in the order of signed bytes. -/
def Item.Denotes (c : Byte) : Item → Prop
  | .single member => member.Denotes c
  | .range low high =>
    ∃ first last, low.meaning = .byte first ∧ high.meaning = .byte last ∧
      first.toInt8 ≤ c.toInt8 ∧ c.toInt8 ≤ last.toInt8

theorem BracketMember.covers_byte_iff {value c : Byte} :
    ByteRange.Covers (BracketMember.byte value).ranges c.toInt8 ↔
      BracketMember.byte value = .byte c := by
  have hcovers : ByteRange.Covers (BracketMember.byte value).ranges c.toInt8 ↔
      value.toInt8.toInt ≤ c.toInt8.toInt ∧ c.toInt8.toInt ≤ value.toInt8.toInt := by
    simp [ByteRange.Covers, BracketMember.ranges, ByteRange.contains_iff, ByteRange.ofBytes]
  rw [hcovers, BracketMember.byte.injEq]
  constructor
  · rintro ⟨hle, hge⟩
    have hsame : value.toInt8 = c.toInt8 := Int8.toInt_inj.mp (Int.le_antisymm hle hge)
    rw [← UInt8.toUInt8_toInt8 value, hsame, UInt8.toUInt8_toInt8]
  · rintro rfl
    exact ⟨Int.le_refl _, Int.le_refl _⟩

theorem Member.covers_iff {m : Member} (h : m.Valid) (c : Byte) :
    ByteRange.Covers m.meaning.ranges c.toInt8 ↔ m.Denotes c := by
  cases m with
  | byte value => exact BracketMember.covers_byte_iff
  | backspace => exact BracketMember.covers_byte_iff
  | escape named =>
      cases named with
      | predefined name members => exact covers_of_predefined h c
      | _ => exact BracketMember.covers_byte_iff

namespace Item

theorem length_le_wordsBefore (following : Bytes) (items : List Item) :
    following.length ≤ (wordsBefore following items).length := by
  induction items with
  | nil => exact Nat.le_refl _
  | cons item items ih =>
      rw [wordsBefore, List.length_append]
      omega

/-- The ranges of an item cover what the item denotes. -/
theorem covers_iff {item : Item} {following : Bytes} (h : item.Valid following) (c : Byte) :
    ByteRange.Covers item.ranges c.toInt8 ↔ item.Denotes c := by
  cases item with
  | single m => exact Member.covers_iff h.1 c
  | range low high =>
      obtain ⟨-, -, first, last, hfirst, hlast, -⟩ := h
      have hranges : (range low high).ranges = [.ofBytes first last] := by
        simp only [ranges, hfirst, hlast]
      have hdenotes : (range low high).Denotes c ↔
          first.toInt8 ≤ c.toInt8 ∧ c.toInt8 ≤ last.toInt8 := by
        simp [Denotes, hfirst, hlast]
      rw [hranges, hdenotes, ByteRange.covers_cons, ByteRange.contains_iff,
        Int8.le_iff_toInt_le, Int8.le_iff_toInt_le, or_iff_left (ByteRange.not_covers_nil _)]
      rfl

theorem AllValid.of_mem {items : List Item} {following : Bytes} (h : AllValid following items)
    {item : Item} (hmem : item ∈ items) : ∃ behind, item.Valid behind := by
  induction items with
  | nil => cases hmem
  | cons head items ih =>
      rcases List.mem_cons.mp hmem with rfl | hmem
      · exact ⟨_, h.1⟩
      · exact ih h.2 hmem

/-- The ranges of several items cover what some of them denotes. -/
theorem AllValid.covers_iff {items : List Item} {following : Bytes} (h : AllValid following items)
    (c : Byte) :
    ByteRange.Covers (items.flatMap ranges) c.toInt8 ↔ ∃ item ∈ items, item.Denotes c := by
  have hcovers : ByteRange.Covers (items.flatMap ranges) c.toInt8 ↔
      ∃ item ∈ items, ByteRange.Covers item.ranges c.toInt8 := by
    simp only [ByteRange.Covers, List.mem_flatMap]
    constructor
    · rintro ⟨range, ⟨item, hitem, hrange⟩, hcontains⟩
      exact ⟨item, hitem, range, hrange, hcontains⟩
    · rintro ⟨item, hitem, range, hrange, hcontains⟩
      exact ⟨range, ⟨item, hitem, hrange⟩, hcontains⟩
  rw [hcovers]
  apply exists_congr
  intro item
  apply and_congr_right
  intro hitem
  obtain ⟨behind, hvalid⟩ := h.of_mem hitem
  exact Item.covers_iff hvalid c

end Item

/-! ### Bracket expressions -/

/-- Behind an opening bracket stand an optional circumflex, items, the closing bracket and what
follows. A circumflex in front of everything else always negates. -/
structure BracketReading (rest : Bytes) (negated : Bool) (items : List Item) (following : Bytes) :
    Prop where
  bytes : rest = (if negated then ['^'.toUInt8] else []) ++
    Item.wordsBefore (']'.toUInt8 :: following) items
  circumflex : negated = true ↔ rest.head? = some '^'.toUInt8
  items : Item.AllValid (']'.toUInt8 :: following) items

namespace BracketReading

variable {rest following following' : Bytes} {negated negated' : Bool} {items items' : List Item}

/-- Read from the left, the bytes behind an opening bracket can be read in one way only. -/
theorem unique (h : BracketReading rest negated items following)
    (h' : BracketReading rest negated' items' following') :
    negated = negated' ∧ items = items' ∧ following = following' := by
  obtain rfl : negated = negated' := Bool.eq_iff_iff.mpr (h.circumflex.trans h'.circumflex.symm)
  have hwords := List.append_cancel_left (h.bytes.symm.trans h'.bytes)
  exact ⟨rfl, Item.eq_of_wordsBefore h.items h'.items hwords⟩

theorem length (h : BracketReading rest negated items following) :
    (Leaf.brackets negated items).word.length + following.length = rest.length + 1 := by
  have hword := congrArg List.length (Leaf.word_brackets_append negated items following)
  rw [← h.bytes, List.length_append, List.length_cons] at hword
  exact hword

end BracketReading

/-- Both say how the bytes behind an opening bracket are read. -/
theorem bracketReading_iff {rest following : Bytes} {negated : Bool} {items : List Item} :
    BracketReading rest negated items following ↔
      '['.toUInt8 :: rest = (Leaf.brackets negated items).word ++ following ∧
        ∀ groups, (Leaf.brackets negated items).Valid groups following := by
  have happend := Item.wordsBefore_append [']'.toUInt8] following items
  have hhead : (Item.wordsBefore (']'.toUInt8 :: following) items).head? =
      (Item.wordsBefore [']'.toUInt8] items).head? := by
    have hsplit : Item.wordsBefore (']'.toUInt8 :: following) items =
        Item.wordsBefore [']'.toUInt8] items ++ following := happend
    have hne : Item.wordsBefore [']'.toUInt8] items ≠ [] := by
      intro hnil
      have hlength := congrArg List.length hsplit
      have hclosing := Item.length_le_wordsBefore (']'.toUInt8 :: following) items
      rw [hnil, List.nil_append] at hlength
      rw [hlength, List.length_cons] at hclosing
      omega
    rw [hsplit, List.head?_append_of_ne_nil _ hne]
  rw [Leaf.word_brackets_append, List.cons.injEq]
  constructor
  · rintro ⟨hbytes, hcircumflex, hitems⟩
    refine ⟨⟨rfl, hbytes⟩, fun _ => ⟨hitems, ?_⟩⟩
    rintro rfl hcaret
    rw [← hhead] at hcaret
    rw [hbytes] at hcircumflex
    cases hcircumflex.mpr hcaret
  · rintro ⟨⟨-, rfl⟩, hvalid⟩
    refine ⟨rfl, ?_, (hvalid 0).1⟩
    cases negated with
    | true => exact ⟨fun _ => rfl, fun _ => rfl⟩
    | false =>
        refine ⟨nofun, fun hcaret => absurd ?_ ((hvalid 0).2 rfl)⟩
        rw [← hhead]
        exact hcaret

/-- A set in normal form is determined by the bytes that it contains. -/
theorem ByteSet.eq_normalize_iff {set : ByteSet} {negated : Bool} {items : List Item}
    {following : Bytes} (h : Item.AllValid following items) :
    set = ⟨ByteRange.normalize (items.flatMap Item.ranges), negated⟩ ↔
      set.negated = negated ∧ ByteRange.Normal set.ranges ∧
        ∀ c, set.contains c = true ↔
          ¬ ((∃ item ∈ items, item.Denotes c) ↔ negated = true) := by
  have hnormal := ByteRange.normal_normalize h.ordered
  have hcovers (c : Byte) : ByteRange.Covers (ByteRange.normalize (items.flatMap Item.ranges))
      c.toInt8 ↔ ∃ item ∈ items, item.Denotes c :=
    (ByteRange.covers_normalize h.ordered).trans (h.covers_iff c)
  constructor
  · rintro rfl
    refine ⟨rfl, hnormal, fun c => ?_⟩
    rw [ByteSet.contains_iff, hcovers]
    cases negated <;> simp
  · obtain ⟨ranges, sign⟩ := set
    rintro ⟨rfl, hranges, hcontains⟩
    have hsame : ranges = ByteRange.normalize (items.flatMap Item.ranges) := by
      apply hranges.eq_of_covers hnormal
      intro value
      have hvalue := hcontains value.toUInt8
      have hitems := hcovers value.toUInt8
      rw [ByteSet.contains_iff] at hvalue
      rw [Int8.toInt8_toUInt8] at hvalue hitems
      rw [hitems]
      cases sign with
      | true => exact not_iff_not.mp (by simpa using hvalue)
      | false => simpa using hvalue
    rw [hsame]

/-- A bracket expression is read as the set of the bytes that its items denote or, behind a
circumflex, of the bytes that they do not denote. The set is in normal form, and the items are the
only ones that the bytes can be read as. -/
theorem readBrackets_union {opening : Nat} {rest : Bytes} {set : ByteSet} {behind : Nat} :
    (readBrackets opening rest = .ok (set, behind) ↔
      ∃ negated items following, BracketReading rest negated items following ∧
        behind + following.length = opening + 1 + rest.length ∧
        set.negated = negated ∧ ByteRange.Normal set.ranges ∧
        ∀ c, set.contains c = true ↔
          ¬ ((∃ item ∈ items, item.Denotes c) ↔ negated = true)) ∧
      ∀ negated items following negated' items' following',
        BracketReading rest negated items following →
        BracketReading rest negated' items' following' →
          negated = negated' ∧ items = items' ∧ following = following' := by
  refine ⟨?_, fun _ _ _ _ _ _ h h' => h.unique h'⟩
  have hset (negated : Bool) (items : List Item) (following : Bytes)
      (h : BracketReading rest negated items following) :=
    @ByteSet.eq_normalize_iff set negated items _ h.items
  rw [readBrackets_iff]
  constructor
  · rintro ⟨negated, items, following, hbytes, hvalid, hatom, rfl⟩
    have hreading := bracketReading_iff.mpr ⟨hbytes, hvalid⟩
    have hlength := hreading.length
    exact ⟨negated, items, following, hreading, by omega,
      (hset _ _ _ hreading).mp (Atom.set.inj hatom)⟩
  · rintro ⟨negated, items, following, hreading, hbehind, hmembers⟩
    obtain ⟨hbytes, hvalid⟩ := bracketReading_iff.mp hreading
    have hlength := hreading.length
    exact ⟨negated, items, following, hbytes, hvalid,
      congrArg Atom.set ((hset _ _ _ hreading).mpr hmembers), by omega⟩

/-- A minus behind a range joins nothing. -/
example : readBrackets 0 (ascii "a-c-e]") =
    .ok (⟨[⟨45, 45⟩, ⟨97, 99⟩, ⟨101, 101⟩], false⟩, 7) := rfl

end RegexSearch
