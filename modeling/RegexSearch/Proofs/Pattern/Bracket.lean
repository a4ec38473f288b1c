import RegexSearch.Proofs.ByteSet
import RegexSearch.Proofs.Pattern.Escape

/-!
How bracket expressions are read. Members are read one after the other, and a minus that joins two
of them makes a range. What has been read up to the closing bracket is a list of items, and their
ranges are collected latest first, which the normal form does not see.
-/

namespace RegexSearch

/-! ### Members and items -/

theorem readMember_iff {b : Byte} {rest : Bytes} {member : BracketMember} {taken : Nat}
    (hb : b ≠ ']'.toUInt8) :
    readMember b rest = .ok (member, taken) ↔
      ∃ (m : Member) (following : Bytes), b :: rest = m.word ++ following ∧ m.Valid ∧
        member = m.meaning ∧ taken + 1 = m.word.length := by
  constructor
  · intro h
    unfold readMember at h
    split at h
    · rename_i hbackslash
      obtain rfl := Byte.eq_of_toChar (beq_iff_eq.mp hbackslash)
      cases hread : readEscape .brackets rest with
      | error cause =>
          rw [hread] at h
          cases h
      | ok result =>
          obtain ⟨a, count⟩ := result
          rw [hread] at h
          cases readsEscape_of_readEscape hread with
          | named _ e hvalid following =>
              refine ⟨.escape e, following, rfl, hvalid, ?_⟩
              cases hmeaning : e.meaning with
              | byte value =>
                  simp only [hmeaning, BracketMember.atom] at h
                  cases h
                  exact ⟨hmeaning.symm, rfl⟩
              | set members =>
                  simp only [hmeaning, BracketMember.atom] at h
                  cases h
                  exact ⟨hmeaning.symm, rfl⟩
          | backspace following =>
              cases h
              exact ⟨.backspace, following, rfl, trivial, rfl, rfl⟩
    · rename_i hbackslash
      cases h
      refine ⟨.byte b, rest, rfl, ⟨hb, ?_⟩, rfl, rfl⟩
      rintro rfl
      exact hbackslash rfl
  · rintro ⟨m, following, hbytes, hvalid, rfl, htaken⟩
    cases m with
    | byte value =>
        obtain ⟨rfl, rfl⟩ := List.cons.inj hbytes
        cases htaken
        have hbackslash : ¬ (b.toChar == '\\') = true := by
          intro heq
          exact hvalid.2 (Byte.eq_of_toChar (beq_iff_eq.mp heq))
        rw [readMember, if_neg hbackslash]
        rfl
    | backspace =>
        obtain ⟨rfl, rfl⟩ := List.cons.inj hbytes
        cases htaken
        rfl
    | escape e =>
        obtain ⟨rfl, rfl⟩ := List.cons.inj hbytes
        cases htaken
        have hread : readEscape .brackets (List.append e.name following) =
            .ok (e.meaning.atom, e.name.length) := readEscape_name .brackets hvalid following
        have hbackslash : (Byte.toChar '\\'.toUInt8 == '\\') = true := rfl
        rw [readMember, if_pos hbackslash, hread]
        change _ = Except.ok (e.meaning, e.name.length)
        cases e.meaning <;> rfl

theorem readMembers_skip (opening : Nat) (ranges : List ByteRange) (low : Option Byte)
    (skip position : Nat) (bytes : Bytes) :
    readMembers opening ranges low skip position bytes =
      readMembers opening ranges low 0 (position + skip) (bytes.drop skip) := by
  induction skip generalizing position bytes with
  | zero => rfl
  | succ skip ih =>
      cases bytes with
      | nil => rfl
      | cons b rest =>
          have hposition : position + (skip + 1) = position + 1 + skip := by omega
          rw [readMembers, ih, hposition]
          rfl

theorem joinsRange_iff {following : Bytes} :
    joinsRange following = true ↔
      ∃ next rest, following = '-'.toUInt8 :: next :: rest ∧ next ≠ ']'.toUInt8 := by
  constructor
  · intro h
    unfold joinsRange at h
    split at h
    · rename_i last hfirst
      match following, hfirst with
      | [], hfirst => simp at hfirst
      | [_], hfirst => simp at hfirst
      | minus :: next :: rest, hfirst =>
          obtain ⟨hminus, hnext⟩ := List.cons.inj hfirst
          obtain ⟨rfl, -⟩ := List.cons.inj hnext
          refine ⟨next, rest, by rw [Byte.eq_of_toChar hminus], ?_⟩
          rintro rfl
          cases h
    · cases h
  · rintro ⟨next, rest, rfl, hnext⟩
    change (Byte.toChar next != ']') = true
    rw [bne_iff_ne]
    intro heq
    exact hnext (Byte.eq_of_toChar heq)

namespace Member

theorem exists_head {m : Member} (h : m.Valid) :
    ∃ b rest, m.word = b :: rest ∧ b ≠ ']'.toUInt8 := by
  cases m with
  | byte value => exact ⟨value, [], rfl, h.1⟩
  | backspace => exact ⟨_, _, rfl, by decide⟩
  | escape e => exact ⟨_, _, rfl, by decide⟩

theorem readMember_word {m : Member} (h : m.Valid) {b : Byte} {rest : Bytes}
    (hword : m.word = b :: rest) (following : Bytes) :
    readMember b (rest ++ following) = .ok (m.meaning, rest.length) := by
  obtain ⟨first, tail, hfirst, hb⟩ := exists_head h
  obtain ⟨rfl, rfl⟩ := List.cons.inj (hword.symm.trans hfirst)
  exact (readMember_iff hb).mpr ⟨m, following, by rw [hword]; rfl, h, rfl, by rw [hword]; rfl⟩

end Member

/-- A valid member is read as a whole. -/
theorem readMembers_member {m : Member} (h : m.Valid) (opening : Nat) (ranges : List ByteRange)
    (low : Option Byte) (position : Nat) (following : Bytes) :
    readMembers opening ranges low 0 position (m.word ++ following) =
      match low, m.meaning with
      | some first, .byte last =>
        if last.toInt8 < first.toInt8 then .error ⟨.badBracketExpression, opening⟩
        else
          readMembers opening (.ofBytes first last :: ranges) none 0 (position + m.word.length)
            following
      | some _, .set _ => .error ⟨.badBracketExpression, opening⟩
      | none, member =>
        if joinsRange following then
          match member with
          | .byte first =>
            readMembers opening ranges (some first) 0 (position + m.word.length + 1)
              (following.drop 1)
          | .set _ => .error ⟨.badBracketExpression, opening⟩
        else
          readMembers opening (member.ranges ++ ranges) none 0 (position + m.word.length)
            following := by
  obtain ⟨b, rest, hword, hb⟩ := Member.exists_head h
  have hread := Member.readMember_word h hword following
  have hclosing : ¬ (b.toChar == ']' && low.isNone) = true := by
    intro heq
    exact hb (Byte.eq_of_toChar (beq_iff_eq.mp (Bool.and_eq_true_iff.mp heq).1))
  have hbehind : position + (rest.length + 1) = position + 1 + rest.length := by omega
  rw [hword, List.cons_append, readMembers, if_neg hclosing, hread, List.length_cons, hbehind]
  dsimp only
  rw [List.drop_left]
  cases low with
  | some first =>
      cases m.meaning with
      | byte last =>
          dsimp only
          rw [readMembers_skip, List.drop_left]
      | set members => rfl
  | none =>
      cases m.meaning with
      | byte first =>
          dsimp only
          rw [readMembers_skip, readMembers_skip opening _ none, List.drop_left,
            ← List.drop_drop, List.drop_left, ← Nat.add_assoc]
      | set members =>
          dsimp only
          rw [readMembers_skip, List.drop_left]

theorem exists_member_of_readMembers {opening position : Nat} {ranges : List ByteRange}
    {low : Option Byte} {b : Byte} {rest : Bytes} {result : List ByteRange × Nat}
    (hb : b ≠ ']'.toUInt8)
    (h : readMembers opening ranges low 0 position (b :: rest) = .ok result) :
    ∃ (m : Member) (following : Bytes), b :: rest = m.word ++ following ∧ m.Valid := by
  have hclosing : ¬ (b.toChar == ']' && low.isNone) = true := by
    intro heq
    exact hb (Byte.eq_of_toChar (beq_iff_eq.mp (Bool.and_eq_true_iff.mp heq).1))
  rw [readMembers, if_neg hclosing] at h
  cases hread : readMember b rest with
  | error cause =>
      rw [hread] at h
      cases h
  | ok found =>
      obtain ⟨m, following, hbytes, hvalid, -, -⟩ := (readMember_iff hb).mp hread
      exact ⟨m, following, hbytes, hvalid⟩

namespace Item

theorem wordsBefore_append (first rest : Bytes) (items : List Item) :
    wordsBefore (first ++ rest) items = wordsBefore first items ++ rest := by
  induction items with
  | nil => rfl
  | cons item items ih => rw [wordsBefore, ih, wordsBefore, List.append_assoc]

end Item

/-- The items of a bracket expression are read as a whole. -/
theorem readMembers_items {items : List Item} {following : Bytes}
    (h : Item.AllValid (']'.toUInt8 :: following) items) (opening : Nat)
    (ranges : List ByteRange) (position : Nat) :
    readMembers opening ranges none 0 position
        (Item.wordsBefore (']'.toUInt8 :: following) items) =
      .ok (items.reverse.flatMap Item.ranges ++ ranges,
        position + (Item.wordsBefore [']'.toUInt8] items).length) := by
  induction items generalizing ranges position with
  | nil => rfl
  | cons item items ih =>
      obtain ⟨hitem, hitems⟩ := h
      rw [Item.wordsBefore]
      cases item with
      | single m =>
          obtain ⟨hm, halone⟩ := hitem
          have hjoins :
              ¬ joinsRange (Item.wordsBefore (']'.toUInt8 :: following) items) = true := by
            rw [joinsRange_iff]
            rintro ⟨next, rest, heq, hnext⟩
            exact hnext (halone next rest heq)
          rw [Item.word, readMembers_member hm]
          dsimp only
          rw [if_neg hjoins, ih hitems]
          simp [Item.wordsBefore, Item.word, Item.ranges, Nat.add_assoc]
      | range low high =>
          obtain ⟨hlow, hhigh, first, last, hfirst, hlast, hle⟩ := hitem
          obtain ⟨b, rest, hword, hb⟩ := Member.exists_head hhigh
          have hjoins : joinsRange ('-'.toUInt8 :: (high.word ++
              Item.wordsBefore (']'.toUInt8 :: following) items)) = true := by
            rw [joinsRange_iff, hword]
            exact ⟨b, _, rfl, hb⟩
          have horder : ¬ last.toInt8 < first.toInt8 := by
            rw [Int8.lt_iff_toInt_lt]
            exact Int.not_lt.mpr (Int8.le_iff_toInt_le.mp hle)
          rw [Item.word, List.append_assoc, List.cons_append, readMembers_member hlow, hfirst]
          dsimp only
          rw [if_pos hjoins, List.drop_succ_cons, List.drop_zero, readMembers_member hhigh, hlast]
          dsimp only
          rw [if_neg horder, ih hitems]
          simp [Item.wordsBefore, Item.word, Item.ranges, hfirst, hlast]
          omega

/-- What is read up to a closing bracket are items of a bracket expression. -/
theorem exists_items_of_readMembers {opening position : Nat} {ranges : List ByteRange}
    {bytes : Bytes} {result : List ByteRange × Nat}
    (h : readMembers opening ranges none 0 position bytes = .ok result) :
    ∃ items following, bytes = Item.wordsBefore (']'.toUInt8 :: following) items ∧
      Item.AllValid (']'.toUInt8 :: following) items := by
  induction hlength : bytes.length using Nat.strongRecOn generalizing bytes ranges position with
  | ind length ih =>
      cases bytes with
      | nil => cases h
      | cons b rest =>
          by_cases hb : b = ']'.toUInt8
          · subst hb
            exact ⟨[], rest, rfl, trivial⟩
          · obtain ⟨m, behind, hbytes, hm⟩ := exists_member_of_readMembers hb h
            obtain ⟨head, tail, hword, -⟩ := Member.exists_head hm
            have hshorter : behind.length < length := by
              rw [← hlength, hbytes, hword, List.length_append, List.length_cons]
              omega
            rw [hbytes, readMembers_member hm] at h
            dsimp only at h
            split at h
            · rename_i hjoins
              obtain ⟨next, more, rfl, hnext⟩ := joinsRange_iff.mp hjoins
              cases hfirst : m.meaning with
              | set members =>
                  rw [hfirst] at h
                  cases h
              | byte first =>
                  rw [hfirst] at h
                  dsimp only at h
                  rw [List.drop_succ_cons, List.drop_zero] at h
                  obtain ⟨high, following, hmore, hhigh⟩ := exists_member_of_readMembers hnext h
                  rw [hmore, readMembers_member hhigh] at h
                  cases hlast : high.meaning with
                  | set members =>
                      rw [hlast] at h
                      cases h
                  | byte last =>
                      rw [hlast] at h
                      dsimp only at h
                      split at h
                      · cases h
                      · rename_i horder
                        have hless : following.length < length := by
                          have hsplit := congrArg List.length hmore
                          simp at hsplit hshorter
                          omega
                        obtain ⟨items, last', rfl, hitems⟩ := ih _ hless h rfl
                        refine ⟨.range m high :: items, last', ?_, ⟨hm, hhigh, first, last, hfirst,
                          hlast, ?_⟩, hitems⟩
                        · rw [hbytes, hmore, Item.wordsBefore, Item.word, List.append_assoc,
                            List.cons_append]
                        · rw [Int8.lt_iff_toInt_lt] at horder
                          exact Int8.le_iff_toInt_le.mpr (Int.not_lt.mp horder)
            · rename_i hjoins
              obtain ⟨items, following, rfl, hitems⟩ := ih _ hshorter h rfl
              refine ⟨.single m :: items, following, hbytes, ⟨hm, ?_⟩, hitems⟩
              intro next more heq
              rw [heq, joinsRange_iff] at hjoins
              exact Decidable.byContradiction fun hnext => hjoins ⟨next, more, rfl, hnext⟩

/-! ### Sets -/

theorem BracketMember.ordered_byte (value : Byte) :
    ∀ range ∈ (BracketMember.byte value).ranges, range.Ordered := by
  intro range hmem
  rw [List.mem_singleton.mp hmem]
  exact Int.le_refl _

theorem ordered_of_predefined {name : Byte} {members : ByteSet}
    (h : (name, members) ∈ predefinedNames) : ∀ range ∈ members.positiveRanges, range.Ordered := by
  have hall : ∀ entry ∈ predefinedNames, ∀ range ∈ entry.2.positiveRanges,
      range.low.toInt ≤ range.high.toInt := by decide +kernel
  exact hall _ h

theorem Member.ordered_ranges {m : Member} (h : m.Valid) :
    ∀ range ∈ m.meaning.ranges, range.Ordered := by
  cases m with
  | byte value => exact BracketMember.ordered_byte value
  | backspace => exact BracketMember.ordered_byte _
  | escape e =>
      cases e with
      | control name value => exact BracketMember.ordered_byte value
      | letter value => exact BracketMember.ordered_byte _
      | hexadecimal high low => exact BracketMember.ordered_byte _
      | predefined name members => exact ordered_of_predefined h
      | literal value => exact BracketMember.ordered_byte value

namespace Item

theorem ordered_ranges {item : Item} {following : Bytes} (h : item.Valid following) :
    ∀ range ∈ item.ranges, range.Ordered := by
  cases item with
  | single m => exact Member.ordered_ranges h.1
  | range low high =>
      obtain ⟨-, -, first, last, hfirst, hlast, hle⟩ := h
      intro range hmem
      simp only [ranges, hfirst, hlast, List.mem_singleton] at hmem
      rw [hmem]
      exact Int8.le_iff_toInt_le.mp hle

theorem AllValid.ordered {items : List Item} {following : Bytes} (h : AllValid following items) :
    ∀ range ∈ items.flatMap ranges, range.Ordered := by
  induction items with
  | nil => exact fun _ hmem => nomatch hmem
  | cons item items ih =>
      intro range hmem
      rcases List.mem_append.mp hmem with hmem | hmem
      · exact ordered_ranges h.1 range hmem
      · exact ih h.2 range hmem

end Item

/-- The set of a bracket expression does not depend on the order in which items are collected. -/
theorem normalize_reverse_items {items : List Item} {following : Bytes}
    (h : Item.AllValid following items) :
    ByteRange.normalize (items.reverse.flatMap Item.ranges) =
      ByteRange.normalize (items.flatMap Item.ranges) :=
  (ByteRange.normalize_perm ((List.reverse_perm items).flatMap_right _).symm h.ordered).symm

theorem Leaf.word_brackets_append (negated : Bool) (items : List Item) (following : Bytes) :
    (Leaf.brackets negated items).word ++ following =
      '['.toUInt8 :: ((if negated then ['^'.toUInt8] else []) ++
        Item.wordsBefore (']'.toUInt8 :: following) items) := by
  have hitems := Item.wordsBefore_append [']'.toUInt8] following items
  rw [Leaf.word, List.cons_append, List.append_assoc, ← hitems]
  rfl

/-- The set that is read behind the circumflex, or without one. -/
theorem exists_items_iff {opening position : Nat} {bytes : Bytes} {negated : Bool} {set : ByteSet}
    {behind : Nat} :
    (∃ ranges, readMembers opening [] none 0 position bytes = .ok (ranges, behind) ∧
        set = ⟨ByteRange.normalize ranges, negated⟩) ↔
      ∃ items following, bytes = Item.wordsBefore (']'.toUInt8 :: following) items ∧
        Item.AllValid (']'.toUInt8 :: following) items ∧
        Atom.set set = (Leaf.brackets negated items).atom ∧
        behind = position + (Item.wordsBefore [']'.toUInt8] items).length := by
  constructor
  · rintro ⟨ranges, hread, rfl⟩
    obtain ⟨items, following, rfl, hvalid⟩ := exists_items_of_readMembers hread
    rw [readMembers_items hvalid, List.append_nil] at hread
    cases hread
    rw [normalize_reverse_items hvalid]
    exact ⟨items, following, rfl, hvalid, rfl, rfl⟩
  · rintro ⟨items, following, rfl, hvalid, hset, rfl⟩
    refine ⟨_, readMembers_items hvalid opening [] position, ?_⟩
    rw [List.append_nil, normalize_reverse_items hvalid]
    exact Atom.set.inj hset

/-- A circumflex behind the opening bracket always negates. -/
theorem readBrackets_ok_iff {opening : Nat} {rest : Bytes} {set : ByteSet} {behind : Nat} :
    readBrackets opening rest = .ok (set, behind) ↔
      ∃ (negated : Bool) (tail : Bytes),
        rest = (if negated then ['^'.toUInt8] else []) ++ tail ∧
        (negated = false → tail.head? ≠ some '^'.toUInt8) ∧
        ∃ ranges, readMembers opening [] none 0 (opening + 1 + negated.toNat) tail =
            .ok (ranges, behind) ∧
          set = ⟨ByteRange.normalize ranges, negated⟩ := by
  have hread (negated : Bool) (tail : Bytes)
      (hrest : rest = (if negated then ['^'.toUInt8] else []) ++ tail)
      (hany : rest.head?.any (·.toChar == '^') = negated) :
      readBrackets opening rest = .ok (set, behind) ↔
        ∃ ranges, readMembers opening [] none 0 (opening + 1 + negated.toNat) tail =
            .ok (ranges, behind) ∧
          set = ⟨ByteRange.normalize ranges, negated⟩ := by
    have hskip : readMembers opening [] none (if negated then 1 else 0) (opening + 1) rest =
        readMembers opening [] none 0 (opening + 1 + negated.toNat) tail := by
      rw [readMembers_skip, hrest]
      cases negated <;> rfl
    unfold readBrackets
    dsimp only
    rw [hany, hskip]
    cases readMembers opening [] none 0 (opening + 1 + negated.toNat) tail with
    | error error => simp
    | ok found =>
        obtain ⟨ranges, position⟩ := found
        simp [eq_comm, and_comm]
  have hcircumflex := @head?_any_toChar_iff rest '^' (by decide)
  constructor
  · intro h
    cases hany : rest.head?.any (·.toChar == '^') with
    | true =>
        obtain ⟨tail, hrest⟩ := List.head?_eq_some_iff.mp (hcircumflex.mp hany)
        exact ⟨true, tail, hrest, nofun, (hread true tail hrest hany).mp h⟩
    | false =>
        refine ⟨false, rest, rfl, fun _ hhead => ?_, (hread false rest rfl hany).mp h⟩
        rw [hcircumflex.mpr hhead] at hany
        cases hany
  · rintro ⟨negated, tail, hrest, hhead, hranges⟩
    refine (hread negated tail hrest ?_).mpr hranges
    cases negated with
    | true =>
        rw [hcircumflex, hrest]
        rfl
    | false =>
        obtain rfl : rest = tail := hrest
        exact Bool.eq_false_iff.mpr fun hany => hhead rfl (hcircumflex.mp hany)

/-- A bracket expression is read just as the grammar has it. -/
theorem readBrackets_iff {opening : Nat} {rest : Bytes} {set : ByteSet} {behind : Nat} :
    readBrackets opening rest = .ok (set, behind) ↔
      ∃ negated items following,
        '['.toUInt8 :: rest = (Leaf.brackets negated items).word ++ following ∧
        (∀ groups, (Leaf.brackets negated items).Valid groups following) ∧
        Atom.set set = (Leaf.brackets negated items).atom ∧
        behind = opening + (Leaf.brackets negated items).word.length := by
  have hlength (negated : Bool) (items : List Item) :
      opening + (Leaf.brackets negated items).word.length = opening + 1 + negated.toNat +
        (Item.wordsBefore [']'.toUInt8] items).length := by
    cases negated <;> simp [Leaf.word] <;> omega
  have hhead (items : List Item) (following : Bytes) :
      (Item.wordsBefore (']'.toUInt8 :: following) items).head? =
        (Item.wordsBefore [']'.toUInt8] items).head? := by
    cases items with
    | nil => rfl
    | cons item items =>
        cases item with
        | single m => cases m <;> rfl
        | range low high => cases low <;> rfl
  rw [readBrackets_ok_iff]
  simp only [exists_items_iff, Leaf.word_brackets_append, List.cons.injEq, true_and, hlength]
  constructor
  · rintro ⟨negated, tail, rfl, hcircumflex, items, following, rfl, hvalid, hset, rfl⟩
    rw [hhead] at hcircumflex
    exact ⟨negated, items, following, rfl, fun _ => ⟨hvalid, hcircumflex⟩, hset, rfl⟩
  · rintro ⟨negated, items, following, rfl, hvalid, hset, rfl⟩
    obtain ⟨hitems, hcircumflex⟩ := hvalid 0
    rw [← hhead items following] at hcircumflex
    exact ⟨negated, _, rfl, hcircumflex, items, following, rfl, hitems, hset, rfl⟩

end RegexSearch
