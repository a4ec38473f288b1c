import RegexSearch.Proofs.Pattern.Grammar

/-!
How escapes are read. A byte behind a backslash names what the escape stands for, and the reader
takes just the bytes of the name. Only a backreference depends on more: it takes further digits
as long as the number still names a group.
-/

namespace RegexSearch

namespace Byte

theorem toUInt8_toChar (b : Byte) : b.toChar.toUInt8 = b :=
  UInt8.toUInt8_toUInt32 b

theorem eq_of_toChar {b : Byte} {c : Char} (h : b.toChar = c) : b = c.toUInt8 := by
  rw [← h, toUInt8_toChar]

end Byte

/-- Asking for the next byte by its character asks for the byte. -/
theorem head?_any_toChar_iff {bytes : Bytes} {c : Char} (hc : Byte.toChar c.toUInt8 = c) :
    bytes.head?.any (·.toChar == c) = true ↔ bytes.head? = some c.toUInt8 := by
  cases bytes with
  | nil => simp
  | cons b rest =>
      simp only [List.head?_cons, Option.any_some, beq_iff_eq, Option.some.injEq]
      refine ⟨Byte.eq_of_toChar, ?_⟩
      intro heq
      rw [heq, hc]

/-- What is left behind a word of which the first byte has been read already. -/
theorem drop_of_cons_eq_append {b : Byte} {rest word following : Bytes} {taken : Nat}
    (hbytes : b :: rest = word ++ following) (htaken : taken + 1 = word.length) :
    rest.drop taken = following := by
  rw [← @List.drop_succ_cons _ b, hbytes, htaken, List.drop_left]

/-! ### Decimal numbers -/

/-- The number that further digits make of a number. -/
def appendDigits (number : Nat) (digits : Bytes) : Nat :=
  digits.foldl (fun value digit => value * 10 + digit.digitValue) number

theorem appendDigits_cons (number : Nat) (digit : Byte) (digits : Bytes) :
    appendDigits number (digit :: digits) =
      appendDigits (number * 10 + digit.digitValue) digits := by
  simp only [appendDigits, List.foldl_cons]

theorem digitsValue_append (digits more : Bytes) :
    digitsValue (digits ++ more) = appendDigits (digitsValue digits) more := by
  simp [digitsValue, appendDigits]

theorem digitsValue_cons (digit : Byte) (more : Bytes) :
    digitsValue (digit :: more) = appendDigits digit.digitValue more := by
  simp [digitsValue, appendDigits]

theorem le_appendDigits (number : Nat) (digits : Bytes) : number ≤ appendDigits number digits := by
  induction digits generalizing number with
  | nil => exact Nat.le_refl number
  | cons digit digits ih =>
      have hfurther := ih (number * 10 + digit.digitValue)
      rw [appendDigits_cons]
      omega

/-- The next byte is no digit, or the longer number is too large. -/
def StopsNumber (groups number : Nat) (following : Bytes) : Prop :=
  ∀ digit rest, following = digit :: rest → digit.isDigit = true →
    groups < number * 10 + digit.digitValue

theorem continueReference_append {groups number : Nat} {more following : Bytes}
    (hdigits : ∀ digit ∈ more, digit.isDigit = true) (hle : appendDigits number more ≤ groups)
    (hstops : StopsNumber groups (appendDigits number more) following) :
    continueReference groups number (more ++ following) =
      (appendDigits number more, more.length) := by
  induction more generalizing number with
  | nil =>
      cases following with
      | nil => rfl
      | cons digit rest =>
          have hstop : ¬ (digit.isDigit = true ∧ number * 10 + digit.digitValue ≤ groups) := by
            rintro ⟨hdigit, hsmall⟩
            have hlarge : groups < number * 10 + digit.digitValue := hstops digit rest rfl hdigit
            omega
          simp only [List.nil_append, continueReference, Bool.and_eq_true, decide_eq_true_eq]
          rw [if_neg hstop]
          rfl
  | cons digit more ih =>
      obtain ⟨hdigit, hdigits⟩ := List.forall_mem_cons.mp hdigits
      rw [appendDigits_cons] at hle hstops ⊢
      have hsmall := Nat.le_trans (le_appendDigits _ more) hle
      simp only [List.cons_append, continueReference, Bool.and_eq_true, decide_eq_true_eq]
      rw [if_pos ⟨hdigit, hsmall⟩, ih hdigits hle hstops]
      rfl

/-- The digits that belong to a backreference can always be told from the bytes behind them. -/
theorem exists_stopsNumber {groups number : Nat} (hle : number ≤ groups) (bytes : Bytes) :
    ∃ more following, bytes = more ++ following ∧ (∀ digit ∈ more, digit.isDigit = true) ∧
      appendDigits number more ≤ groups ∧
      StopsNumber groups (appendDigits number more) following := by
  induction bytes generalizing number with
  | nil => exact ⟨[], [], rfl, (fun _ hmem => nomatch hmem), hle, fun _ _ heq => nomatch heq⟩
  | cons digit bytes ih =>
      by_cases hgoes : digit.isDigit = true ∧ number * 10 + digit.digitValue ≤ groups
      · obtain ⟨more, following, rfl, hdigits, hmore, hstops⟩ := ih hgoes.2
        exact ⟨digit :: more, following, rfl, List.forall_mem_cons.mpr ⟨hgoes.1, hdigits⟩, hmore,
          hstops⟩
      · refine ⟨[], digit :: bytes, rfl, (fun _ hmem => nomatch hmem), hle, ?_⟩
        rintro _ _ ⟨⟩ hdigit
        have hlarge : ¬ number * 10 + digit.digitValue ≤ groups := fun hsmall =>
          hgoes ⟨hdigit, hsmall⟩
        exact Nat.lt_of_not_le hlarge

/-- A backreference stops where a further digit would name no group. -/
theorem stopsNumber_iff {groups : Nat} {number following : Bytes} (h : GroupNumber groups number) :
    StopsNumber groups (digitsValue number) following ↔
      ∀ more, more <+: following → GroupNumber groups (number ++ more) → more = [] := by
  constructor
  · rintro hstops more ⟨behind, rfl⟩ hlonger
    cases more with
    | nil => rfl
    | cons digit more =>
        have hdigit := hlonger.digits digit (List.mem_append_right _ List.mem_cons_self)
        have hlarge := hstops digit (more ++ behind) rfl hdigit
        have hle := hlonger.le
        rw [digitsValue_append, appendDigits_cons] at hle
        have hgrows := le_appendDigits (digitsValue number * 10 + digit.digitValue) more
        omega
  · rintro hlongest digit rest rfl hdigit
    apply Nat.lt_of_not_le
    intro hsmall
    have hlonger : GroupNumber groups (number ++ [digit]) := by
      refine ⟨?_, ?_, ?_⟩
      · obtain ⟨first, more, rfl, hzero⟩ := h.first
        exact ⟨first, more ++ [digit], rfl, hzero⟩
      · intro other hmem
        rcases List.mem_append.mp hmem with hmem | hmem
        · exact h.digits other hmem
        · rw [List.mem_singleton.mp hmem]
          exact hdigit
      · rw [digitsValue_append]
        exact hsmall
    cases hlongest [digit] ⟨rest, rfl⟩ hlonger

theorem readReference_iff {groups : Nat} {digit : Byte} {rest : Bytes} {a : Atom} {taken : Nat}
    (hdigit : digit.isDigit = true) (hzero : digit ≠ '0'.toUInt8) :
    readReference groups digit rest = .ok (a, taken) ↔
      ∃ more following, rest = more ++ following ∧
        (Leaf.reference (digit :: more)).Valid groups following ∧
        a = (Leaf.reference (digit :: more)).atom ∧ taken = more.length + 1 := by
  constructor
  · intro h
    unfold readReference at h
    split at h
    · cases h
    · rename_i hsmall
      obtain ⟨more, following, rfl, hdigits, hle, hstops⟩ :=
        exists_stopsNumber (Nat.le_of_not_lt hsmall) rest
      rw [continueReference_append hdigits hle hstops] at h
      cases h
      rw [← digitsValue_cons] at hle hstops
      have hnumber : GroupNumber groups (digit :: more) :=
        ⟨⟨digit, more, rfl, hzero⟩, List.forall_mem_cons.mpr ⟨hdigit, hdigits⟩, hle⟩
      refine ⟨more, following, rfl, ⟨hnumber, (stopsNumber_iff hnumber).mp hstops⟩, ?_, rfl⟩
      rw [← digitsValue_cons]
      rfl
  · rintro ⟨more, following, rfl, ⟨hnumber, hlongest⟩, rfl, rfl⟩
    have hstops := (stopsNumber_iff hnumber).mpr hlongest
    have hle := hnumber.le
    rw [digitsValue_cons] at hle hstops
    have hsmall : ¬ groups < digit.digitValue :=
      Nat.not_lt.mpr (Nat.le_trans (le_appendDigits _ more) hle)
    have hdigits := (List.forall_mem_cons.mp hnumber.digits).2
    simp only [readReference, if_neg hsmall, continueReference_append hdigits hle hstops,
      ← digitsValue_cons]
    rfl

/-! ### Escapes -/

/-- What may be read behind a backslash. -/
inductive ReadsEscape : EscapeContext → Bytes → Atom → Nat → Prop
  | named (context : EscapeContext) (e : Escape) (hvalid : e.Valid) (following : Bytes) :
      ReadsEscape context (e.name ++ following) e.meaning.atom e.name.length
  | backspace (following : Bytes) :
      ReadsEscape .brackets ('b'.toUInt8 :: following) (.byte 0x08) 1
  | boundary (groups : Nat) (following : Bytes) :
      ReadsEscape (.operand groups) ('b'.toUInt8 :: following) (.anchor .wordBoundary) 1
  | nonBoundary (groups : Nat) (following : Bytes) :
      ReadsEscape (.operand groups) ('B'.toUInt8 :: following) (.anchor .nonWordBoundary) 1
  | reference {groups : Nat} {digit : Byte} {rest : Bytes} {a : Atom} {taken : Nat}
      (hdigit : digit.isDigit = true) (hzero : digit ≠ '0'.toUInt8)
      (hread : readReference groups digit rest = .ok (a, taken)) :
      ReadsEscape (.operand groups) (digit :: rest) a taken

section ReadsEscape

variable {context : EscapeContext} {b : Byte} {rest : Bytes} {a : Atom} {taken : Nat}

theorem readsEscape_control {c : Char} {value : Byte} (hchar : b.toChar = c)
    (hmem : (c.toUInt8, value) ∈ controlNames)
    (h : Except.ok (ε := Cause) (Atom.byte value, 1) = .ok (a, taken)) :
    ReadsEscape context (b :: rest) a taken := by
  obtain rfl := Byte.eq_of_toChar hchar
  cases h
  exact .named context (.control c.toUInt8 value) hmem rest

theorem readsEscape_predefined {c : Char} {members : ByteSet} (hchar : b.toChar = c)
    (hmem : (c.toUInt8, members) ∈ predefinedNames)
    (h : Except.ok (ε := Cause) (Atom.set members, 1) = .ok (a, taken)) :
    ReadsEscape context (b :: rest) a taken := by
  obtain rfl := Byte.eq_of_toChar hchar
  cases h
  exact .named context (.predefined c.toUInt8 members) hmem rest

theorem readsEscape_of_readControl (h : readControl rest = .ok (a, taken)) :
    ReadsEscape context ('c'.toUInt8 :: rest) a taken := by
  unfold readControl at h
  split at h
  · rename_i value following
    split at h
    · rename_i hletter
      cases h
      exact .named context (.letter value) hletter following
    · cases h
  · cases h

theorem readsEscape_of_readHexadecimal (h : readHexadecimal rest = .ok (a, taken)) :
    ReadsEscape context ('x'.toUInt8 :: rest) a taken := by
  unfold readHexadecimal at h
  split at h
  · rename_i high low following
    split at h
    · rename_i upper lower hupper hlower
      cases h
      have hvalid : (Escape.hexadecimal high low).Valid := by
        simp [Escape.Valid, hupper, hlower]
      have hnamed := ReadsEscape.named context _ hvalid following
      simp only [Escape.meaning, hupper, hlower, Option.getD_some] at hnamed
      exact hnamed
    · cases h
  · cases h

theorem readsEscape_of_readEscape {bytes : Bytes} (h : readEscape context bytes = .ok (a, taken)) :
    ReadsEscape context bytes a taken := by
  unfold readEscape at h
  split at h
  · cases h
  · rename_i b rest
    split at h
    · exact readsEscape_control (by assumption) (by decide) h
    · exact readsEscape_control (by assumption) (by decide) h
    · exact readsEscape_control (by assumption) (by decide) h
    · exact readsEscape_control (by assumption) (by decide) h
    · exact readsEscape_control (by assumption) (by decide) h
    · exact readsEscape_control (by assumption) (by decide) h
    · rename_i hchar
      obtain rfl := Byte.eq_of_toChar hchar
      exact readsEscape_of_readControl h
    · rename_i hchar
      obtain rfl := Byte.eq_of_toChar hchar
      exact readsEscape_of_readHexadecimal h
    · exact readsEscape_predefined (by assumption) (by decide) h
    · exact readsEscape_predefined (by assumption) (by decide) h
    · exact readsEscape_predefined (by assumption) (by decide) h
    · exact readsEscape_predefined (by assumption) (by decide) h
    · exact readsEscape_predefined (by assumption) (by decide) h
    · exact readsEscape_predefined (by assumption) (by decide) h
    · rename_i hchar
      obtain rfl := Byte.eq_of_toChar hchar
      cases context with
      | brackets =>
          cases h
          exact .backspace rest
      | operand groups =>
          cases h
          exact .boundary groups rest
    · rename_i hchar
      obtain rfl := Byte.eq_of_toChar hchar
      cases context with
      | brackets => cases h
      | operand groups =>
          cases h
          exact .nonBoundary groups rest
    · rename_i hzero _ _ _ _ _ _ _ _ _ _
      split at h
      · rename_i hdigit
        cases context with
        | brackets => cases h
        | operand groups =>
            refine .reference hdigit ?_ h
            rintro rfl
            exact hzero rfl
      · split at h
        · cases h
        · rename_i hword
          cases h
          exact .named context (.literal b) (Bool.eq_false_iff.mpr hword) rest

end ReadsEscape

theorem readEscape_name (context : EscapeContext) {e : Escape} (h : e.Valid) (following : Bytes) :
    readEscape context (e.name ++ following) = .ok (e.meaning.atom, e.name.length) := by
  cases e with
  | control name value =>
      simp only [Escape.Valid, controlNames, List.mem_cons, Prod.mk.injEq, List.not_mem_nil,
        or_false] at h
      rcases h with ⟨rfl, rfl⟩ | ⟨rfl, rfl⟩ | ⟨rfl, rfl⟩ | ⟨rfl, rfl⟩ | ⟨rfl, rfl⟩ | ⟨rfl, rfl⟩ <;>
        rfl
  | letter value =>
      have hletter : value.isLetter = true := h
      change readControl (value :: following) = _
      simp only [readControl, hletter, if_true]
      rfl
  | hexadecimal high low =>
      obtain ⟨upper, hupper⟩ := Option.isSome_iff_exists.mp h.1
      obtain ⟨lower, hlower⟩ := Option.isSome_iff_exists.mp h.2
      change readHexadecimal (high :: low :: following) = _
      simp only [readHexadecimal, Escape.meaning, hupper, hlower, Option.getD_some]
      rfl
  | predefined name members =>
      simp only [Escape.Valid, predefinedNames, List.mem_cons, Prod.mk.injEq, List.not_mem_nil,
        or_false] at h
      rcases h with ⟨rfl, rfl⟩ | ⟨rfl, rfl⟩ | ⟨rfl, rfl⟩ | ⟨rfl, rfl⟩ | ⟨rfl, rfl⟩ | ⟨rfl, rfl⟩ <;>
        rfl
  | literal value =>
      have hword : value.isWord = false := h
      have hdigit : value.isDigit = false :=
        (Bool.or_eq_false_iff.mp (Bool.or_eq_false_iff.mp hword).1).1
      have hother (c : Char) (hc : Byte.isWord c.toUInt8 = true) : value.toChar ≠ c := by
        intro heq
        rw [Byte.eq_of_toChar heq, hc] at hword
        cases hword
      change readEscape context (value :: following) = _
      simp only [readEscape, hdigit, hword]
      split <;> rename_i hchar
      all_goals try exact absurd hchar (hother _ (by decide))
      rfl

theorem readEscape_digit {groups : Nat} {digit : Byte} (hdigit : digit.isDigit = true)
    (hzero : digit ≠ '0'.toUInt8) (rest : Bytes) :
    readEscape (.operand groups) (digit :: rest) = readReference groups digit rest := by
  have hother (c : Char) (hc : Byte.isDigit c.toUInt8 = false) : digit.toChar ≠ c := by
    intro heq
    rw [Byte.eq_of_toChar heq, hc] at hdigit
    cases hdigit
  simp only [readEscape, hdigit]
  split <;> rename_i hchar
  all_goals try exact absurd hchar (hother _ (by decide))
  · exact absurd (Byte.eq_of_toChar hchar) hzero
  · rfl

/-- Outside brackets, an escape is read just as the grammar has it. -/
theorem readEscape_operand_iff {groups : Nat} {bytes : Bytes} {a : Atom} {taken : Nat} :
    readEscape (.operand groups) bytes = .ok (a, taken) ↔
      ∃ (leaf : Leaf) (following : Bytes), '\\'.toUInt8 :: bytes = leaf.word ++ following ∧
        leaf.Valid groups following ∧ a = leaf.atom ∧ taken + 1 = leaf.word.length := by
  constructor
  · intro h
    cases readsEscape_of_readEscape h with
    | named _ e hvalid following => exact ⟨.escape e, following, rfl, hvalid, rfl, rfl⟩
    | boundary _ following =>
        exact ⟨.anchor .wordBoundary, following, rfl, trivial, rfl, rfl⟩
    | nonBoundary _ following =>
        exact ⟨.anchor .nonWordBoundary, following, rfl, trivial, rfl, rfl⟩
    | reference hdigit hzero hread =>
        obtain ⟨more, following, rfl, hvalid, rfl, rfl⟩ := (readReference_iff hdigit hzero).mp hread
        exact ⟨_, following, rfl, hvalid, rfl, rfl⟩
  · rintro ⟨leaf, following, hbytes, hvalid, rfl, htaken⟩
    cases leaf with
    | byte value =>
        obtain ⟨rfl, -⟩ := List.cons.inj hbytes
        cases hvalid
    | any => cases (List.cons.inj hbytes).1
    | anchor kind =>
        cases kind with
        | textBegin => cases (List.cons.inj hbytes).1
        | textEnd => cases (List.cons.inj hbytes).1
        | wordBoundary =>
            obtain rfl := (List.cons.inj hbytes).2
            cases htaken
            rfl
        | nonWordBoundary =>
            obtain rfl := (List.cons.inj hbytes).2
            cases htaken
            rfl
    | escape e =>
        obtain rfl := (List.cons.inj hbytes).2
        cases htaken
        exact readEscape_name _ hvalid following
    | reference number =>
        obtain rfl := (List.cons.inj hbytes).2
        cases htaken
        obtain ⟨digit, more, rfl, hzero⟩ := hvalid.1.first
        have hdigit := hvalid.1.digits digit List.mem_cons_self
        have hread : readReference groups digit (more ++ following) =
            .ok ((Leaf.reference (digit :: more)).atom, more.length + 1) :=
          (readReference_iff hdigit hzero).mpr ⟨more, following, rfl, hvalid, rfl, rfl⟩
        exact (readEscape_digit hdigit hzero (more ++ following)).trans hread
    | brackets negated items => cases (List.cons.inj hbytes).1

end RegexSearch
