import RegexSearch.Proofs.Pattern.Completeness
import RegexSearch.Proofs.Pattern.Soundness

/-!
The grammar is unambiguous. Two derivations that write the same bytes, up to what ends them, are
the same. For escapes, leaves and quantifiers this uses that reading is a function: what is read
fixes the length of the word, and then the word fixes the rest.

With soundness and completeness, reading a pattern is finding its one derivation.
-/

namespace RegexSearch

namespace Escape

theorem eq_of_name {e e' : Escape} (h : e.Valid) (h' : e'.Valid) (hname : e.name = e'.name)
    (hmeaning : e.meaning.atom = e'.meaning.atom) : e = e' := by
  have hliteral {name value value' : Byte} (hmem : (name, value) ∈ controlNames)
      (hvalue : value'.isWord = false) (heq : name = value') : False := by
    have hall : controlNames.all (·.1.isWord) = true := by decide
    rw [← heq, List.all_eq_true.mp hall _ hmem] at hvalue
    cases hvalue
  cases e with
  | control name value =>
      cases e' with
      | control name' value' =>
          cases hname
          cases hmeaning
          rfl
      | letter value' => cases hname
      | hexadecimal high low => cases hname
      | predefined name' members => cases hmeaning
      | literal value' => exact (hliteral h h' (List.cons.inj hname).1).elim
  | letter value =>
      cases e' with
      | letter value' =>
          cases hname
          rfl
      | _ => cases hname
  | hexadecimal high low =>
      cases e' with
      | hexadecimal high' low' =>
          cases hname
          rfl
      | _ => cases hname
  | predefined name members =>
      cases e' with
      | predefined name' members' =>
          cases hname
          cases hmeaning
          rfl
      | control name' value' => cases hmeaning
      | letter value' => cases hmeaning
      | hexadecimal high low => cases hmeaning
      | literal value' => cases hmeaning
  | literal value =>
      cases e' with
      | control name' value' => exact (hliteral h' h (List.cons.inj hname).1.symm).elim
      | letter value' => cases hname
      | hexadecimal high low => cases hname
      | predefined name' members => cases hmeaning
      | literal value' =>
          cases hname
          rfl

/-- An escape is determined by its bytes, whatever follows. -/
theorem eq_of_append {e e' : Escape} {following following' : Bytes} (h : e.Valid) (h' : e'.Valid)
    (heq : e.word ++ following = e'.word ++ following') : e = e' ∧ following = following' := by
  have hnames : e.name ++ following = e'.name ++ following' := List.tail_eq_of_cons_eq heq
  have hread := readEscape_name .brackets h following
  rw [hnames, readEscape_name .brackets h' following'] at hread
  obtain ⟨hmeaning, hlength⟩ := Prod.mk.inj (Except.ok.inj hread)
  obtain ⟨hname, hfollowing⟩ := List.append_inj hnames hlength.symm
  exact ⟨eq_of_name h h' hname hmeaning.symm, hfollowing⟩

end Escape

namespace Member

theorem backspace_ne_escape {e : Escape} (h : e.Valid) : (escape e).word ≠ backspace.word := by
  intro heq
  have hname : e.name = ['b'.toUInt8] := List.tail_eq_of_cons_eq heq
  cases e with
  | control name value =>
      cases hname
      have hall : controlNames.all (·.1 != 'b'.toUInt8) = true := by decide
      exact Bool.false_ne_true (List.all_eq_true.mp hall _ h)
  | letter value => cases hname
  | hexadecimal high low => cases hname
  | predefined name members =>
      cases hname
      have hall : predefinedNames.all (·.1 != 'b'.toUInt8) = true := by decide
      exact Bool.false_ne_true (List.all_eq_true.mp hall _ h)
  | literal value =>
      cases hname
      cases h

theorem eq_of_append {m m' : Member} {following following' : Bytes} (h : m.Valid) (h' : m'.Valid)
    (heq : m.word ++ following = m'.word ++ following') : m = m' ∧ following = following' := by
  obtain ⟨b, rest, hword, -⟩ := exists_head h
  obtain ⟨b', rest', hword', -⟩ := exists_head h'
  have hheads : b :: (rest ++ following) = b' :: (rest' ++ following') := by
    rw [hword, hword'] at heq
    exact heq
  have hread := readMember_word h hword following
  rw [(List.cons.inj hheads).1, (List.cons.inj hheads).2, readMember_word h' hword'] at hread
  obtain ⟨-, hlength⟩ := Prod.mk.inj (Except.ok.inj hread)
  obtain ⟨hwords, hfollowing⟩ :=
    List.append_inj heq (by rw [hword, hword', List.length_cons, List.length_cons, hlength])
  refine ⟨?_, hfollowing⟩
  cases m with
  | byte value =>
      cases m' with
      | byte value' =>
          cases hwords
          rfl
      | backspace => cases hwords
      | escape e => exact absurd (List.cons.inj hwords).1 h.2
  | backspace =>
      cases m' with
      | byte value' => cases hwords
      | backspace => rfl
      | escape e => exact absurd hwords.symm (backspace_ne_escape h')
  | escape e =>
      cases m' with
      | byte value' => exact absurd (List.cons.inj hwords).1.symm h'.2
      | backspace => exact absurd hwords (backspace_ne_escape h)
      | escape e' => rw [(Escape.eq_of_append h h' heq).1]

end Member

namespace Item

theorem exists_head {item : Item} {following : Bytes} (h : item.Valid following) :
    ∃ b rest, item.word = b :: rest ∧ b ≠ ']'.toUInt8 := by
  cases item with
  | single m => exact Member.exists_head h.1
  | range low high =>
      obtain ⟨b, rest, hword, hb⟩ := Member.exists_head h.1
      exact ⟨b, _, by rw [word, hword]; rfl, hb⟩

/-- The items of a bracket expression are determined by its bytes. -/
theorem eq_of_wordsBefore {items items' : List Item} {following following' : Bytes}
    (h : AllValid (']'.toUInt8 :: following) items)
    (h' : AllValid (']'.toUInt8 :: following') items')
    (heq : wordsBefore (']'.toUInt8 :: following) items =
      wordsBefore (']'.toUInt8 :: following') items') : items = items' ∧ following = following' := by
  -- A minus that joins nothing is not followed by a member.
  have hjoin {m high : Member} {rest rest' : Bytes} (hm : (single m).Valid rest)
      (hhigh : high.Valid) : rest ≠ '-'.toUInt8 :: (high.word ++ rest') := by
    intro hrest
    obtain ⟨b, tail, hword, hb⟩ := Member.exists_head hhigh
    rw [hword] at hrest
    exact hb (hm.2 b (tail ++ rest') hrest)
  induction items generalizing items' with
  | nil =>
      cases items' with
      | nil => exact ⟨rfl, (List.cons.inj heq).2⟩
      | cons item' items' =>
          obtain ⟨b, rest, hword, hb⟩ := exists_head h'.1
          rw [wordsBefore, wordsBefore, hword] at heq
          exact absurd (List.cons.inj heq).1.symm hb
  | cons item items ih =>
      cases items' with
      | nil =>
          obtain ⟨b, rest, hword, hb⟩ := exists_head h.1
          rw [wordsBefore, wordsBefore, hword] at heq
          exact absurd (List.cons.inj heq).1 hb
      | cons item' items' =>
          obtain ⟨hitem, hitems⟩ := h
          obtain ⟨hitem', hitems'⟩ := h'
          rw [wordsBefore, wordsBefore] at heq
          cases item with
          | single m =>
              cases item' with
              | single m' =>
                  obtain ⟨rfl, hrest⟩ := Member.eq_of_append hitem.1 hitem'.1 heq
                  obtain ⟨rfl, hfollowing⟩ := ih hitems hitems' hrest
                  exact ⟨rfl, hfollowing⟩
              | range low' high' =>
                  rw [word, word, List.append_assoc] at heq
                  obtain ⟨rfl, hrest⟩ := Member.eq_of_append hitem.1 hitem'.1 heq
                  exact absurd hrest (hjoin hitem hitem'.2.1)
          | range low high =>
              cases item' with
              | single m' =>
                  rw [word, word, List.append_assoc] at heq
                  obtain ⟨rfl, hrest⟩ := Member.eq_of_append hitem.1 hitem'.1 heq
                  exact absurd hrest.symm (hjoin hitem' hitem.2.1)
              | range low' high' =>
                  rw [word, word, List.append_assoc, List.append_assoc] at heq
                  obtain ⟨rfl, hhighs⟩ := Member.eq_of_append hitem.1 hitem'.1 heq
                  obtain ⟨rfl, hrest⟩ :=
                    Member.eq_of_append hitem.2.1 hitem'.2.1 (List.cons.inj hhighs).2
                  obtain ⟨rfl, hfollowing⟩ := ih hitems hitems' hrest
                  exact ⟨rfl, hfollowing⟩

end Item

namespace Leaf

theorem ne_backslash {value : Byte} (h : value.isOrdinary = true) : value ≠ '\\'.toUInt8 := by
  rintro rfl
  cases h

/-- What is written like an escape and means the same is an escape. -/
theorem exists_escape {named : Escape} {written : Leaf} {groups : Nat} {following : Bytes}
    (h : written.Valid groups following) (hword : (escape named).word = written.word)
    (hatom : (escape named).atom = written.atom) : ∃ named', written = escape named' := by
  change named.meaning.atom = written.atom at hatom
  cases written with
  | byte value => exact absurd (List.cons.inj hword).1.symm (ne_backslash h)
  | any => cases (List.cons.inj hword).1
  | anchor kind => cases hmeaning : named.meaning <;> rw [hmeaning] at hatom <;> cases hatom
  | escape named' => exact ⟨named', rfl⟩
  | reference number => cases hmeaning : named.meaning <;> rw [hmeaning] at hatom <;> cases hatom
  | brackets negated items => cases (List.cons.inj hword).1

/-- Reading is a function, so what is read fixes the word and the atom. -/
theorem word_and_atom_eq {written written' : Leaf} {groups : Nat} {following following' : Bytes}
    (h : written.Valid groups following) (h' : written'.Valid groups following')
    (heq : written.word ++ following = written'.word ++ following') :
    written.word = written'.word ∧ following = following' ∧ written.atom = written'.atom := by
  obtain ⟨b, rest, taken, hbytes, htaken, hadvance⟩ :=
    @Reader.advance_leaf ⟨groups, .empty, []⟩ 0 _ _ h
  obtain ⟨b', rest', taken', hbytes', htaken', hadvance'⟩ :=
    @Reader.advance_leaf ⟨groups, .empty, []⟩ 0 _ _ h'
  obtain ⟨rfl, rfl⟩ := List.cons.inj (hbytes.trans (heq.trans hbytes'.symm))
  rw [hadvance'] at hadvance
  obtain ⟨hreader, rfl⟩ := Prod.mk.inj (Except.ok.inj hadvance)
  have hoperands := congrArg (fun reader => reader.level.operands) hreader
  simp only [Reader.push, Level.push, List.cons.injEq, Tree.atom.injEq] at hoperands
  obtain ⟨hwords, hfollowing⟩ := List.append_inj heq (htaken.symm.trans htaken')
  exact ⟨hwords, hfollowing, hoperands.1.2.symm⟩

/-- A leaf is determined by its bytes and by those that follow. -/
theorem eq_of_append {written written' : Leaf} {groups : Nat} {following following' : Bytes}
    (h : written.Valid groups following) (h' : written'.Valid groups following')
    (heq : written.word ++ following = written'.word ++ following') :
    written = written' ∧ following = following' := by
  obtain ⟨hwords, hfollowing, hatom⟩ := word_and_atom_eq h h' heq
  refine ⟨?_, hfollowing⟩
  cases written with
  | escape named =>
      obtain ⟨named', rfl⟩ := exists_escape h' hwords hatom
      rw [(Escape.eq_of_append h h' heq).1]
  | byte value =>
      cases written' with
      | byte value' =>
          cases hatom
          rfl
      | escape named => cases (exists_escape h hwords.symm hatom.symm).choose_spec
      | _ => cases hatom
  | any =>
      cases written' with
      | any => rfl
      | escape named => cases (exists_escape h hwords.symm hatom.symm).choose_spec
      | _ => cases hatom
  | anchor kind =>
      cases written' with
      | anchor kind' =>
          cases hatom
          rfl
      | escape named => cases (exists_escape h hwords.symm hatom.symm).choose_spec
      | _ => cases hatom
  | reference number =>
      cases written' with
      | reference number' => rw [List.tail_eq_of_cons_eq hwords]
      | escape named => cases (exists_escape h hwords.symm hatom.symm).choose_spec
      | _ => cases hatom
  | brackets negated items =>
      cases written' with
      | brackets negated' items' =>
          have hnegated : negated = negated' := congrArg ByteSet.negated (Atom.set.inj hatom)
          rw [hnegated] at heq ⊢
          rw [word_brackets_append, word_brackets_append] at heq
          have hitems := List.append_cancel_left (List.tail_eq_of_cons_eq heq)
          rw [(Item.eq_of_wordsBefore h.1 h'.1 hitems).1]
      | escape named => cases (exists_escape h hwords.symm hatom.symm).choose_spec
      | _ => cases hatom

end Leaf

/-! ### Quantifiers -/

namespace Bounds

theorem not_mem_count {count : Bytes} (h : IsCount count) : ','.toUInt8 ∉ count := by
  intro hmem
  cases h.digits _ hmem

theorem exactly_ne_between {count low high : Bytes} (h : IsCount count) :
    (exactly count).word ≠ (between low high).word := by
  intro hword
  have hmem : ','.toUInt8 ∈ count ++ ['}'.toUInt8] := by
    rw [List.tail_eq_of_cons_eq hword]
    simp
  rcases List.mem_append.mp hmem with hmem | hmem
  · exact not_mem_count h hmem
  · cases List.mem_singleton.mp hmem

/-- Bounds are determined by their bytes, once it is known what they bound. -/
theorem eq_of_word {written written' : Bounds} (h : written.Valid) (h' : written'.Valid)
    (hword : written.word = written'.word) (hmax : written.max = written'.max) :
    written = written' := by
  cases written with
  | star => cases written' <;> first | rfl | cases hword
  | plus => cases written' <;> first | rfl | cases hword
  | option => cases written' <;> first | rfl | cases hword
  | exactly count =>
      cases written' with
      | exactly count' => rw [List.append_cancel_right (List.tail_eq_of_cons_eq hword)]
      | between low high => exact absurd hword (exactly_ne_between h)
      | atLeast count' => cases hmax
      | _ => cases hword
  | atLeast count =>
      cases written' with
      | atLeast count' => rw [List.append_cancel_right (List.tail_eq_of_cons_eq hword)]
      | exactly count' => cases hmax
      | between low high => cases hmax
      | _ => cases hword
  | between low high =>
      cases written' with
      | between low' high' =>
          have htails : low ++ ','.toUInt8 :: (high ++ ['}'.toUInt8]) =
              low' ++ ','.toUInt8 :: (high' ++ ['}'.toUInt8]) := List.tail_eq_of_cons_eq hword
          have hread := @readCount_append low h.1 ','.toUInt8 (by decide) (high ++ ['}'.toUInt8])
          rw [htails, readCount_append h'.1 (by decide)] at hread
          obtain ⟨-, hlength⟩ := Prod.mk.inj (Option.some.inj hread)
          obtain ⟨rfl, hhighs⟩ := List.append_inj htails hlength.symm
          rw [List.append_cancel_right (List.tail_eq_of_cons_eq hhighs)]
      | exactly count' => exact absurd hword.symm (exactly_ne_between h')
      | atLeast count' => cases hmax
      | _ => cases hword

end Bounds

namespace Suffix

theorem eq_of_word {suffix suffix' : Suffix} (h : suffix.bounds.Valid) (h' : suffix'.bounds.Valid)
    (hword : suffix.word = suffix'.word) (htimes : suffix.times = suffix'.times) :
    suffix = suffix' := by
  cases suffix with
  | mk bounds greedy =>
      cases suffix' with
      | mk bounds' greedy' =>
          obtain rfl : greedy = greedy' := congrArg Quantifier.greedy htimes
          have hbounds : bounds = bounds' := Bounds.eq_of_word h h'
            (List.append_cancel_right hword) (congrArg Quantifier.max htimes)
          rw [hbounds]

theorem eq_of_append {suffix suffix' : Suffix} {following following' : Bytes}
    (h : suffix.bounds.Valid) (h' : suffix'.bounds.Valid)
    (hends : Category.Ends following .repetition) (hends' : Category.Ends following' .repetition)
    (heq : suffix.word ++ following = suffix'.word ++ following') :
    suffix = suffix' ∧ following = following' := by
  have hmark {following : Bytes} (hends : Category.Ends following .repetition) :
      following.head? ≠ some '?'.toUInt8 := by
    intro hhead
    obtain ⟨rest, rfl⟩ := List.head?_eq_some_iff.mp hhead
    cases hends _ _ rfl
  obtain ⟨b, rest, hword, -⟩ := suffix.exists_head
  obtain ⟨b', rest', hword', -⟩ := suffix'.exists_head
  have hheads : b :: (rest ++ following) = b' :: (rest' ++ following') := by
    rw [hword, hword'] at heq
    exact heq
  have hread := readQuantifier_word h hword (fun _ => hmark hends)
  rw [(List.cons.inj hheads).1, (List.cons.inj hheads).2,
    readQuantifier_word h' hword' (fun _ => hmark hends')] at hread
  obtain ⟨htimes, hlength⟩ := Prod.mk.inj (Option.some.inj hread)
  obtain ⟨hwords, hfollowing⟩ :=
    List.append_inj heq (by rw [hword, hword', List.length_cons, List.length_cons, hlength])
  exact ⟨eq_of_word h h' hwords htimes.symm, hfollowing⟩

end Suffix

/-! ### Derivations -/

namespace Derivation

theorem exists_head_ne {category : Category} {d : Derivation category} {depth groups : Nat}
    {following : Bytes} (h : d.Valid depth groups following) :
    ∃ b rest, d.word = b :: rest ∧ b ≠ '?'.toUInt8 ∧ b ≠ ')'.toUInt8 ∧ b ≠ '|'.toUInt8 := by
  obtain ⟨b, rest, hword, hb⟩ := exists_head h
  refine ⟨b, rest, hword, ?_, ?_, ?_⟩
  all_goals
    rintro rfl
    cases hb

theorem leaf_ne_group {written : Leaf} {groups : Nat} {following : Bytes}
    (h : written.Valid groups following) (captures : Bool) (body : Derivation .alternation)
    (following' : Bytes) :
    (leaf written).word ++ following ≠ (group captures body).word ++ following' := by
  intro heq
  have hparenthesis : ((group captures body).word ++ following').head? = some '('.toUInt8 := by
    cases captures <;> rfl
  rw [← heq] at hparenthesis
  cases written with
  | byte value =>
      obtain rfl : value = '('.toUInt8 := Option.some.inj hparenthesis
      cases h
  | anchor kind => cases kind <;> cases hparenthesis
  | _ => cases hparenthesis

/-- Whether a group captures can be told from its bytes. -/
theorem captures_eq {captures captures' : Bool} {body body' : Derivation .alternation}
    {depth depth' groups groups' : Nat} {following following' rest rest' : Bytes}
    (h : body.Valid depth groups following) (h' : body'.Valid depth' groups' following')
    (heq : opening captures ++ (body.word ++ rest) = opening captures' ++ (body'.word ++ rest')) :
    captures = captures' := by
  obtain ⟨b, tail, hword, hb, -⟩ := exists_head_ne h
  obtain ⟨b', tail', hword', hb', -⟩ := exists_head_ne h'
  rw [hword, hword'] at heq
  cases captures <;> cases captures'
  · rfl
  · exact absurd (List.cons.inj (List.cons.inj heq).2).1.symm hb'
  · exact absurd (List.cons.inj (List.cons.inj heq).2).1 hb
  · rfl

/-- What ends a concatenation begins no operand. -/
theorem ne_word_of_ends {category : Category} {d : Derivation category} {depth groups : Nat}
    {following following' rest : Bytes} (h : d.Valid depth groups following)
    (hends : Category.Ends following' .concatenation) : following' ≠ d.word ++ rest := by
  intro heq
  obtain ⟨b, tail, hword, -, hclosing, hbar⟩ := exists_head_ne h
  rw [hword] at heq
  rcases hends with hnil | ⟨rest', hfollowing | hfollowing⟩
  · rw [hnil] at heq
    cases heq
  · rw [hfollowing] at heq
    exact hbar (List.cons.inj heq).1.symm
  · rw [hfollowing] at heq
    exact hclosing (List.cons.inj heq).1.symm

theorem ne_suffix_of_ends {suffix : Suffix} {following rest : Bytes}
    (hends : Category.Ends following .repetition) : following ≠ suffix.word ++ rest := by
  intro heq
  obtain ⟨b, tail, hword, hb⟩ := suffix.exists_head
  rw [hword] at heq
  rw [hends b (tail ++ rest) heq] at hb
  cases hb

theorem ne_bar_of_ends {following rest : Bytes} (hends : Category.Ends following .alternation) :
    following ≠ '|'.toUInt8 :: rest := by
  rintro rfl
  rcases hends with hnil | ⟨tail, hclosing⟩
  · cases hnil
  · cases (List.cons.inj hclosing).1

/-- A derivation is determined by its bytes, up to what ends them. -/
theorem eq_of_append {category : Category} {d d' : Derivation category} {depth groups : Nat}
    {following following' : Bytes} (h : d.Valid depth groups following)
    (h' : d'.Valid depth groups following') (hends : category.Ends following)
    (hends' : category.Ends following') (heq : d.word ++ following = d'.word ++ following') :
    d = d' ∧ following = following' := by
  -- Where the productions differ, the shorter one is followed by bytes that cannot end it.
  induction d generalizing depth groups following following' with
  | leaf written =>
      cases d' with
      | leaf written' =>
          obtain ⟨rfl, hfollowing⟩ := Leaf.eq_of_append h h' heq
          exact ⟨rfl, hfollowing⟩
      | group captures' body' => exact absurd heq (leaf_ne_group h _ _ _)
  | group captures body ih =>
      cases d' with
      | leaf written' => exact absurd heq.symm (leaf_ne_group h' _ _ _)
      | group captures' body' =>
          obtain ⟨hdepth, hbody⟩ := h
          obtain ⟨-, hbody'⟩ := h'
          simp only [word, List.append_assoc, List.singleton_append] at heq
          obtain rfl := captures_eq hbody hbody' heq
          obtain ⟨rfl, hclosing⟩ := ih hbody hbody' (.inr ⟨_, rfl⟩) (.inr ⟨_, rfl⟩)
            (List.append_cancel_left heq)
          exact ⟨rfl, (List.cons.inj hclosing).2⟩
  | once operand ih =>
      cases d' with
      | once operand' =>
          obtain ⟨rfl, hfollowing⟩ := ih h h' trivial trivial heq
          exact ⟨rfl, hfollowing⟩
      | repeated operand' suffix' =>
          rw [word, word, List.append_assoc] at heq
          obtain ⟨-, hsuffix⟩ := ih h h'.1 trivial trivial heq
          exact absurd hsuffix (ne_suffix_of_ends hends)
  | repeated operand suffix ih =>
      cases d' with
      | once operand' =>
          rw [word, word, List.append_assoc] at heq
          obtain ⟨-, hsuffix⟩ := ih h.1 h' trivial trivial heq
          exact absurd hsuffix.symm (ne_suffix_of_ends hends')
      | repeated operand' suffix' =>
          rw [word, word, List.append_assoc, List.append_assoc] at heq
          obtain ⟨rfl, hsuffix⟩ := ih h.1 h'.1 trivial trivial heq
          obtain ⟨rfl, hfollowing⟩ := Suffix.eq_of_append h.2.2 h'.2.2 hends hends' hsuffix
          exact ⟨rfl, hfollowing⟩
  | last operand ih =>
      cases d' with
      | last operand' =>
          obtain ⟨rfl, hfollowing⟩ := ih h h' hends.repetition hends'.repetition heq
          exact ⟨rfl, hfollowing⟩
      | more operand' rest' =>
          rw [word, word, List.append_assoc] at heq
          obtain ⟨-, hrest⟩ := ih h h'.1 hends.repetition (ends_word h'.2) heq
          exact absurd hrest (ne_word_of_ends h'.2 hends)
  | more operand rest ih ihrest =>
      cases d' with
      | last operand' =>
          rw [word, word, List.append_assoc] at heq
          obtain ⟨-, hrest⟩ := ih h.1 h' (ends_word h.2) hends'.repetition heq
          exact absurd hrest.symm (ne_word_of_ends h.2 hends')
      | more operand' rest' =>
          rw [word, word, List.append_assoc, List.append_assoc] at heq
          obtain ⟨rfl, hrest⟩ := ih h.1 h'.1 (ends_word h.2) (ends_word h'.2) heq
          obtain ⟨rfl, hfollowing⟩ := ihrest h.2 h'.2 hends hends' hrest
          exact ⟨rfl, hfollowing⟩
  | only branch ih =>
      cases d' with
      | only branch' =>
          obtain ⟨rfl, hfollowing⟩ := ih h h' hends.concatenation hends'.concatenation heq
          exact ⟨rfl, hfollowing⟩
      | choice branch' rest' =>
          rw [word, word, List.append_assoc] at heq
          obtain ⟨-, hbar⟩ := ih h h'.1 hends.concatenation (.inr ⟨_, .inl rfl⟩) heq
          exact absurd hbar (ne_bar_of_ends hends)
  | choice branch rest ih ihrest =>
      cases d' with
      | only branch' =>
          rw [word, word, List.append_assoc] at heq
          obtain ⟨-, hbar⟩ := ih h.1 h' (.inr ⟨_, .inl rfl⟩) hends'.concatenation heq
          exact absurd hbar.symm (ne_bar_of_ends hends')
      | choice branch' rest' =>
          rw [word, word, List.append_assoc, List.append_assoc] at heq
          obtain ⟨rfl, hbar⟩ := ih h.1 h'.1 (.inr ⟨_, .inl rfl⟩) (.inr ⟨_, .inl rfl⟩) heq
          obtain ⟨rfl, hfollowing⟩ := ihrest h.2 h'.2 hends hends' (List.cons.inj hbar).2
          exact ⟨rfl, hfollowing⟩

end Derivation

/-! ### The grammar of the reader -/

theorem readPattern_iff_exists_derives {pattern : Bytes} {groups : Nat} {tree : Tree} :
    readPattern pattern = ⟨groups, .ok tree⟩ ↔
      ∃ d : Derivation .alternation, d.Derives pattern ∧ d.tree 0 0 = tree ∧ d.groups = groups := by
  constructor
  · exact exists_derives_of_readPattern
  · rintro ⟨d, hderives, rfl, rfl⟩
    exact hderives.readPattern_eq

theorem Derivation.Derives.unique {d d' : Derivation .alternation} {pattern : Bytes}
    (h : d.Derives pattern) (h' : d'.Derives pattern) : d = d' := by
  have heq : d.word ++ [] = d'.word ++ [] := by rw [h.word, h'.word]
  exact (Derivation.eq_of_append h.valid h'.valid (.inl rfl) (.inl rfl) heq).1

/-- A pattern is read just if the grammar derives it, there is only one derivation then, and its
tree is the result. -/
theorem readPattern_reads_the_derivation (pattern : Bytes) :
    (∀ groups tree, readPattern pattern = ⟨groups, .ok tree⟩ ↔
        ∃ d : Derivation .alternation,
          d.Derives pattern ∧ d.tree 0 0 = tree ∧ d.groups = groups) ∧
      ∀ d d' : Derivation .alternation, d.Derives pattern → d'.Derives pattern → d = d' :=
  ⟨fun _ _ => readPattern_iff_exists_derives, fun _ _ h h' => h.unique h'⟩

/-- An underscore is neither a letter nor a digit, but its escape is refused as theirs are. -/
theorem escaped_underscore_is_refused :
    Byte.isLetter '_'.toUInt8 = false ∧ Byte.isDigit '_'.toUInt8 = false ∧
      (readPattern (ascii "\\_")).result = .error ⟨.badEscape, 0⟩ :=
  ⟨rfl, rfl, rfl⟩

end RegexSearch
