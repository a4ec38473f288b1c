import Mathlib.Logic.Relation
import RegexSearch.Proofs.Pattern.Bracket
import RegexSearch.Proofs.Pattern.Quantifier

/-!
Reading as steps. A step reads one construct of the grammar: an atom without parentheses, the
opening or the closing of a group, a bar, or a quantifier. The reader gets to the end of a pattern
just if there are such steps from its beginning to its end.
-/

namespace RegexSearch

/-- A point of reading: what has been kept, and the place in the pattern with the bytes behind. -/
structure Checkpoint where
  reader : Reader
  position : Nat
  rest : Bytes

/-- The atoms that a quantifier may follow. -/
theorem Derivation.isRepeatable_tree_iff {d : Derivation .atom} (position groups : Nat) :
    (d.tree position groups).isRepeatable = true ↔ d.isAnchor = false := by
  cases d with
  | leaf written =>
      cases written with
      | escape named =>
          change Tree.isRepeatable (.atom position named.meaning.atom) = true ↔ _
          cases named.meaning <;> exact ⟨fun _ => rfl, fun _ => rfl⟩
      | anchor kind => exact ⟨nofun, nofun⟩
      | _ => exact ⟨fun _ => rfl, fun _ => rfl⟩
  | group captures body => exact ⟨fun _ => rfl, fun _ => rfl⟩

namespace Reader

/-- The reader inside a group that has been opened at an offset. -/
def entered (reader : Reader) (position : Nat) (captures : Bool) : Reader where
  groups := reader.groups + captures.toNat
  level := .empty
  openings :=
    ⟨position, if captures then some (reader.groups + 1) else none, reader.level⟩ ::
      reader.openings

/-- The reader behind a group, of which `body` has been read. -/
def left (reader : Reader) (opening : Opening) (openings : List Opening) (body : Tree) :
    Reader where
  groups := reader.groups
  level := opening.outer.push (.group opening.position opening.index body)
  openings := openings

end Reader

/-- One construct is read. -/
inductive Takes : Checkpoint → Checkpoint → Prop
  | leaf (reader : Reader) (position : Nat) (written : Leaf) (following : Bytes)
      (hvalid : written.Valid reader.groups following) :
      Takes ⟨reader, position, written.word ++ following⟩
        ⟨reader.push (.atom position written.atom), position + written.word.length, following⟩
  | opening (reader : Reader) (position : Nat) (captures : Bool) (following : Bytes)
      (hdepth : reader.openings.length < maxNesting)
      (hplain : captures = true → following ≠ [] ∧ following.head? ≠ some '?'.toUInt8) :
      Takes ⟨reader, position, Derivation.opening captures ++ following⟩
        ⟨reader.entered position captures, position + (Derivation.opening captures).length,
          following⟩
  | closing (reader : Reader) (position : Nat) (following : Bytes) {opening : Opening}
      {openings : List Opening} {body : Tree} (hopenings : reader.openings = opening :: openings)
      (hbody : reader.level.tree? = some body) :
      Takes ⟨reader, position, ')'.toUInt8 :: following⟩
        ⟨reader.left opening openings body, position + 1, following⟩
  | bar (reader : Reader) (position : Nat) (following : Bytes) {level : Level}
      (hbar : reader.level.bar? = some level) :
      Takes ⟨reader, position, '|'.toUInt8 :: following⟩
        ⟨{ reader with level }, position + 1, following⟩
  | quantifier (reader : Reader) (position : Nat) (suffix : Suffix) (following : Bytes)
      {last : Tree} {before : List Tree} (hoperands : reader.level.operands = last :: before)
      (hrepeatable : last.isRepeatable = true) (hvalid : suffix.bounds.Valid)
      (hgreedy : suffix.greedy = true → following.head? ≠ some '?'.toUInt8) :
      Takes ⟨reader, position, suffix.word ++ following⟩
        ⟨{ reader with
            level := { reader.level with operands := .rep last suffix.times :: before } },
          position + suffix.word.length, following⟩

/-- The bytes that have a meaning of their own outside brackets, the quantifiers apart. -/
def operandChars : List Char :=
  ['(', ')', '|', '[', '\\', '.', '^', '$']

theorem Byte.isOrdinary_iff {b : Byte} :
    b.isOrdinary = true ↔ b.isQuantifier = false ∧ b.toChar ∉ operandChars := by
  unfold Byte.isOrdinary Byte.isQuantifier operandChars
  split <;> simp_all

namespace Reader

variable {reader next : Reader} {position taken : Nat} {b : Byte} {rest : Bytes}

/-- The step over a word that has been found in front of the bytes to be read. -/
theorem takes_word {word following : Bytes} (hbytes : b :: rest = word ++ following)
    (htaken : taken + 1 = word.length)
    (h : Takes ⟨reader, position, word ++ following⟩ ⟨next, position + word.length, following⟩) :
    Takes ⟨reader, position, b :: rest⟩ ⟨next, position + taken + 1, rest.drop taken⟩ := by
  rw [drop_of_cons_eq_append hbytes htaken, hbytes, Nat.add_assoc, htaken]
  exact h

theorem openGroup_map_eq_ok_iff {index : Option Nat} {count : Nat} :
    (reader.openGroup position index).map (·, count) = .ok (next, taken) ↔
      reader.openings.length < maxNesting ∧ taken = count ∧ next = { reader with
        level := .empty
        openings := ⟨position, index, reader.level⟩ :: reader.openings } := by
  unfold openGroup
  split
  · rename_i hdeep
    simp only [refuse, Except.map, reduceCtorEq, false_iff]
    exact fun h => absurd h.1 (Nat.not_lt.mpr hdeep)
  · rename_i hdepth
    simp only [Except.map, Except.ok.injEq, Prod.mk.injEq, Nat.lt_of_not_le hdepth, true_and]
    rw [and_comm, eq_comm, @eq_comm _ next]

theorem takes_of_readOpening (h : reader.readOpening position rest = .ok (next, taken)) :
    Takes ⟨reader, position, '('.toUInt8 :: rest⟩
      ⟨next, position + taken + 1, rest.drop taken⟩ := by
  unfold readOpening at h
  split at h
  · cases h
  · cases h
  · rename_i hchars
    obtain ⟨hdepth, rfl, rfl⟩ := openGroup_map_eq_ok_iff.mp h
    match rest, hchars with
    | [_], hchars => simp at hchars
    | mark :: colon :: following, hchars =>
        obtain ⟨hmark, hcolon⟩ := List.cons.inj hchars
        obtain rfl := Byte.eq_of_toChar hmark
        obtain rfl := Byte.eq_of_toChar (List.cons.inj hcolon).1
        exact .opening reader position false following hdepth nofun
  · cases h
  · rename_i hempty hmark hplain hother
    obtain ⟨hdepth, rfl, rfl⟩ := openGroup_map_eq_ok_iff.mp h
    refine .opening reader position true rest hdepth fun _ => ⟨?_, ?_⟩
    · rintro rfl
      exact hempty rfl
    · intro hhead
      obtain ⟨following, rfl⟩ := List.head?_eq_some_iff.mp hhead
      exact hother _ rfl

theorem takes_of_readClosing (h : reader.readClosing position = .ok (next, taken)) :
    Takes ⟨reader, position, ')'.toUInt8 :: rest⟩
      ⟨next, position + taken + 1, rest.drop taken⟩ := by
  unfold readClosing at h
  split at h
  · cases h
  · cases h
  · rename_i opening openings body hopenings hbody
    cases h
    exact .closing reader position rest hopenings hbody

theorem takes_of_readBar (h : reader.readBar position = .ok (next, taken)) :
    Takes ⟨reader, position, '|'.toUInt8 :: rest⟩
      ⟨next, position + taken + 1, rest.drop taken⟩ := by
  unfold readBar at h
  split at h
  · cases h
  · rename_i level hbar
    cases h
    exact .bar reader position rest hbar

theorem takes_of_readSet (h : reader.readSet position rest = .ok (next, taken)) :
    Takes ⟨reader, position, '['.toUInt8 :: rest⟩
      ⟨next, position + taken + 1, rest.drop taken⟩ := by
  unfold readSet at h
  split at h
  · cases h
  · rename_i set behind hset
    cases h
    obtain ⟨negated, items, following, hbytes, hvalid, hatom, rfl⟩ := readBrackets_iff.mp hset
    rw [hatom]
    refine takes_word hbytes ?_ (.leaf reader position _ following (hvalid _))
    simp only [Leaf.word, List.length_cons]
    omega

theorem takes_of_readBackslash (h : reader.readBackslash position rest = .ok (next, taken)) :
    Takes ⟨reader, position, '\\'.toUInt8 :: rest⟩
      ⟨next, position + taken + 1, rest.drop taken⟩ := by
  unfold readBackslash at h
  split at h
  · cases h
  · rename_i a count hescape
    cases h
    obtain ⟨leaf, following, hbytes, hvalid, rfl, htaken⟩ := readEscape_operand_iff.mp hescape
    exact takes_word hbytes htaken (.leaf reader position leaf following hvalid)

theorem takes_of_readRepetition (hb : b.isQuantifier = true)
    (h : reader.readRepetition position b rest = .ok (next, taken)) :
    Takes ⟨reader, position, b :: rest⟩ ⟨next, position + taken + 1, rest.drop taken⟩ := by
  unfold readRepetition at h
  split at h
  · cases h
  · rename_i last before hoperands
    split at h
    · rename_i hrepeatable
      split at h
      · cases h
      · rename_i times count hquantifier
        cases h
        obtain ⟨suffix, following, hbytes, hvalid, hgreedy, rfl, htaken⟩ :=
          (readQuantifier_iff hb).mp hquantifier
        exact takes_word hbytes htaken
          (.quantifier reader position suffix following hoperands hrepeatable hvalid hgreedy)
    · cases h

theorem takes_of_advance (h : reader.advance position b rest = .ok (next, taken)) :
    Takes ⟨reader, position, b :: rest⟩ ⟨next, position + taken + 1, rest.drop taken⟩ := by
  unfold advance at h
  split at h
  · rename_i hchar
    obtain rfl := Byte.eq_of_toChar hchar
    exact takes_of_readOpening h
  · rename_i hchar
    obtain rfl := Byte.eq_of_toChar hchar
    exact takes_of_readClosing h
  · rename_i hchar
    obtain rfl := Byte.eq_of_toChar hchar
    exact takes_of_readBar h
  · rename_i hchar
    obtain rfl := Byte.eq_of_toChar hchar
    exact takes_of_readSet h
  · rename_i hchar
    obtain rfl := Byte.eq_of_toChar hchar
    exact takes_of_readBackslash h
  · rename_i hchar
    obtain rfl := Byte.eq_of_toChar hchar
    cases h
    exact .leaf reader position .any rest trivial
  · rename_i hchar
    obtain rfl := Byte.eq_of_toChar hchar
    cases h
    exact .leaf reader position (.anchor .textBegin) rest trivial
  · rename_i hchar
    obtain rfl := Byte.eq_of_toChar hchar
    cases h
    exact .leaf reader position (.anchor .textEnd) rest trivial
  · split at h
    · rename_i hquantifier
      exact takes_of_readRepetition hquantifier h
    · rename_i hquantifier
      cases h
      refine .leaf reader position (.byte b) rest ?_
      refine Byte.isOrdinary_iff.mpr ⟨Bool.eq_false_iff.mpr hquantifier, ?_⟩
      simp only [operandChars, List.mem_cons, List.not_mem_nil, or_false, not_or]
      exact ⟨‹_›, ‹_›, ‹_›, ‹_›, ‹_›, ‹_›, ‹_›, ‹_›⟩

theorem advance_of_isOrdinary (hb : b.isOrdinary = true) :
    reader.advance position b rest = .ok (reader.push (.atom position (.byte b)), 0) := by
  obtain ⟨hquantifier, hchar⟩ := Byte.isOrdinary_iff.mp hb
  simp only [operandChars, List.mem_cons, List.not_mem_nil, or_false, not_or] at hchar
  unfold advance
  split
  · exact absurd ‹_› hchar.1
  · exact absurd ‹_› hchar.2.1
  · exact absurd ‹_› hchar.2.2.1
  · exact absurd ‹_› hchar.2.2.2.1
  · exact absurd ‹_› hchar.2.2.2.2.1
  · exact absurd ‹_› hchar.2.2.2.2.2.1
  · exact absurd ‹_› hchar.2.2.2.2.2.2.1
  · exact absurd ‹_› hchar.2.2.2.2.2.2.2
  · rw [hquantifier]
    rfl

theorem advance_of_isQuantifier (hb : b.isQuantifier = true) :
    reader.advance position b rest = reader.readRepetition position b rest := by
  unfold advance
  split
  all_goals
    try
      rename_i hchar
      obtain rfl := Byte.eq_of_toChar hchar
      cases hb
  rw [if_pos hb]

theorem advance_backslash {written : Leaf} {following : Bytes}
    (hrest : '\\'.toUInt8 :: rest = written.word ++ following)
    (htaken : taken + 1 = written.word.length) (hvalid : written.Valid reader.groups following) :
    reader.advance position '\\'.toUInt8 rest =
      .ok (reader.push (.atom position written.atom), taken) := by
  have hescape := readEscape_operand_iff.mpr ⟨written, following, hrest, hvalid, rfl, htaken⟩
  change reader.readBackslash position rest = _
  rw [readBackslash, hescape]

theorem advance_brackets {negated : Bool} {items : List Item} {following : Bytes}
    (hrest : '['.toUInt8 :: rest = (Leaf.brackets negated items).word ++ following)
    (htaken : taken + 1 = (Leaf.brackets negated items).word.length)
    (hvalid : (Leaf.brackets negated items).Valid reader.groups following) :
    reader.advance position '['.toUInt8 rest =
      .ok (reader.push (.atom position (Leaf.brackets negated items).atom), taken) := by
  have hset := (@readBrackets_iff position rest _ (position + (taken + 1))).mpr
    ⟨negated, items, following, hrest, fun _ => hvalid, rfl, by rw [htaken]⟩
  have hbehind : position + (taken + 1) - (position + 1) = taken := by omega
  change reader.readSet position rest = _
  rw [readSet, hset]
  dsimp only
  rw [hbehind]
  rfl

/-- The next construct is read, and `taken` counts its bytes behind the first. -/
theorem advance_leaf {written : Leaf} {following : Bytes}
    (hvalid : written.Valid reader.groups following) :
    ∃ b rest taken, b :: rest = written.word ++ following ∧ taken + 1 = written.word.length ∧
      reader.advance position b rest =
        .ok (reader.push (.atom position written.atom), taken) := by
  cases written with
  | byte value => exact ⟨value, following, 0, rfl, rfl, advance_of_isOrdinary hvalid⟩
  | any => exact ⟨_, following, 0, rfl, rfl, rfl⟩
  | anchor kind =>
      cases kind with
      | textBegin => exact ⟨_, following, 0, rfl, rfl, rfl⟩
      | textEnd => exact ⟨_, following, 0, rfl, rfl, rfl⟩
      | wordBoundary => exact ⟨_, 'b'.toUInt8 :: following, 1, rfl, rfl, rfl⟩
      | nonWordBoundary => exact ⟨_, 'B'.toUInt8 :: following, 1, rfl, rfl, rfl⟩
  | escape named => exact ⟨_, _, named.name.length, rfl, rfl, advance_backslash rfl rfl hvalid⟩
  | reference number => exact ⟨_, _, number.length, rfl, rfl, advance_backslash rfl rfl hvalid⟩
  | brackets negated items => exact ⟨_, _, _, rfl, rfl, advance_brackets rfl rfl hvalid⟩

theorem advance_opening {captures : Bool} {following : Bytes}
    (hdepth : reader.openings.length < maxNesting)
    (hplain : captures = true → following ≠ [] ∧ following.head? ≠ some '?'.toUInt8) :
    ∃ b rest taken, b :: rest = Derivation.opening captures ++ following ∧
      taken + 1 = (Derivation.opening captures).length ∧
      reader.advance position b rest = .ok (reader.entered position captures, taken) := by
  have hopen (source : Reader) (index : Option Nat) (count : Nat)
      (hdepth : source.openings.length < maxNesting) :=
    (@openGroup_map_eq_ok_iff source _ position count index count).mpr ⟨hdepth, rfl, rfl⟩
  cases captures with
  | false =>
      refine ⟨'('.toUInt8, '?'.toUInt8 :: ':'.toUInt8 :: following, 2, rfl, rfl, ?_⟩
      exact hopen reader none 2 hdepth
  | true =>
      refine ⟨'('.toUInt8, following, 0, rfl, rfl, ?_⟩
      obtain ⟨hne, hmark⟩ := hplain rfl
      obtain ⟨b, rest, rfl⟩ := List.exists_cons_of_ne_nil hne
      have hchar : b.toChar ≠ '?' := by
        intro hchar
        rw [Byte.eq_of_toChar hchar] at hmark
        exact hmark rfl
      change reader.readOpening position (b :: rest) = _
      unfold readOpening
      split
      · rename_i hchars
        cases hchars
      · rename_i hchars
        exact absurd (List.cons.inj hchars).1 hchar
      · rename_i hchars
        exact absurd (List.cons.inj hchars).1 hchar
      · rename_i hchars
        exact absurd (List.cons.inj hchars).1 hchar
      · exact hopen { reader with groups := reader.groups + 1 } (some (reader.groups + 1)) 0 hdepth

theorem advance_quantifier {suffix : Suffix} {following : Bytes} {last : Tree}
    {before : List Tree} (hoperands : reader.level.operands = last :: before)
    (hrepeatable : last.isRepeatable = true) (hvalid : suffix.bounds.Valid)
    (hgreedy : suffix.greedy = true → following.head? ≠ some '?'.toUInt8) :
    ∃ b rest taken, b :: rest = suffix.word ++ following ∧ taken + 1 = suffix.word.length ∧
      reader.advance position b rest = .ok ({ reader with
        level := { reader.level with operands := .rep last suffix.times :: before } }, taken) := by
  obtain ⟨b, rest, hword, hb⟩ := suffix.exists_head
  refine ⟨b, rest ++ following, rest.length, by rw [hword]; rfl, by rw [hword]; rfl, ?_⟩
  have hquantifier := Suffix.readQuantifier_word hvalid hword hgreedy
  rw [advance_of_isQuantifier hb]
  simp only [readRepetition, hoperands, hrepeatable, if_true, hquantifier]

theorem advance_of_takes {here there : Checkpoint} (h : Takes here there) :
    ∃ b rest taken word, here.rest = b :: rest ∧ b :: rest = word ++ there.rest ∧
      taken + 1 = word.length ∧ there.position = here.position + word.length ∧
      here.reader.advance here.position b rest = .ok (there.reader, taken) := by
  cases h with
  | leaf reader position written following hvalid =>
      obtain ⟨b, rest, taken, hbytes, htaken, hadvance⟩ := advance_leaf hvalid
      exact ⟨b, rest, taken, _, hbytes.symm, hbytes, htaken, rfl, hadvance⟩
  | opening reader position captures following hdepth hplain =>
      obtain ⟨b, rest, taken, hbytes, htaken, hadvance⟩ := advance_opening hdepth hplain
      exact ⟨b, rest, taken, _, hbytes.symm, hbytes, htaken, rfl, hadvance⟩
  | closing reader position following hopenings hbody =>
      refine ⟨_, following, 0, [')'.toUInt8], rfl, rfl, rfl, rfl, ?_⟩
      change reader.readClosing position = _
      simp only [readClosing, hopenings, hbody]
      rfl
  | bar reader position following hbar =>
      refine ⟨_, following, 0, ['|'.toUInt8], rfl, rfl, rfl, rfl, ?_⟩
      change reader.readBar position = _
      simp only [readBar, hbar]
  | quantifier reader position suffix following hoperands hrepeatable hvalid hgreedy =>
      obtain ⟨b, rest, taken, hbytes, htaken, hadvance⟩ :=
        advance_quantifier hoperands hrepeatable hvalid hgreedy
      exact ⟨b, rest, taken, _, hbytes.symm, hbytes, htaken, rfl, hadvance⟩

theorem readFrom_skip (reader : Reader) (skip position : Nat) (bytes : Bytes) :
    reader.readFrom skip position bytes =
      reader.readFrom 0 (position + skip) (bytes.drop skip) := by
  induction skip generalizing position bytes with
  | zero => rfl
  | succ skip ih =>
      cases bytes with
      | nil => rfl
      | cons b rest =>
          have hposition : position + (skip + 1) = position + 1 + skip := by omega
          rw [readFrom, ih, hposition]
          rfl

theorem readFrom_of_takes {here there : Checkpoint} (h : Takes here there) :
    here.reader.readFrom 0 here.position here.rest =
      there.reader.readFrom 0 there.position there.rest := by
  obtain ⟨b, rest, taken, word, hrest, hbytes, htaken, hposition, hadvance⟩ := advance_of_takes h
  rw [hrest, readFrom, hadvance]
  dsimp only
  rw [readFrom_skip, drop_of_cons_eq_append hbytes htaken, hposition, ← htaken, Nat.add_assoc,
    Nat.add_comm 1]

/-- The reader gets to the end just if there are steps to it. -/
theorem readFrom_eq_ok_iff {last : Reader} {bytes : Bytes} :
    reader.readFrom 0 position bytes = .ok last ↔
      ∃ ending, Relation.ReflTransGen Takes ⟨reader, position, bytes⟩ ⟨last, ending, []⟩ := by
  constructor
  · intro h
    induction hlength : bytes.length using Nat.strongRecOn generalizing reader position bytes with
    | ind length ih =>
        cases bytes with
        | nil =>
            cases h
            exact ⟨position, .refl⟩
        | cons b rest =>
            rw [readFrom] at h
            split at h
            · cases h
            · rename_i next taken hadvance
              rw [readFrom_skip] at h
              have hshorter : (rest.drop taken).length < length := by
                rw [← hlength, List.length_drop, List.length_cons]
                omega
              obtain ⟨ending, hsteps⟩ := ih _ hshorter h rfl
              have htakes := takes_of_advance hadvance
              rw [Nat.add_right_comm] at htakes
              exact ⟨ending, .head htakes hsteps⟩
  · rintro ⟨ending, hsteps⟩
    have hread : ∀ here : Checkpoint, Relation.ReflTransGen Takes here ⟨last, ending, []⟩ →
        here.reader.readFrom 0 here.position here.rest = .ok last := by
      intro here hsteps
      induction hsteps using Relation.ReflTransGen.head_induction_on with
      | refl => rfl
      | head htakes _ ih => rw [readFrom_of_takes htakes, ih]
    exact hread _ hsteps

end Reader

theorem Reader.finish_eq_ok_iff {reader : Reader} {position : Nat} {tree : Tree} :
    reader.finish position = .ok tree ↔
      reader.level.tree? = some tree ∧ reader.openings = [] := by
  unfold finish
  split
  · rename_i hnone
    simp [refuse, hnone]
  · rename_i hopenings
    simp [refuse, hopenings]
  · rename_i htree hopenings
    simp [htree, hopenings]

/-- A pattern is read just if there are steps to its end that leave a tree and no open group. -/
theorem readPattern_eq_ok_iff {pattern : Bytes} {tree : Tree} {groups : Nat} :
    readPattern pattern = ⟨groups, .ok tree⟩ ↔
      pattern ≠ [] ∧ ∃ (last : Reader) (ending : Nat),
        Relation.ReflTransGen Takes ⟨.start, 0, pattern⟩ ⟨last, ending, []⟩ ∧
        last.level.tree? = some tree ∧ last.openings = [] ∧ last.groups = groups := by
  have hread : readPattern pattern = ⟨groups, .ok tree⟩ ↔ pattern ≠ [] ∧ ∃ last,
      Reader.start.readFrom 0 0 pattern = .ok last ∧ last.finish pattern.length = .ok tree ∧
        last.groups = groups := by
    unfold readPattern
    split
    · rename_i hempty
      simp [List.isEmpty_iff.mp hempty]
    · rename_i hne
      rw [List.isEmpty_iff] at hne
      cases Reader.start.readFrom 0 0 pattern with
      | error refusal => simp
      | ok last =>
          dsimp only
          cases hfinish : last.finish pattern.length with
          | error refusal => simp [hfinish]
          | ok found => simp [hne, hfinish, and_comm]
  rw [hread]
  simp only [Reader.readFrom_eq_ok_iff, Reader.finish_eq_ok_iff]
  constructor
  · rintro ⟨hne, last, ⟨ending, hsteps⟩, ⟨htree, hopenings⟩, hgroups⟩
    exact ⟨hne, last, ending, hsteps, htree, hopenings, hgroups⟩
  · rintro ⟨hne, last, ending, hsteps, htree, hopenings, hgroups⟩
    exact ⟨hne, last, ⟨ending, hsteps⟩, ⟨htree, hopenings⟩, hgroups⟩

end RegexSearch
