import RegexSearch.Program.Listing
import RegexSearch.Proofs.ByteSet.Shown
import RegexSearch.Proofs.CommandLine.Printing
import RegexSearch.Proofs.Pattern.WellFormed
import RegexSearch.Proofs.Program.Attempt
import RegexSearch.Proofs.Program.Entries

/-!
What a listing tells about a program. It is read back line by line, and in a line the word of the
instruction and the numbers are read up to the first byte that belongs to no word. The set behind
an instruction ends its line. Every set of the table is referred to by an instruction, so nothing
of a program is left out; but two sets may be shown alike, and then two programs have the same
listing.
-/

namespace RegexSearch

/-! ### Words and numbers -/

/-- No byte of a word comes first. -/
def Separate (rest : Bytes) : Prop :=
  rest.head?.any Byte.isWord = false

/-- A word is determined by its bytes if it is separate from what follows. -/
theorem word_append_inj {word word' rest rest' : Bytes} (hword : ∀ b ∈ word, b.isWord = true)
    (hword' : ∀ b ∈ word', b.isWord = true) (hrest : Separate rest) (hrest' : Separate rest')
    (h : word ++ rest = word' ++ rest') : word = word' ∧ rest = rest' := by
  have htake {word rest : Bytes} (hword : ∀ b ∈ word, b.isWord = true) (hrest : Separate rest) :
      (word ++ rest).takeWhile Byte.isWord = word := by
    rw [List.takeWhile_append_of_pos hword]
    cases rest with
    | nil => simp
    | cons b rest =>
        rw [List.takeWhile_cons_of_neg (by simpa [Separate] using hrest), List.append_nil]
  have hsame := htake hword hrest
  rw [h, htake hword' hrest'] at hsame
  subst hsame
  exact ⟨rfl, List.append_cancel_left h⟩

theorem toChar_toUInt8_of_isDigit {c : Char} (h : c.isDigit = true) :
    Byte.toChar c.toUInt8 = c := by
  obtain ⟨-, hlast⟩ := Char.isDigit_iff_toNat.mp h
  apply Char.toNat_inj.mp
  change c.toNat % 256 = c.toNat
  exact Nat.mod_eq_of_lt (Nat.lt_of_le_of_lt hlast (by decide))

theorem decimal_injective : Function.Injective decimal := by
  have hread (number : Nat) :
      (decimal number).map Byte.toChar = Nat.toDigits 10 number := by
    rw [decimal, List.map_map]
    refine (List.map_congr_left fun c hc => ?_).trans (List.map_id _)
    exact toChar_toUInt8_of_isDigit (Nat.isDigit_of_mem_toDigits (by decide) (by decide) hc)
  intro number number' h
  have hdigits := congrArg (List.map Byte.toChar) h
  rw [hread, hread] at hdigits
  calc
    number = Nat.ofDigitChars 10 (Nat.toDigits 10 number) 0 := Nat.ofDigitChars_ten_toDigits.symm
    _ = Nat.ofDigitChars 10 (Nat.toDigits 10 number') 0 := by rw [hdigits]
    _ = number' := Nat.ofDigitChars_ten_toDigits

theorem isWord_of_mem_decimal {number : Nat} {b : Byte} (hmem : b ∈ decimal number) :
    b.isWord = true := by
  obtain ⟨c, hc, rfl⟩ := List.mem_map.mp hmem
  obtain ⟨hfirst, hlast⟩ := Char.isDigit_iff_toNat.mp
    (Nat.isDigit_of_mem_toDigits (by decide) (by decide) hc)
  have hcode : c.toUInt8.toNat = c.toNat :=
    Nat.mod_eq_of_lt (Nat.lt_of_le_of_lt hlast (by decide))
  have hdigit : Byte.isDigit c.toUInt8 = true := by
    simp only [Byte.isDigit, Byte.between, Bool.and_eq_true, decide_eq_true_eq,
      UInt8.le_iff_toNat_le, hcode]
    exact ⟨hfirst, hlast⟩
  simp [Byte.isWord, hdigit]

theorem decimal_append_inj {number number' : Nat} {rest rest' : Bytes} (hrest : Separate rest)
    (hrest' : Separate rest') (h : decimal number ++ rest = decimal number' ++ rest') :
    number = number' ∧ rest = rest' := by
  obtain ⟨hnumber, hsame⟩ := word_append_inj (fun _ => isWord_of_mem_decimal)
    (fun _ => isWord_of_mem_decimal) hrest hrest' h
  exact ⟨decimal_injective hnumber, hsame⟩

/-! ### Instructions -/

namespace Instr

/-- The word that an instruction is shown with. -/
def keyword : Instr → Bytes
  | byte _ => ascii "char"
  | set _ => ascii "class"
  | any => ascii "any"
  | split .. => ascii "split"
  | jump _ => ascii "jump"
  | openGroup _ => ascii "save"
  | closeGroup _ => ascii "save"
  | backref _ => ascii "backref"
  | assert _ => ascii "assert"
  | mark _ => ascii "mark"
  | check _ => ascii "check"
  | accept => ascii "accept"

/-- What is shown behind the word. -/
def operands : Instr → Bytes
  | byte value => ascii " '" ++ value.shown ++ ascii "'"
  | set index => ascii " #" ++ decimal index
  | split preferred other => ascii " " ++ decimal preferred ++ ascii ", " ++ decimal other
  | jump target => ascii " " ++ decimal target
  | openGroup group => ascii " " ++ decimal (2 * group)
  | closeGroup group => ascii " " ++ decimal (2 * group + 1)
  | backref group => ascii " " ++ decimal group
  | assert anchor => ascii " " ++ anchor.shown
  | mark slot => ascii " " ++ decimal slot
  | check slot => ascii " " ++ decimal slot
  | any => []
  | accept => []

theorem shown_eq (instr : Instr) : instr.shown = instr.keyword ++ instr.operands := by
  cases instr <;> rfl

theorem isWord_of_mem_keyword (instr : Instr) : ∀ b ∈ instr.keyword, b.isWord = true := by
  have hall : instr.keyword.all Byte.isWord = true := by cases instr <;> rfl
  exact List.all_eq_true.mp hall

theorem separate_operands {rest : Bytes} (hrest : Separate rest) (instr : Instr) :
    Separate (instr.operands ++ rest) := by
  cases instr with
  | any => exact hrest
  | accept => exact hrest
  | _ => rfl

theorem operand_inj {number number' : Nat} {rest rest' : Bytes} (hrest : Separate rest)
    (hrest' : Separate rest')
    (h : ascii " " ++ decimal number ++ rest = ascii " " ++ decimal number' ++ rest') :
    number = number' ∧ rest = rest' := by
  rw [List.append_assoc, List.append_assoc] at h
  exact decimal_append_inj hrest hrest' (List.append_cancel_left h)

theorem anchor_append_inj {anchor anchor' : Anchor} {rest rest' : Bytes}
    (h : anchor.shown ++ rest = anchor'.shown ++ rest') : anchor = anchor' ∧ rest = rest' := by
  cases anchor <;> cases anchor' <;> first
    | exact ⟨rfl, List.append_cancel_left h⟩
    | exact absurd (List.cons.inj h).1 (by decide)
    | exact absurd (List.cons.inj (List.cons.inj h).2).1 (by decide)

/-- An instruction is determined by what is shown of it. -/
theorem eq_of_shown_append {instr instr' : Instr} {rest rest' : Bytes} (hrest : Separate rest)
    (hrest' : Separate rest') (h : instr.shown ++ rest = instr'.shown ++ rest') :
    instr = instr' ∧ rest = rest' := by
  rw [shown_eq, shown_eq, List.append_assoc, List.append_assoc] at h
  obtain ⟨hkeyword, hoperands⟩ := word_append_inj instr.isWord_of_mem_keyword
    instr'.isWord_of_mem_keyword (separate_operands hrest instr) (separate_operands hrest' instr') h
  have hnumber {number number' : Nat} {make : Nat → Instr}
      (h : ascii " " ++ decimal number ++ rest = ascii " " ++ decimal number' ++ rest') :
      make number = make number' ∧ rest = rest' := by
    obtain ⟨rfl, hsame⟩ := operand_inj hrest hrest' h
    exact ⟨rfl, hsame⟩
  -- Only the two marks of a group share a word; every other pair of kinds is told apart by it.
  cases instr <;> cases instr' <;>
    try exact absurd hkeyword (by simp only [keyword]; decide)
  case byte.byte value value' =>
    simp only [operands, List.append_assoc, List.append_cancel_left_eq] at hoperands
    obtain ⟨rfl, hsame⟩ := Byte.eq_of_shown_append hoperands
    exact ⟨rfl, List.append_cancel_left hsame⟩
  case set.set index index' =>
    rw [operands, operands, List.append_assoc, List.append_assoc] at hoperands
    obtain ⟨rfl, hsame⟩ := decimal_append_inj hrest hrest' (List.append_cancel_left hoperands)
    exact ⟨rfl, hsame⟩
  case any.any => exact ⟨rfl, hoperands⟩
  case split.split preferred other preferred' other' =>
    have hcomma (rest : Bytes) : Separate (ascii ", " ++ rest) := rfl
    simp only [operands, List.append_assoc, List.append_cancel_left_eq] at hoperands
    obtain ⟨rfl, hothers⟩ := decimal_append_inj (hcomma _) (hcomma _) hoperands
    obtain ⟨rfl, hsame⟩ := decimal_append_inj hrest hrest' (List.append_cancel_left hothers)
    exact ⟨rfl, hsame⟩
  case jump.jump target target' => exact hnumber hoperands
  case openGroup.openGroup group group' =>
    obtain ⟨hdouble, hsame⟩ := operand_inj hrest hrest' hoperands
    exact ⟨congrArg openGroup (by omega), hsame⟩
  case openGroup.closeGroup group group' =>
    obtain ⟨hparity, -⟩ := operand_inj hrest hrest' hoperands
    omega
  case closeGroup.openGroup group group' =>
    obtain ⟨hparity, -⟩ := operand_inj hrest hrest' hoperands
    omega
  case closeGroup.closeGroup group group' =>
    obtain ⟨hdouble, hsame⟩ := operand_inj hrest hrest' hoperands
    exact ⟨congrArg closeGroup (by omega), hsame⟩
  case backref.backref group group' => exact hnumber hoperands
  case assert.assert anchor anchor' =>
    rw [operands, operands, List.append_assoc, List.append_assoc] at hoperands
    obtain ⟨rfl, hsame⟩ := anchor_append_inj (List.append_cancel_left hoperands)
    exact ⟨rfl, hsame⟩
  case mark.mark slot slot' => exact hnumber hoperands
  case check.check slot slot' => exact hnumber hoperands
  case accept.accept => exact ⟨rfl, hoperands⟩

end Instr

/-! ### Lines -/

theorem onOneLine_byte_shown (b : Byte) : OnOneLine b.shown := by
  have hall : ∀ code : Fin 256, OnOneLine (Byte.shown (UInt8.ofFin code)) := by decide +kernel
  exact hall b.toFin

theorem onOneLine_set_shown (set : ByteSet) : OnOneLine set.shown := by
  rw [ByteSet.shown_eq_flatMap]
  refine .append (.append (by decide) ?_) (by decide)
  intro b hmem
  obtain ⟨value, -, hb⟩ := List.mem_flatMap.mp hmem
  exact onOneLine_byte_shown value b hb

theorem Instr.onOneLine_shown (instr : Instr) : OnOneLine instr.shown := by
  cases instr with
  | byte value => exact .append (.append (by decide) (onOneLine_byte_shown value)) (by decide)
  | any => exact (by decide : OnOneLine (ascii "any"))
  | split preferred other =>
      exact .append (.append (.append (by decide) (.decimal _)) (by decide)) (.decimal _)
  | assert anchor => cases anchor <;> exact .append (by decide) (by decide)
  | accept => exact (by decide : OnOneLine (ascii "accept"))
  | _ => exact .append (by decide) (.decimal _)

namespace Program

variable {program program' : Program}

/-- The text of the set that an instruction refers to. -/
def comment (program : Program) (instr : Instr) : Bytes :=
  (program.setOf? instr).elim [] fun members => ascii " " ++ members.shown

/-- The line for an instruction, without the newline. -/
def row (program : Program) (pc : Nat) (instr : Instr) : Bytes :=
  column pc ++ ascii "  " ++ instr.shown ++ program.comment instr

/-- The lines for instructions of which the first stands at the position `pc`. -/
def rows (program : Program) : Nat → List Instr → List Bytes
  | _, [] => []
  | pc, instr :: rest => program.row pc instr :: program.rows (pc + 1) rest

/-- The heading, without the newline. -/
def title (program : Program) : Bytes :=
  ascii "; groups: " ++ decimal program.groups ++ ascii ", loops: " ++ decimal program.loops

theorem linesFrom_eq_unlines (program : Program) (pc : Nat) (code : List Instr) :
    program.linesFrom pc code = unlines (program.rows pc code) := by
  induction code generalizing pc with
  | nil => rfl
  | cons instr rest ih =>
      rw [linesFrom, ih]
      rfl

theorem listing_eq_unlines (program : Program) :
    program.listing = unlines (program.title :: program.rows 0 program.code.toList) := by
  rw [listing, linesFrom_eq_unlines]
  rfl

theorem onOneLine_comment (program : Program) (instr : Instr) :
    OnOneLine (program.comment instr) := by
  unfold comment
  cases program.setOf? instr with
  | none => exact .nil
  | some members => exact .append (by decide) (onOneLine_set_shown members)

theorem onOneLine_row (program : Program) (pc : Nat) (instr : Instr) :
    OnOneLine (program.row pc instr) := by
  have hblanks : OnOneLine (List.replicate (4 - (decimal pc).length) ' '.toUInt8) := by
    intro b hmem
    rw [List.eq_of_mem_replicate hmem]
    decide
  exact .append (.append (.append (.append hblanks (.decimal pc)) (by decide))
    instr.onOneLine_shown) (program.onOneLine_comment instr)

theorem onOneLine_of_mem_rows (program : Program) {pc : Nat} {code : List Instr} {row : Bytes}
    (hmem : row ∈ program.rows pc code) : OnOneLine row := by
  induction code generalizing pc with
  | nil => cases hmem
  | cons instr rest ih =>
      rcases List.mem_cons.mp hmem with rfl | hmem
      · exact program.onOneLine_row pc instr
      · exact ih hmem

theorem onOneLine_title (program : Program) : OnOneLine program.title :=
  .append (.append (.append (by decide) (.decimal _)) (by decide)) (.decimal _)

/-- Two listings are the same only if their lines are. -/
theorem listing_eq_iff_rows : program.listing = program'.listing ↔
    program.title = program'.title ∧
      program.rows 0 program.code.toList = program'.rows 0 program'.code.toList := by
  have hlines (program : Program) :
      ∀ line ∈ program.title :: program.rows 0 program.code.toList, OnOneLine line :=
    List.forall_mem_cons.mpr ⟨program.onOneLine_title, fun _ => program.onOneLine_of_mem_rows⟩
  rw [listing_eq_unlines, listing_eq_unlines, ← List.cons_eq_cons]
  constructor
  · intro h
    rw [← lines_unlines (hlines program), h, lines_unlines (hlines program')]
  · exact congrArg unlines

theorem title_eq_iff : program.title = program'.title ↔
    program.groups = program'.groups ∧ program.loops = program'.loops := by
  have hcomma (rest : Bytes) : Separate (ascii ", loops: " ++ rest) := rfl
  constructor
  · intro h
    simp only [title, List.append_assoc, List.append_cancel_left_eq] at h
    obtain ⟨hgroups, hloops⟩ := decimal_append_inj (hcomma _) (hcomma _) h
    exact ⟨hgroups, decimal_injective (List.append_cancel_left hloops)⟩
  · rintro ⟨hgroups, hloops⟩
    rw [title, title, hgroups, hloops]

theorem separate_comment (program : Program) (instr : Instr) :
    Separate (program.comment instr) := by
  unfold comment
  cases program.setOf? instr <;> rfl

theorem comment_eq_iff {instr : Instr} : program.comment instr = program'.comment instr ↔
    (program.setOf? instr).map ByteSet.shown = (program'.setOf? instr).map ByteSet.shown := by
  unfold comment
  cases program.setOf? instr <;> cases program'.setOf? instr <;> simp [ascii]

theorem row_inj {pc : Nat} {instr instr' : Instr}
    (h : program.row pc instr = program'.row pc instr') :
    instr = instr' ∧ program.comment instr = program'.comment instr' := by
  simp only [row, List.append_assoc, List.append_cancel_left_eq] at h
  exact Instr.eq_of_shown_append (program.separate_comment instr)
    (program'.separate_comment instr') h

/-- Lines tell the instructions and what is said about their sets. -/
theorem rows_eq_iff {pc : Nat} {code code' : List Instr} :
    program.rows pc code = program'.rows pc code' ↔
      code = code' ∧ ∀ instr ∈ code, program.comment instr = program'.comment instr := by
  induction code generalizing pc code' with
  | nil => cases code' <;> simp [rows]
  | cons instr rest ih =>
      cases code' with
      | nil => simp [rows]
      | cons instr' rest' =>
          rw [rows, rows, List.cons_eq_cons, ih, List.cons_eq_cons, List.forall_mem_cons]
          constructor
          · rintro ⟨hrow, rfl, hrest⟩
            obtain ⟨rfl, hcomment⟩ := row_inj hrow
            exact ⟨⟨rfl, rfl⟩, hcomment, hrest⟩
          · rintro ⟨⟨rfl, rfl⟩, hcomment, hrest⟩
            exact ⟨congrArg (_ ++ ·) hcomment, rfl, hrest⟩

end Program

/-! ### Sets -/

section Sets

variable {tree tree' : Tree} {groups groups' : Nat}

/-- A program refers to each set of its table. -/
theorem set_mem_code {index : Nat} (h : index < (Program.ofTree tree groups).sets.size) :
    .set index ∈ (Program.ofTree tree groups).code.toList := by
  have hentry : index ∈ List.range' 0 tree.sets.length := by
    simpa [Program.ofTree] using h
  have hused := (Table.lawful_sets.perm_ofTree tree groups).mem_iff.mpr hentry
  obtain ⟨instr, hinstr, hset⟩ := List.mem_filterMap.mp hused
  cases instr with
  | set other =>
      cases hset
      exact hinstr
  | _ => cases hset

/-- Programs with the same code say the same about their sets only if they have sets that are shown
alike. -/
theorem comments_eq_iff
    (hcode : (Program.ofTree tree groups).code = (Program.ofTree tree' groups').code) :
    (∀ instr ∈ (Program.ofTree tree groups).code.toList,
        (Program.ofTree tree groups).comment instr = (Program.ofTree tree' groups').comment instr) ↔
      tree.sets.map ByteSet.shown = tree'.sets.map ByteSet.shown := by
  have hset (tree : Tree) (groups index : Nat) :
      ((Program.ofTree tree groups).setOf? (.set index)).map ByteSet.shown =
        (tree.sets.map ByteSet.shown)[index]? := by
    simp [Program.setOf?, Program.ofTree]
  constructor
  · intro h
    apply List.ext_getElem?
    intro index
    rw [← hset tree groups, ← hset tree' groups', ← Program.comment_eq_iff]
    by_cases hindex : index < (Program.ofTree tree groups).sets.size
    · exact h _ (set_mem_code hindex)
    · by_cases hindex' : index < (Program.ofTree tree' groups').sets.size
      · apply h
        rw [hcode]
        exact set_mem_code hindex'
      · rw [Program.comment_eq_iff]
        simp [Program.setOf?, hindex, hindex']
  · intro h instr _
    rw [Program.comment_eq_iff]
    cases instr with
    | set index => rw [hset, hset, h]
    | _ => rfl

theorem Tree.Shaped.normal_of_mem_sets {tree : Tree} (h : tree.Shaped) {set : ByteSet}
    (hmem : set ∈ tree.sets) : ByteRange.Normal set.ranges := by
  induction tree with
  | atom position a =>
      cases a with
      | set members =>
          rw [List.mem_singleton.mp hmem]
          exact h
      | _ => cases hmem
  | group position index body ih => exact ih h hmem
  | cat first rest ihf ihr =>
      obtain ⟨-, -, hfirst, hrest⟩ := h
      exact (List.mem_append.mp hmem).elim (ihf hfirst) (ihr hrest)
  | alt first rest ihf ihr =>
      obtain ⟨-, hfirst, hrest⟩ := h
      exact (List.mem_append.mp hmem).elim (ihf hfirst) (ihr hrest)
  | rep body times ih =>
      obtain ⟨copy, hcopy, hmem⟩ := List.mem_flatten.mp hmem
      rw [List.eq_of_mem_replicate hcopy] at hmem
      exact ih h.2.2.2 hmem

end Sets

/-! ### Programs -/

/-- The sets of a compiled program are in normal form. -/
theorem normal_of_compilePattern {maxUnroll : Nat} {pattern : Bytes} {tree : Tree}
    {program : Program} (h : compilePattern maxUnroll pattern = ⟨some tree, .ok program⟩) :
    ∀ set ∈ tree.sets, ByteRange.Normal set.ranges := by
  obtain ⟨d, hderives, rfl, -⟩ := exists_derives_of_result (result_of_compilePattern h).1
  exact fun set hmem => (Derivation.shaped_tree hderives.valid 0).normal_of_mem_sets hmem

/-- Two compiled programs have the same listing only if they agree in everything but sets of which
one is taken for the other. So they are the same if their sets are plain. -/
theorem listing_eq_iff {maxUnroll maxUnroll' : Nat} {pattern pattern' : Bytes}
    {tree tree' : Tree} {program program' : Program}
    (hcompile : compilePattern maxUnroll pattern = ⟨some tree, .ok program⟩)
    (hcompile' : compilePattern maxUnroll' pattern' = ⟨some tree', .ok program'⟩) :
    (program.listing = program'.listing ↔
      program.code = program'.code ∧ program.groups = program'.groups ∧
        program.loops = program'.loops ∧
        List.Forall₂ (fun set set' => set = set' ∨ set.Confused set' ∨ set'.Confused set)
          program.sets.toList program'.sets.toList) ∧
    ((∀ set ∈ program.sets.toList, set.Plain) → (∀ set ∈ program'.sets.toList, set.Plain) →
      (program.listing = program'.listing ↔ program = program')) := by
  have hnormal := normal_of_compilePattern hcompile
  have hnormal' := normal_of_compilePattern hcompile'
  obtain ⟨groups, rfl⟩ : ∃ groups, program = Program.ofTree tree groups :=
    ⟨_, ofTree_of_lower (result_of_compilePattern hcompile).2⟩
  obtain ⟨groups', rfl⟩ : ∃ groups', program' = Program.ofTree tree' groups' :=
    ⟨_, ofTree_of_lower (result_of_compilePattern hcompile').2⟩
  have hlisting : (Program.ofTree tree groups).listing = (Program.ofTree tree' groups').listing ↔
      (Program.ofTree tree groups).code = (Program.ofTree tree' groups').code ∧
        groups = groups' ∧ tree.loopCount = tree'.loopCount ∧
        List.Forall₂ (fun set set' => set = set' ∨ set.Confused set' ∨ set'.Confused set)
          tree.sets tree'.sets := by
    rw [Program.listing_eq_iff_rows, Program.title_eq_iff, Program.rows_eq_iff, Array.toList_inj,
      ← ByteSet.map_shown_eq_iff hnormal hnormal']
    constructor
    · rintro ⟨⟨hgroups, hloops⟩, hcode, hcomments⟩
      exact ⟨hcode, hgroups, hloops, (comments_eq_iff hcode).mp hcomments⟩
    · rintro ⟨hcode, hgroups, hloops, hsets⟩
      exact ⟨⟨hgroups, hloops⟩, hcode, (comments_eq_iff hcode).mpr hsets⟩
  refine ⟨hlisting, ?_⟩
  intro hplain hplain'
  constructor
  · intro h
    obtain ⟨hcode, hgroups, hloops, hsets⟩ := hlisting.mp h
    have hsame : tree.sets.toArray = tree'.sets.toArray :=
      congrArg List.toArray (ByteSet.eq_of_forall₂_plain hsets hplain hplain')
    exact Program.mk.injEq .. ▸ ⟨hcode, hsame, hgroups, hloops⟩
  · intro h
    rw [h]

/-- In the listing of `[!\-~]` the minus is taken for that of the range `[!-~]`. -/
theorem listing_eq_iff_of_minus :
    let listed : Tree := .atom 0 (.set ⟨[⟨33, 33⟩, ⟨45, 45⟩, ⟨126, 126⟩], false⟩)
    let range : Tree := .atom 0 (.set ⟨[⟨33, 126⟩], false⟩)
    compilePattern 2000 (ascii "[!\\-~]") = ⟨some listed, .ok (Program.ofTree listed 0)⟩ ∧
      compilePattern 2000 (ascii "[!-~]") = ⟨some range, .ok (Program.ofTree range 0)⟩ ∧
      (Program.ofTree listed 0).listing = (Program.ofTree range 0).listing := by
  intro listed range
  have hlisted : compilePattern 2000 (ascii "[!\\-~]") =
      ⟨some listed, .ok (Program.ofTree listed 0)⟩ := rfl
  have hrange : compilePattern 2000 (ascii "[!-~]") =
      ⟨some range, .ok (Program.ofTree range 0)⟩ := rfl
  obtain ⟨hlisting, -⟩ := listing_eq_iff hlisted hrange
  have hconfused : ByteSet.Confused ⟨[⟨33, 33⟩, ⟨45, 45⟩, ⟨126, 126⟩], false⟩
      ⟨[⟨33, 126⟩], false⟩ :=
    .ranges false (.single 33 126 [])
  exact ⟨hlisted, hrange, hlisting.mpr ⟨rfl, rfl, rfl, .cons (.inr (.inl hconfused)) .nil⟩⟩

/-- Listings do not tell programs apart: `[^a]` and `[a^]` have the same one. -/
theorem not_forall_eq_of_listing_eq :
    ¬ ∀ (maxUnroll maxUnroll' : Nat) (pattern pattern' : Bytes) (tree tree' : Tree)
      (program program' : Program), compilePattern maxUnroll pattern = ⟨some tree, .ok program⟩ →
      compilePattern maxUnroll' pattern' = ⟨some tree', .ok program'⟩ →
      program.listing = program'.listing → program = program' := by
  intro h
  let negated : Tree := .atom 0 (.set ⟨[⟨97, 97⟩], true⟩)
  let listed : Tree := .atom 0 (.set ⟨[⟨94, 94⟩, ⟨97, 97⟩], false⟩)
  have hlisting : (Program.ofTree negated 0).listing = (Program.ofTree listed 0).listing := by
    decide +kernel
  have hsame := h 2000 2000 (ascii "[^a]") (ascii "[a^]") negated listed _ _ rfl rfl hlisting
  exact absurd hsame (by decide)

end RegexSearch
