import RegexSearch.CommandLine.Report

/-!
Printing lines. What is printed for a match is a line of its own, because neither the name of a
source nor a number nor anything that is matched in a line has a newline in it. So the printed lines
can be read back from the output, and counted.
-/

namespace RegexSearch

/-- Bytes that make up one line. -/
def OnOneLine (bytes : Bytes) : Prop :=
  ∀ b ∈ bytes, b.toChar ≠ '\n'

instance (bytes : Bytes) : Decidable (OnOneLine bytes) :=
  List.decidableBAll (fun b : Byte => b.toChar ≠ '\n') bytes

/-- Lines one after the other, each with the newline that ends it. -/
def unlines (printed : List Bytes) : Bytes :=
  printed.flatMap (· ++ ascii "\n")

namespace OnOneLine

variable {bytes : Bytes}

theorem nil : OnOneLine [] :=
  fun _ hmem => absurd hmem List.not_mem_nil

theorem append {first second : Bytes} (hfirst : OnOneLine first) (hsecond : OnOneLine second) :
    OnOneLine (first ++ second) := by
  intro b hmem
  rcases List.mem_append.mp hmem with hmem | hmem
  · exact hfirst b hmem
  · exact hsecond b hmem

theorem subset {part : Bytes} (h : OnOneLine bytes) (hpart : part ⊆ bytes) : OnOneLine part :=
  fun b hmem => h b (hpart hmem)

theorem of_cons {b : Byte} (h : OnOneLine (b :: bytes)) : b.toChar ≠ '\n' ∧ OnOneLine bytes :=
  List.forall_mem_cons.mp h

theorem decimal (number : Nat) : OnOneLine (decimal number) := by
  intro b hmem hnewline
  obtain ⟨c, hc, rfl⟩ := List.mem_map.mp hmem
  have hdigit := Nat.isDigit_of_mem_toDigits (by decide) (by decide) hc
  have hcode : c.toNat % 256 = 10 := congrArg Char.toNat hnewline
  have hdigits : 48 ≤ c.toNat ∧ c.toNat ≤ 57 := Char.isDigit_iff_toNat.mp hdigit
  omega

end OnOneLine

/-! ### Reading lines back -/

theorem gather_append {line : Bytes} (h : OnOneLine line) (before rest : Bytes) :
    lines.gather before (line ++ ascii "\n" ++ rest) =
      (before.reverse ++ line) :: lines.gather [] rest := by
  induction line generalizing before with
  | nil =>
      rw [List.append_nil]
      rfl
  | cons b line ih =>
      obtain ⟨hb, hline⟩ := h.of_cons
      have hother : ¬ (b.toChar == '\n') = true := by simpa using hb
      rw [List.cons_append, List.cons_append, lines.gather, if_neg hother, ih hline]
      simp

/-- Lines that are written one after the other are read back. -/
theorem lines_unlines {printed : List Bytes} (h : ∀ line ∈ printed, OnOneLine line) :
    lines (unlines printed) = printed := by
  induction printed with
  | nil => rfl
  | cons line printed ih =>
      obtain ⟨hline, hprinted⟩ := List.forall_mem_cons.mp h
      have hrest := ih hprinted
      rw [lines] at hrest ⊢
      rw [unlines, List.flatMap_cons, gather_append hline, ← unlines, hrest]
      rfl

theorem onOneLine_of_mem_gather {before bytes line : Bytes} (h : OnOneLine before)
    (hmem : line ∈ lines.gather before bytes) : OnOneLine line := by
  have hreverse {line : Bytes} (h : OnOneLine line) : OnOneLine line.reverse :=
    h.subset fun _ hmem => List.mem_reverse.mp hmem
  induction bytes generalizing before with
  | nil =>
      rw [lines.gather] at hmem
      split at hmem
      · cases hmem
      · obtain rfl := List.mem_singleton.mp hmem
        exact hreverse h
  | cons b bytes ih =>
      rw [lines.gather] at hmem
      split at hmem
      · rcases List.mem_cons.mp hmem with rfl | hmem
        · exact hreverse h
        · exact ih .nil hmem
      · rename_i hother
        have hb : b.toChar ≠ '\n' := by simpa using hother
        exact ih (List.forall_mem_cons.mpr ⟨hb, h⟩) hmem

theorem onOneLine_of_mem_lines {bytes line : Bytes} (hmem : line ∈ lines bytes) :
    OnOneLine line :=
  onOneLine_of_mem_gather .nil hmem

/-! ### What is printed for a match -/

/-- An output that is made of so many lines. -/
def PrintsLines (count : Nat) (out : Bytes) : Prop :=
  ∃ printed, printed.length = count ∧ (∀ line ∈ printed, OnOneLine line) ∧ out = unlines printed

namespace PrintsLines

theorem nil : PrintsLines 0 [] :=
  ⟨[], rfl, List.forall_mem_nil _, rfl⟩

theorem append {count more : Nat} {out rest : Bytes} (hout : PrintsLines count out)
    (hrest : PrintsLines more rest) : PrintsLines (count + more) (out ++ rest) := by
  obtain ⟨printed, rfl, hprinted, rfl⟩ := hout
  obtain ⟨others, rfl, hothers, rfl⟩ := hrest
  refine ⟨printed ++ others, List.length_append, ?_, List.flatMap_append.symm⟩
  exact List.forall_mem_append.mpr ⟨hprinted, hothers⟩

theorem length_lines {count : Nat} {out : Bytes} (h : PrintsLines count out) :
    (lines out).length = count := by
  obtain ⟨printed, rfl, hprinted, rfl⟩ := h
  rw [lines_unlines hprinted]

end PrintsLines

namespace Command

/-- A match is printed on a line of its own. -/
theorem printsLines_matchLine (command : Command) {name : Bytes} (hname : OnOneLine name)
    (number : Nat) {found : Slice} (hfound : OnOneLine found.bytes) :
    PrintsLines 1 (command.matchLine name number found) := by
  have hcolon : OnOneLine (ascii ":") := by decide
  refine ⟨[(if command.showsNames then name ++ ascii ":" else []) ++
    (if command.settings.lineNumbers then decimal number ++ ascii ":" else []) ++ found.bytes],
    rfl, ?_, ?_⟩
  · refine List.forall_mem_singleton.mpr (OnOneLine.append ?_ hfound)
    apply OnOneLine.append
    · split
      · exact hname.append hcolon
      · exact .nil
    · split
      · exact (OnOneLine.decimal number).append hcolon
      · exact .nil
  · simp [unlines, matchLine]

theorem printsLines_flatMap_matchLine (command : Command) {name : Bytes} (hname : OnOneLine name)
    (number : Nat) {found : List Slice} (hfound : ∀ slice ∈ found, OnOneLine slice.bytes) :
    PrintsLines found.length (found.flatMap (command.matchLine name number)) := by
  induction found with
  | nil => exact .nil
  | cons slice found ih =>
      obtain ⟨hslice, hrest⟩ := List.forall_mem_cons.mp hfound
      have hprinted := (command.printsLines_matchLine hname number hslice).append (ih hrest)
      rwa [List.flatMap_cons, List.length_cons, Nat.add_comm]

end Command

end RegexSearch
