import RegexSearch.Proofs.Pattern.Steps

/-!
The reader accepts every word of the grammar. A derivation is followed by steps, production by
production; what they leave in the reader is the tree of the derivation. Each nonterminal ends
where its last operand can be seen to be complete, and none of the bytes that end it begins an
operand.
-/

namespace RegexSearch

/-- The bytes that begin an atom. -/
def Byte.startsOperand (b : Byte) : Bool :=
  !b.isQuantifier && b.toChar != ')' && b.toChar != '|'

/-- What may stand behind a nonterminal. -/
def Category.Ends (following : Bytes) : Category → Prop
  | .atom => True
  | .repetition => ∀ b rest, following = b :: rest → b.isQuantifier = false
  | .concatenation =>
    following = [] ∨ ∃ rest, following = '|'.toUInt8 :: rest ∨ following = ')'.toUInt8 :: rest
  | .alternation => following = [] ∨ ∃ rest, following = ')'.toUInt8 :: rest

theorem Leaf.exists_head {written : Leaf} {groups : Nat} {following : Bytes}
    (h : written.Valid groups following) :
    ∃ b rest, written.word = b :: rest ∧ b.startsOperand = true := by
  cases written with
  | byte value =>
      refine ⟨value, [], rfl, ?_⟩
      obtain ⟨hquantifier, hchar⟩ := Byte.isOrdinary_iff.mp h
      simp only [operandChars, List.mem_cons, List.not_mem_nil, or_false, not_or] at hchar
      simp [Byte.startsOperand, hquantifier, hchar]
  | any => exact ⟨_, [], rfl, rfl⟩
  | anchor kind => cases kind <;> exact ⟨_, _, rfl, rfl⟩
  | escape named => exact ⟨_, _, rfl, rfl⟩
  | reference number => exact ⟨_, _, rfl, rfl⟩
  | brackets negated items => exact ⟨_, _, rfl, rfl⟩

namespace Derivation

variable {category : Category}

/-- Whatever is derived begins with an operand. -/
theorem exists_head {d : Derivation category} {depth groups : Nat} {following : Bytes}
    (h : d.Valid depth groups following) :
    ∃ b rest, d.word = b :: rest ∧ b.startsOperand = true := by
  induction d generalizing depth groups following with
  | leaf written => exact Leaf.exists_head h
  | group captures body => cases captures <;> exact ⟨'('.toUInt8, _, rfl, rfl⟩
  | once operand ih => exact ih h
  | repeated operand suffix ih =>
      obtain ⟨b, rest, hword, hb⟩ := ih h.1
      exact ⟨b, _, by rw [word, hword]; rfl, hb⟩
  | last operand ih => exact ih h
  | more operand rest ih _ =>
      obtain ⟨b, tail, hword, hb⟩ := ih h.1
      exact ⟨b, _, by rw [word, hword]; rfl, hb⟩
  | only branch ih => exact ih h
  | choice branch rest ih _ =>
      obtain ⟨b, tail, hword, hb⟩ := ih h.1
      exact ⟨b, _, by rw [word, hword]; rfl, hb⟩

end Derivation

/-- What reading a nonterminal makes of the level: an operand is added to it, and the operands
or the alternatives of which it is the last are joined to one tree. -/
def Category.Completes (level : Level) (tree : Tree) (next : Level) : Category → Prop
  | .atom => next = level.push tree
  | .repetition => next = level.push tree
  | .concatenation =>
    next.alternatives = level.alternatives ∧
      next.branch? = some (level.operands.foldl (fun rest operand => .cat operand rest) tree)
  | .alternation =>
    next.tree? =
      some (level.alternatives.foldl (fun rest alternative => .alt alternative rest) tree)

/-- A concatenation ends where no quantifier is. -/
theorem Category.Ends.repetition {following : Bytes}
    (h : Category.Ends following .concatenation) : Category.Ends following .repetition := by
  intro b rest hfollowing
  rcases h with hnil | ⟨tail, hbar | hclosing⟩
  · rw [hnil] at hfollowing
    cases hfollowing
  · rw [hbar] at hfollowing
    cases hfollowing
    rfl
  · rw [hclosing] at hfollowing
    cases hfollowing
    rfl

theorem Category.Ends.concatenation {following : Bytes}
    (h : Category.Ends following .alternation) : Category.Ends following .concatenation := by
  rcases h with hnil | ⟨rest, hclosing⟩
  · exact .inl hnil
  · exact .inr ⟨rest, .inr hclosing⟩

namespace Derivation

variable {category : Category}

/-- A repetition ends where the next operand begins. -/
theorem ends_word {d : Derivation category} {depth groups : Nat} {following : Bytes}
    (h : d.Valid depth groups following) :
    Category.Ends (d.word ++ following) .repetition := by
  obtain ⟨b, rest, hword, hb⟩ := exists_head h
  rw [hword]
  intro first tail hfollowing
  cases hfollowing
  simp only [Byte.startsOperand, Bool.and_eq_true, Bool.not_eq_true'] at hb
  exact hb.1.1

/-- There are steps through a derivation, which leave its tree. An alternation is read on a level
of its own. -/
theorem exists_steps (d : Derivation category) {reader : Reader} {following : Bytes}
    (hvalid : d.Valid reader.openings.length reader.groups following)
    (hends : category.Ends following)
    (hfresh : category = .alternation → reader.level.operands = []) (position : Nat) :
    ∃ level, category.Completes reader.level (d.tree position reader.groups) level ∧
      Relation.ReflTransGen Takes ⟨reader, position, d.word ++ following⟩
        ⟨⟨reader.groups + d.groups, level, reader.openings⟩, position + d.word.length,
          following⟩ := by
  induction d generalizing reader following position with
  | leaf written => exact ⟨_, rfl, .single (.leaf reader position written following hvalid)⟩
  | group captures body ih =>
      obtain ⟨hdepth, hbody⟩ := hvalid
      have hplain : captures = true → body.word ++ ')'.toUInt8 :: following ≠ [] ∧
          (body.word ++ ')'.toUInt8 :: following).head? ≠ some '?'.toUInt8 := by
        intro _
        obtain ⟨b, rest, hword, hb⟩ := exists_head hbody
        rw [hword]
        refine ⟨nofun, fun hmark => ?_⟩
        cases hmark
        cases hb
      have hopening := Takes.opening reader position captures _ hdepth hplain
      obtain ⟨level, hlevel, hsteps⟩ := @ih (reader.entered position captures) _ hbody
        (.inr ⟨following, rfl⟩) (fun _ => rfl) (position + (opening captures).length)
      have hclosing := Takes.closing
        ⟨reader.groups + captures.toNat + body.groups, level,
          (reader.entered position captures).openings⟩
        (position + (opening captures).length + body.word.length) following rfl hlevel
      refine ⟨_, rfl, ?_⟩
      have hpath := (hsteps.tail hclosing).head hopening
      simp only [word, List.append_assoc, List.length_append, List.length_singleton, groups,
        ← Nat.add_assoc]
      exact hpath
  | once operand ih => exact ih hvalid trivial nofun position
  | repeated operand suffix ih =>
      obtain ⟨hoperand, hanchor, hbounds⟩ := hvalid
      obtain ⟨level, rfl, hsteps⟩ := ih hoperand trivial nofun position
      refine ⟨_, rfl, ?_⟩
      have hquantifier := @Takes.quantifier
        ⟨reader.groups + operand.groups, reader.level.push (operand.tree position reader.groups),
          reader.openings⟩ (position + operand.word.length) suffix following _ _ rfl
        ((isRepeatable_tree_iff _ _).mpr hanchor) hbounds (fun _ hmark => ?_)
      · rw [word, List.append_assoc, List.length_append, ← Nat.add_assoc]
        exact hsteps.tail hquantifier
      · obtain ⟨rest, rfl⟩ := List.head?_eq_some_iff.mp hmark
        cases hends _ _ rfl
  | last operand ih =>
      obtain ⟨level, rfl, hsteps⟩ := ih hvalid hends.repetition nofun position
      exact ⟨reader.level.push _, ⟨rfl, rfl⟩, hsteps⟩
  | more operand rest ih ihrest =>
      obtain ⟨hoperand, hrest⟩ := hvalid
      obtain ⟨level, rfl, hsteps⟩ := ih hoperand (ends_word hrest) nofun position
      obtain ⟨level, hlevel, hstepsrest⟩ := @ihrest
        ⟨reader.groups + operand.groups, reader.level.push (operand.tree position reader.groups),
          reader.openings⟩ following hrest hends nofun (position + operand.word.length)
      refine ⟨level, hlevel, ?_⟩
      rw [word, List.append_assoc, List.length_append, ← Nat.add_assoc, groups, ← Nat.add_assoc]
      exact hsteps.trans hstepsrest
  | only branch ih =>
      obtain ⟨level, ⟨halternatives, hbranch⟩, hsteps⟩ :=
        ih hvalid hends.concatenation nofun position
      refine ⟨level, ?_, hsteps⟩
      change level.tree? = _
      rw [Level.tree?, hbranch, halternatives, hfresh rfl]
      rfl
  | choice branch rest ih ihrest =>
      obtain ⟨hbranch, hrest⟩ := hvalid
      obtain ⟨level, ⟨halternatives, hlevel⟩, hsteps⟩ :=
        ih hbranch (.inr ⟨_, .inl rfl⟩) nofun position
      rw [hfresh rfl] at hlevel
      -- Behind the bar, the level has one alternative more and no operands.
      have hended : level.bar? =
          some ⟨branch.tree position reader.groups :: reader.level.alternatives, []⟩ := by
        rw [Level.bar?, hlevel, halternatives]
        rfl
      have hbar := Takes.bar ⟨reader.groups + branch.groups, level, reader.openings⟩
        (position + branch.word.length) (rest.word ++ following) hended
      obtain ⟨level, hlevel, hstepsrest⟩ := @ihrest
        ⟨reader.groups + branch.groups,
          ⟨branch.tree position reader.groups :: reader.level.alternatives, []⟩, reader.openings⟩
        following hrest hends (fun _ => rfl) (position + branch.word.length + 1)
      refine ⟨level, hlevel, ?_⟩
      have hpath := (hsteps.tail hbar).trans hstepsrest
      have hposition : position + (branch.word ++ '|'.toUInt8 :: rest.word).length =
          position + branch.word.length + 1 + rest.word.length := by
        rw [List.length_append, List.length_cons]
        omega
      rw [word, hposition, List.append_assoc, groups, ← Nat.add_assoc]
      exact hpath

/-- Every word of the grammar is read as the tree of its derivation. -/
theorem Derives.readPattern_eq {d : Derivation .alternation} {pattern : Bytes}
    (h : d.Derives pattern) : readPattern pattern = ⟨d.groups, .ok (d.tree 0 0)⟩ := by
  obtain ⟨level, hlevel, hsteps⟩ := @exists_steps _ d .start [] h.valid (.inl rfl) (fun _ => rfl) 0
  obtain ⟨b, rest, hword, -⟩ := exists_head h.valid
  rw [List.append_nil, h.word] at hsteps
  rw [h.word] at hword
  rw [readPattern_eq_ok_iff]
  refine ⟨?_, _, _, hsteps, hlevel, rfl, Nat.zero_add _⟩
  rw [hword]
  nofun

end Derivation

end RegexSearch
