import RegexSearch.Proofs.Pattern.Steps

/-!
The reader accepts nothing but words of the grammar. What it has read at any point are the
operands, the alternatives and the opened groups of derivations that are not complete yet. Every
step completes one of them or adds to one, and at the end of the pattern a single alternation is
left.
-/

namespace RegexSearch

/-- A place in a pattern: its offset, how many capturing groups have been opened before it, and
the bytes behind it. -/
structure Cursor where
  position : Nat
  groups : Nat
  rest : Bytes

namespace Derivation

variable {category : Category}

/-- The derivation writes what lies between two places that are inside `depth` groups. -/
structure Spells (d : Derivation category) (depth : Nat) (here there : Cursor) : Prop where
  rest : here.rest = d.word ++ there.rest
  position : there.position = here.position + d.word.length
  groups : there.groups = here.groups + d.groups
  valid : d.Valid depth here.groups there.rest

/-- The tree of a derivation that begins at this place. -/
def treeAt (d : Derivation category) (here : Cursor) : Tree :=
  d.tree here.position here.groups

namespace Spells

variable {depth : Nat} {start here there : Cursor}

theorem once {d : Derivation .atom} (h : d.Spells depth here there) :
    (once d).Spells depth here there :=
  ⟨h.rest, h.position, h.groups, h.valid⟩

theorem last {d : Derivation .repetition} (h : d.Spells depth here there) :
    (last d).Spells depth here there :=
  ⟨h.rest, h.position, h.groups, h.valid⟩

theorem only {d : Derivation .concatenation} (h : d.Spells depth here there) :
    (only d).Spells depth here there :=
  ⟨h.rest, h.position, h.groups, h.valid⟩

theorem repeated {d : Derivation .atom} {position groups : Nat} {suffix : Suffix} {rest : Bytes}
    (h : d.Spells depth here ⟨position, groups, suffix.word ++ rest⟩) (hanchor : d.isAnchor = false)
    (hbounds : suffix.bounds.Valid) :
    (repeated d suffix).Spells depth here ⟨position + suffix.word.length, groups, rest⟩ where
  rest := by rw [h.rest, word, List.append_assoc]
  position := by
    have hposition : position = here.position + d.word.length := h.position
    rw [hposition, word, List.length_append, Nat.add_assoc]
  groups := h.groups
  valid := ⟨h.valid, hanchor, hbounds⟩

theorem more {d : Derivation .repetition} {e : Derivation .concatenation}
    (hd : d.Spells depth start here) (he : e.Spells depth here there) :
    (more d e).Spells depth start there where
  rest := by rw [hd.rest, he.rest, word, List.append_assoc]
  position := by rw [he.position, hd.position, word, List.length_append, Nat.add_assoc]
  groups := by rw [he.groups, hd.groups, Derivation.groups, Nat.add_assoc]
  valid := ⟨he.rest ▸ hd.valid, hd.groups ▸ he.valid⟩

theorem choice {d : Derivation .concatenation} {e : Derivation .alternation}
    {position groups : Nat} {rest : Bytes}
    (hd : d.Spells depth start ⟨position, groups, '|'.toUInt8 :: rest⟩)
    (he : e.Spells depth ⟨position + 1, groups, rest⟩ there) :
    (choice d e).Spells depth start there where
  rest := by rw [hd.rest, word, List.append_assoc, List.cons_append, ← he.rest]
  position := by
    have hposition : position = start.position + d.word.length := hd.position
    rw [he.position, word, List.length_append, List.length_cons]
    dsimp only
    omega
  groups := by
    have hgroups : groups = start.groups + d.groups := hd.groups
    rw [he.groups, hgroups, Derivation.groups, Nat.add_assoc]
  valid := ⟨he.rest ▸ hd.valid, hd.groups ▸ he.valid⟩

theorem treeAt_more {d : Derivation .repetition} (hd : d.Spells depth start here)
    (e : Derivation .concatenation) :
    (Derivation.more d e).treeAt start = .cat (d.treeAt start) (e.treeAt here) := by
  rw [treeAt, tree, treeAt, treeAt, hd.position, hd.groups]

theorem treeAt_choice {d : Derivation .concatenation} {position groups : Nat} {rest : Bytes}
    (hd : d.Spells depth start ⟨position, groups, '|'.toUInt8 :: rest⟩)
    (e : Derivation .alternation) :
    (Derivation.choice d e).treeAt start =
      .alt (d.treeAt start) (e.treeAt ⟨position + 1, groups, rest⟩) := by
  have hposition : position = start.position + d.word.length := hd.position
  have hgroups : groups = start.groups + d.groups := hd.groups
  rw [treeAt, tree, treeAt, treeAt, hposition, hgroups]

theorem group {captures : Bool} {position groups ending opened : Nat} {rest following : Bytes}
    {d : Derivation .alternation} (hdepth : depth < maxNesting)
    (h : d.Spells (depth + 1) ⟨position + (opening captures).length, groups + captures.toNat, rest⟩
      ⟨ending, opened, ')'.toUInt8 :: following⟩) :
    (group captures d).Spells depth ⟨position, groups, opening captures ++ rest⟩
      ⟨ending + 1, opened, following⟩ where
  rest := by
    have hrest : rest = d.word ++ ')'.toUInt8 :: following := h.rest
    rw [hrest, word, List.append_assoc, List.append_assoc]
    rfl
  position := by
    have hposition : ending = position + (opening captures).length + d.word.length := h.position
    rw [hposition, word, List.length_append, List.length_append, List.length_singleton]
    dsimp only
    omega
  groups := by
    have hgroups : opened = groups + captures.toNat + d.groups := h.groups
    rw [hgroups, Derivation.groups, Nat.add_assoc]
  valid := ⟨hdepth, h.valid⟩

end Spells

end Derivation

/-! ### What has been read -/

/-- The operands of an unfinished concatenation, the latest first. -/
inductive Operands (depth : Nat) (start : Cursor) : List Tree → Cursor → Prop
  | none : Operands depth start [] start
  | more {trees : List Tree} {here there : Cursor} (before : Operands depth start trees here)
      (d : Derivation .repetition) (hspells : d.Spells depth here there) :
      Operands depth start (d.treeAt here :: trees) there

/-- The alternatives of an unfinished alternation, the latest first, each with the bar that ends
it. -/
inductive Alternatives (depth : Nat) (start : Cursor) : List Tree → Cursor → Prop
  | none : Alternatives depth start [] start
  | more {trees : List Tree} {here : Cursor} {position groups : Nat} {rest : Bytes}
      (before : Alternatives depth start trees here) (d : Derivation .concatenation)
      (hspells : d.Spells depth here ⟨position, groups, '|'.toUInt8 :: rest⟩) :
      Alternatives depth start (d.treeAt here :: trees) ⟨position + 1, groups, rest⟩

/-- The level holds what lies between two places. -/
def Level.Spells (level : Level) (depth : Nat) (start there : Cursor) : Prop :=
  ∃ here, Alternatives depth start level.alternatives here ∧
    Operands depth here level.operands there

/-- The groups that are open, the innermost first. The level around each of them holds what lies
between the beginning of the group around it and the group. -/
inductive Opened (pattern : Bytes) : List Opening → Cursor → Prop
  | none : Opened pattern [] ⟨0, 0, pattern⟩
  | more {openings : List Opening} {start : Cursor} {outer : Level} {position groups : Nat}
      {rest : Bytes} (before : Opened pattern openings start)
      (hdepth : openings.length < maxNesting) (captures : Bool)
      (houter : outer.Spells openings.length start
        ⟨position, groups, Derivation.opening captures ++ rest⟩) :
      Opened pattern
        (⟨position, if captures then some (groups + 1) else Option.none, outer⟩ :: openings)
        ⟨position + (Derivation.opening captures).length, groups + captures.toNat, rest⟩

def Checkpoint.cursor (point : Checkpoint) : Cursor :=
  ⟨point.position, point.reader.groups, point.rest⟩

/-- The reader has kept what lies between the beginning of the pattern and the point. -/
def Checkpoint.Keeps (pattern : Bytes) (point : Checkpoint) : Prop :=
  ∃ start, Opened pattern point.reader.openings start ∧
    point.reader.level.Spells point.reader.openings.length start point.cursor

section Complete

variable {depth : Nat} {start here there : Cursor} {trees : List Tree}

theorem Operands.exists_concatenation (h : Operands depth start trees here)
    {e : Derivation .concatenation} (he : e.Spells depth here there) :
    ∃ d : Derivation .concatenation, d.Spells depth start there ∧
      d.treeAt start = trees.foldl (fun rest operand => .cat operand rest) (e.treeAt here) := by
  induction h generalizing e with
  | none => exact ⟨e, he, rfl⟩
  | more before d hd ih =>
      obtain ⟨whole, hwhole, htree⟩ := ih (hd.more he)
      exact ⟨whole, hwhole, by rw [htree, hd.treeAt_more, List.foldl_cons]⟩

theorem Alternatives.exists_alternation (h : Alternatives depth start trees here)
    {e : Derivation .alternation} (he : e.Spells depth here there) :
    ∃ d : Derivation .alternation, d.Spells depth start there ∧
      d.treeAt start =
        trees.foldl (fun rest alternative => .alt alternative rest) (e.treeAt here) := by
  induction h generalizing e with
  | none => exact ⟨e, he, rfl⟩
  | more before d hd ih =>
      obtain ⟨whole, hwhole, htree⟩ := ih (hd.choice he)
      exact ⟨whole, hwhole, by rw [htree, hd.treeAt_choice, List.foldl_cons]⟩

variable {level : Level} {tree : Tree}

theorem Operands.exists_branch (h : Operands depth start level.operands there)
    (hbranch : level.branch? = some tree) :
    ∃ d : Derivation .concatenation, d.Spells depth start there ∧ d.treeAt start = tree := by
  unfold Level.branch? at hbranch
  generalize level.operands = operands at h hbranch
  cases h with
  | none => cases hbranch
  | more before d hd =>
      cases hbranch
      exact before.exists_concatenation hd.last

/-- A level that has a tree has read a whole alternation. -/
theorem Level.Spells.exists_alternation (h : level.Spells depth start there)
    (htree : level.tree? = some tree) :
    ∃ d : Derivation .alternation, d.Spells depth start there ∧ d.treeAt start = tree := by
  obtain ⟨middle, halternatives, hoperands⟩ := h
  obtain ⟨branch, hbranch, rfl⟩ := Option.map_eq_some_iff.mp htree
  obtain ⟨d, hd, rfl⟩ := hoperands.exists_branch hbranch
  exact halternatives.exists_alternation hd.only

theorem Level.Spells.push (h : level.Spells depth start here) {d : Derivation .repetition}
    (hd : d.Spells depth here there) : (level.push (d.treeAt here)).Spells depth start there := by
  obtain ⟨middle, halternatives, hoperands⟩ := h
  exact ⟨middle, halternatives, hoperands.more d hd⟩

end Complete

/-! ### Steps -/

namespace Checkpoint.Keeps

variable {pattern : Bytes}

theorem start (pattern : Bytes) : Checkpoint.Keeps pattern ⟨.start, 0, pattern⟩ :=
  ⟨_, .none, _, .none, .none⟩

theorem takes {here there : Checkpoint} (h : here.Keeps pattern) (htakes : Takes here there) :
    there.Keeps pattern := by
  obtain ⟨start, hopened, hlevel⟩ := h
  cases htakes with
  | leaf reader position written following hvalid =>
      have hspells : (Derivation.once (.leaf written)).Spells reader.openings.length
          ⟨position, reader.groups, written.word ++ following⟩
          ⟨position + written.word.length, reader.groups, following⟩ :=
        ⟨rfl, rfl, rfl, hvalid⟩
      exact ⟨start, hopened, hlevel.push hspells⟩
  | opening reader position captures following hdepth hplain =>
      have hinside := hopened.more hdepth captures hlevel
      exact ⟨_, hinside, _, .none, .none⟩
  | closing reader position following hopenings hbody =>
      obtain ⟨d, hd, rfl⟩ := hlevel.exists_alternation hbody
      dsimp only at hopened
      rw [hopenings] at hopened hd
      cases hopened with
      | more before hdepth captures houter =>
          exact ⟨_, before, houter.push (Derivation.Spells.group hdepth hd).once⟩
  | bar reader position following hbar =>
      obtain ⟨branch, hbranch, rfl⟩ := Option.map_eq_some_iff.mp hbar
      obtain ⟨middle, halternatives, hoperands⟩ := hlevel
      obtain ⟨d, hd, rfl⟩ := hoperands.exists_branch hbranch
      exact ⟨start, hopened, _, halternatives.more d hd, .none⟩
  | quantifier reader position suffix following hoperands hrepeatable hvalid hgreedy =>
      obtain ⟨middle, halternatives, hlast⟩ := hlevel
      dsimp only at hlast
      rw [hoperands] at hlast
      refine ⟨start, hopened, middle, halternatives, ?_⟩
      cases hlast with
      | more before d hd =>
          -- A repetition has no quantifier yet if its tree can be repeated.
          cases d with
          | once operand =>
              have hanchor := (Derivation.isRepeatable_tree_iff _ _).mp hrepeatable
              have hspells := @Derivation.Spells.repeated _ _ operand _ _ _ _
                ⟨hd.rest, hd.position, hd.groups, hd.valid⟩ hanchor hvalid
              exact before.more _ hspells
          | repeated operand earlier => cases hrepeatable

theorem steps {here there : Checkpoint} (h : here.Keeps pattern)
    (hsteps : Relation.ReflTransGen Takes here there) : there.Keeps pattern := by
  induction hsteps with
  | refl => exact h
  | tail _ htakes ih => exact ih.takes htakes

end Checkpoint.Keeps

/-- A pattern that is read is a word of the grammar, and is read as the tree of its derivation. -/
theorem exists_derives_of_readPattern {pattern : Bytes} {tree : Tree} {groups : Nat}
    (h : readPattern pattern = ⟨groups, .ok tree⟩) :
    ∃ d : Derivation .alternation, d.Derives pattern ∧ d.tree 0 0 = tree ∧ d.groups = groups := by
  obtain ⟨-, last, ending, hsteps, htree, hopenings, rfl⟩ := readPattern_eq_ok_iff.mp h
  obtain ⟨start, hopened, hlevel⟩ := (Checkpoint.Keeps.start pattern).steps hsteps
  dsimp only at hopened hlevel
  rw [hopenings] at hopened hlevel
  cases hopened
  obtain ⟨d, hd, rfl⟩ := hlevel.exists_alternation htree
  have hword : pattern = d.word ++ [] := hd.rest
  have hgroups : last.groups = 0 + d.groups := hd.groups
  refine ⟨d, ⟨by rw [hword, List.append_nil], hd.valid⟩, rfl, ?_⟩
  rw [hgroups, Nat.zero_add]

theorem exists_derives_of_result {pattern : Bytes} {tree : Tree}
    (h : (readPattern pattern).result = .ok tree) :
    ∃ d : Derivation .alternation, d.Derives pattern ∧ d.tree 0 0 = tree ∧
      d.groups = (readPattern pattern).groups :=
  exists_derives_of_readPattern (by rw [← h])

end RegexSearch
