import RegexSearch.Pattern.Reader

/-!
How a pattern is read. Every construct that the reader accepts changes it in one of six ways, so
what each of these preserves holds of the reader at the end of the pattern. In particular, a tree
that has been read has every property that the constructs hand on from their parts.
-/

namespace RegexSearch

/-- The bounds of the quantifier are in order. -/
def Quantifier.Valid (times : Quantifier) : Prop :=
  ∀ max, times.max = some max → times.min ≤ max

namespace Reader

/-- What a construct of a pattern can do to the reader. -/
inductive Reads (reader : Reader) : Reader → Prop
  | operand (position : Nat) (a : Atom) : Reads reader (reader.push (.atom position a))
  | plainGroup (position : Nat) :
      Reads reader { reader with
        level := .empty
        openings := ⟨position, none, reader.level⟩ :: reader.openings }
  | capturingGroup (position : Nat) :
      Reads reader {
        groups := reader.groups + 1
        level := .empty
        openings := ⟨position, some (reader.groups + 1), reader.level⟩ :: reader.openings }
  | closing {opening : Opening} {openings : List Opening} {body : Tree}
      (hopenings : reader.openings = opening :: openings)
      (hbody : reader.level.tree? = some body) :
      Reads reader { reader with
        level := opening.outer.push (.group opening.position opening.index body)
        openings }
  | bar {level : Level} (hbar : reader.level.bar? = some level) :
      Reads reader { reader with level }
  | quantifier {last : Tree} {before : List Tree} {times : Quantifier}
      (hoperands : reader.level.operands = last :: before) (hrepeatable : last.isRepeatable = true)
      (hvalid : times.Valid) :
      Reads reader { reader with
        level := { reader.level with operands := .rep last times :: before } }

variable {reader next : Reader} {position taken : Nat} {b : Byte} {rest : Bytes}

theorem openGroup_eq {index : Option Nat} (h : reader.openGroup position index = .ok next) :
    next = { reader with
      level := .empty
      openings := ⟨position, index, reader.level⟩ :: reader.openings } := by
  unfold openGroup at h
  split at h
  · cases h
  · exact (Except.ok.inj h).symm

theorem reads_of_readOpening (h : reader.readOpening position rest = .ok (next, taken)) :
    reader.Reads next := by
  unfold readOpening at h
  split at h
  · cases h
  · cases h
  · cases hopen : reader.openGroup position none with
    | error refusal =>
        rw [hopen] at h
        cases h
    | ok opened =>
        rw [hopen] at h
        cases h
        rw [openGroup_eq hopen]
        exact .plainGroup position
  · cases h
  · dsimp only at h
    cases hopen : ({ reader with groups := reader.groups + 1 } : Reader).openGroup position
        (some (reader.groups + 1)) with
    | error refusal =>
        rw [hopen] at h
        cases h
    | ok opened =>
        rw [hopen] at h
        cases h
        rw [openGroup_eq hopen]
        exact .capturingGroup position

theorem reads_of_readClosing (h : reader.readClosing position = .ok (next, taken)) :
    reader.Reads next := by
  unfold readClosing at h
  split at h
  · cases h
  · cases h
  · rename_i opening openings body hopenings hbody
    cases h
    exact .closing hopenings hbody

theorem reads_of_readBar (h : reader.readBar position = .ok (next, taken)) :
    reader.Reads next := by
  unfold readBar at h
  split at h
  · cases h
  · rename_i level hbar
    cases h
    exact .bar hbar

theorem valid_of_readBraces {bounds : Nat × Option Nat}
    (h : readBraces rest = some (bounds, taken)) : ∀ max, bounds.2 = some max → bounds.1 ≤ max := by
  unfold readBraces at h
  obtain ⟨⟨min, digits⟩, -, h⟩ := Option.bind_eq_some_iff.mp h
  dsimp only at h
  split at h
  · cases h
    intro max hmax
    cases hmax
    exact Nat.le_refl _
  · cases h
    intro max hmax
    cases hmax
  · obtain ⟨⟨max, more⟩, -, h⟩ := Option.bind_eq_some_iff.mp h
    dsimp only at h
    split at h
    · rename_i hbounds
      cases h
      intro max' hmax
      cases hmax
      have hle := (Bool.and_eq_true_iff.mp hbounds).2
      exact of_decide_eq_true hle
    · cases h
  · cases h

theorem valid_of_readQuantifier {times : Quantifier}
    (h : readQuantifier b rest = some (times, taken)) : times.Valid := by
  unfold readQuantifier at h
  obtain ⟨⟨bounds, count⟩, hbounds, h⟩ := Option.bind_eq_some_iff.mp h
  have hvalid : ∀ max, bounds.2 = some max → bounds.1 ≤ max := by
    unfold readBounds at hbounds
    split at hbounds
    · cases hbounds
      intro max hmax
      cases hmax
    · cases hbounds
      intro max hmax
      cases hmax
    · cases hbounds
      intro max hmax
      exact Nat.zero_le max
    · exact valid_of_readBraces hbounds
  dsimp only at h
  split at h
  · cases h
    exact hvalid
  · cases h
    exact hvalid

theorem reads_of_readRepetition (h : reader.readRepetition position b rest = .ok (next, taken)) :
    reader.Reads next := by
  unfold readRepetition at h
  split at h
  · cases h
  · rename_i last before hoperands
    split at h
    · rename_i hrepeatable
      split at h
      · cases h
      · rename_i times count hquantifier
        cases h
        exact .quantifier hoperands hrepeatable (valid_of_readQuantifier hquantifier)
    · cases h

theorem reads_of_readBackslash (h : reader.readBackslash position rest = .ok (next, taken)) :
    reader.Reads next := by
  unfold readBackslash at h
  split at h
  · cases h
  · cases h
    exact .operand _ _

theorem reads_of_readSet (h : reader.readSet position rest = .ok (next, taken)) :
    reader.Reads next := by
  unfold readSet at h
  split at h
  · cases h
  · cases h
    exact .operand _ _

theorem reads_of_advance (h : reader.advance position b rest = .ok (next, taken)) :
    reader.Reads next := by
  unfold advance at h
  split at h
  · exact reads_of_readOpening h
  · exact reads_of_readClosing h
  · exact reads_of_readBar h
  · exact reads_of_readSet h
  · exact reads_of_readBackslash h
  · cases h
    exact .operand _ _
  · cases h
    exact .operand _ _
  · cases h
    exact .operand _ _
  · split at h
    · exact reads_of_readRepetition h
    · cases h
      exact .operand _ _

section Invariant

variable {P : Reader → Prop}
  (hreads : ∀ {reader next : Reader}, reader.Reads next → P reader → P next)

include hreads

theorem invariant_of_readFrom {skip : Nat} {bytes : Bytes} (hreader : P reader)
    (h : reader.readFrom skip position bytes = .ok next) : P next := by
  induction bytes generalizing reader skip position with
  | nil =>
      cases h
      exact hreader
  | cons b rest ih =>
      cases skip with
      | succ skip => exact ih hreader h
      | zero =>
          simp only [readFrom] at h
          split at h
          · cases h
          · rename_i advanced taken hadvance
            exact ih (hreads (reads_of_advance hadvance) hreader) h

/-- What every construct preserves holds at the end of a pattern, where the level that is left is
the tree of the whole pattern. -/
theorem invariant_of_readPattern (hstart : P start) {pattern : Bytes} {tree : Tree}
    (h : (readPattern pattern).result = .ok tree) :
    ∃ reader, P reader ∧ reader.openings = [] ∧ reader.level.tree? = some tree ∧
      (readPattern pattern).groups = reader.groups := by
  unfold readPattern at h ⊢
  by_cases hempty : pattern.isEmpty = true
  · rw [if_pos hempty] at h
    cases h
  · rw [if_neg hempty] at h ⊢
    cases hread : start.readFrom 0 0 pattern with
    | error refusal =>
        rw [hread] at h
        cases h
    | ok reader =>
        rw [hread] at h
        dsimp only at h ⊢
        cases hfinish : reader.finish pattern.length with
        | error refusal =>
            rw [hfinish] at h
            cases h
        | ok finished =>
            rw [hfinish] at h
            cases h
            refine ⟨reader, invariant_of_readFrom hreads hstart hread, ?_⟩
            unfold finish at hfinish
            split at hfinish
            · cases hfinish
            · cases hfinish
            · rename_i whole htree hopenings
              cases hfinish
              exact ⟨hopenings, htree, rfl⟩

end Invariant

end Reader

/-! ### Properties of trees -/

/-- Every construct of a pattern hands the property on from its parts. -/
structure Tree.Inherited (P : Tree → Prop) : Prop where
  atom : ∀ position a, P (.atom position a)
  group : ∀ position index body, P body → P (.group position index body)
  cat : ∀ first rest, P first → P rest → P (.cat first rest)
  alt : ∀ first rest, P first → P rest → P (.alt first rest)
  rep : ∀ body times, P body → body.isRepeatable = true → times.Valid → P (.rep body times)

section Inherited

variable {P : Tree → Prop}

/-- All trees of a level have the property. -/
def Level.All (P : Tree → Prop) (level : Level) : Prop :=
  (∀ tree ∈ level.alternatives, P tree) ∧ ∀ tree ∈ level.operands, P tree

theorem Level.all_empty : Level.empty.All P :=
  ⟨fun _ hmem => absurd hmem List.not_mem_nil, fun _ hmem => absurd hmem List.not_mem_nil⟩

theorem Level.All.push {level : Level} (h : level.All P) {operand : Tree} (hoperand : P operand) :
    (level.push operand).All P :=
  ⟨h.1, List.forall_mem_cons.mpr ⟨hoperand, h.2⟩⟩

variable (hinherited : Tree.Inherited P)

include hinherited

theorem Level.All.branch? {level : Level} (h : level.All P) {branch : Tree}
    (hbranch : level.branch? = some branch) : P branch := by
  have hfold (before : List Tree) (hbefore : ∀ tree ∈ before, P tree) (last : Tree)
      (hlast : P last) : P (before.foldl (fun rest operand => .cat operand rest) last) := by
    induction before generalizing last with
    | nil => exact hlast
    | cons operand before ih =>
        obtain ⟨hoperand, hbefore⟩ := List.forall_mem_cons.mp hbefore
        exact ih hbefore _ (hinherited.cat operand last hoperand hlast)
  unfold Level.branch? at hbranch
  split at hbranch
  · cases hbranch
  · rename_i last before hoperands
    cases hbranch
    have hall := h.2
    rw [hoperands] at hall
    obtain ⟨hlast, hbefore⟩ := List.forall_mem_cons.mp hall
    exact hfold before hbefore last hlast

theorem Level.All.bar? {level next : Level} (h : level.All P) (hbar : level.bar? = some next) :
    next.All P := by
  obtain ⟨branch, hbranch, rfl⟩ := Option.map_eq_some_iff.mp hbar
  exact ⟨List.forall_mem_cons.mpr ⟨h.branch? hinherited hbranch, h.1⟩,
    fun _ hmem => absurd hmem List.not_mem_nil⟩

theorem Level.All.tree? {level : Level} (h : level.All P) {tree : Tree}
    (htree : level.tree? = some tree) : P tree := by
  have hfold (before : List Tree) (hbefore : ∀ tree ∈ before, P tree) (last : Tree)
      (hlast : P last) :
      P (before.foldl (fun rest alternative => .alt alternative rest) last) := by
    induction before generalizing last with
    | nil => exact hlast
    | cons alternative before ih =>
        obtain ⟨hfirst, hbefore⟩ := List.forall_mem_cons.mp hbefore
        exact ih hbefore _ (hinherited.alt alternative last hfirst hlast)
  obtain ⟨branch, hbranch, rfl⟩ := Option.map_eq_some_iff.mp htree
  exact hfold _ h.1 branch (h.branch? hinherited hbranch)

/-- A tree that has been read has every property that is inherited. -/
theorem inherited_of_readPattern {pattern : Bytes} {tree : Tree}
    (h : (readPattern pattern).result = .ok tree) : P tree := by
  let All (reader : Reader) : Prop :=
    reader.level.All P ∧ ∀ opening ∈ reader.openings, opening.outer.All P
  have hstart : All .start := ⟨Level.all_empty, fun _ hmem => absurd hmem List.not_mem_nil⟩
  have hreads {reader next : Reader} (hread : reader.Reads next) (hall : All reader) :
      All next := by
    obtain ⟨hlevel, houter⟩ := hall
    cases hread with
    | operand position a => exact ⟨hlevel.push (hinherited.atom position a), houter⟩
    | plainGroup position =>
        exact ⟨Level.all_empty, List.forall_mem_cons.mpr ⟨hlevel, houter⟩⟩
    | capturingGroup position =>
        exact ⟨Level.all_empty, List.forall_mem_cons.mpr ⟨hlevel, houter⟩⟩
    | @closing opening openings body hopenings hbody =>
        rw [hopenings] at houter
        obtain ⟨hopening, hopenings⟩ := List.forall_mem_cons.mp houter
        have hgroup := hinherited.group opening.position opening.index body
          (hlevel.tree? hinherited hbody)
        exact ⟨hopening.push hgroup, hopenings⟩
    | bar hbar => exact ⟨hlevel.bar? hinherited hbar, houter⟩
    | @quantifier last before times hoperands hrepeatable hvalid =>
        have hall := hlevel.2
        rw [hoperands] at hall
        obtain ⟨hlast, hbefore⟩ := List.forall_mem_cons.mp hall
        have hrep := hinherited.rep last times hlast hrepeatable hvalid
        exact ⟨⟨hlevel.1, List.forall_mem_cons.mpr ⟨hrep, hbefore⟩⟩, houter⟩
  obtain ⟨reader, hall, -, htree, -⟩ := Reader.invariant_of_readPattern hreads hstart h
  exact hall.1.tree? hinherited htree

end Inherited

end RegexSearch
