import RegexSearch.Proofs.Machine.Limit
import RegexSearch.Proofs.Machine.Passages
import RegexSearch.Proofs.Pattern.Captures
import RegexSearch.Proofs.Program.Attempt

/-!
The captures of a match. Whatever limit an attempt has, and whatever it has given up before, the
spans that it reports lie in order inside the match, each group has captured the span of its last
passage on the path to the end of the program, and without backreferences the body of the group
derives what stands there.
-/

namespace RegexSearch

/-- A match from the offset `start` with so many groups, which lie inside of it. -/
structure Match.Coherent (text : Text) (groups start : Nat) (found : Match) : Prop where
  begins : found.span.start = start
  ends : start ≤ found.span.stop ∧ found.span.stop ≤ text.size
  count : found.groups.length = groups + 1
  whole : found.groups[0]? = some (some found.span)
  inside : ∀ span, some span ∈ found.groups →
    start ≤ span.start ∧ span.start ≤ span.stop ∧ span.stop ≤ found.span.stop

theorem Outcome.Coherent.toMatch {valid : Nat → Span → Prop} {text : Text} {start : Nat}
    {out : Outcome} (h : out.Coherent valid text start) (groups : Nat) :
    (out.toMatch start groups).Coherent text groups start where
  begins := rfl
  ends := ⟨h.begun, h.offset⟩
  count := by simp [Outcome.toMatch]
  whole := rfl
  inside := by
    intro span hspan
    rcases List.mem_cons.mp hspan with hwhole | hgroup
    · cases hwhole
      exact ⟨Nat.le_refl start, h.begun, Nat.le_refl _⟩
    · obtain ⟨group, -, hcapture⟩ := List.mem_map.mp hgroup
      obtain ⟨hstart, hle, hstop, -⟩ := h.captured (group + 1) span hcapture
      exact ⟨hstart, hle, hstop⟩

theorem Machine.openedAt_start (program : Program) (start group : Nat) :
    (Thread.start program start).openedAt group = none := by
  simp only [Thread.start, Thread.openedAt, Array.getD_eq_getD_getElem?, Array.getElem?_replicate]
  split <;> rfl

section Attempts

variable {program : Program} {text : Text} {limit : StepLimit} {anchoredEnd : Bool} {start : Nat}
  {found : Match}

theorem attempt_unlimited_of_attempt (hstart : start ≤ text.size) {answer : Option Match}
    (h : attempt program text limit anchoredEnd start = .ok answer) :
    attempt program text .unlimited anchoredEnd start = .ok answer :=
  attempt_mono (fun _ _ => trivial) hstart h

/-- A match comes from a path to a thread that accepts, and every group has captured the span of its
last passage there. -/
theorem exists_path_of_attempt (hstart : start ≤ text.size)
    (h : attempt program text limit anchoredEnd start = .ok (some found)) :
    ∃ path last,
      (⟨program, text, anchoredEnd⟩ : Machine).AcceptingPath (.start program start :: path) last ∧
      found = last.toMatch ∧ ∀ group ≤ program.groups, found.groups[group]? =
        some ((lastPassage (program.passages (fun _ => none) (.start program start :: path))
          group).bind Passage.span) := by
  let machine : Machine := ⟨program, text, anchoredEnd⟩
  have hsize : start ≤ machine.text.size := hstart
  have hunlimited : machine.answer .unlimited (machine.initial start) = .ok (some found) :=
    attempt_unlimited_of_attempt hstart h
  obtain ⟨depth, hdepth⟩ := (Machine.answer_unlimited_iff hsize).mp hunlimited
  obtain ⟨first, hfirst, hexplore⟩ := Machine.exists_of_firstAnswer hdepth
  rw [List.mem_singleton.mp hfirst] at hexplore
  obtain ⟨path, last, hpath, rfl⟩ := Machine.exists_path_of_explore hexplore
  refine ⟨path, last, hpath, rfl, ?_⟩
  have hready := Machine.ready_start machine hsize
  have hstarts : Machine.Remembers (machine.program.groups + 1) (fun _ => none)
      (.start machine.program start) :=
    ⟨hready.registers, hready.opens, fun group _ => Machine.openedAt_start _ start group⟩
  obtain ⟨hcount, hcapture⟩ := Machine.capture_of_path hpath rfl hstarts
  intro group hgroup
  have hlast := hcapture group (Nat.lt_succ_of_le hgroup)
  rw [Thread.capture_start] at hlast
  have hentry : last.toMatch.groups[group]? = some (last.capture group) := by
    rw [Thread.groups_toMatch hcount, List.getElem?_map,
      List.getElem?_range (Nat.lt_succ_of_le hgroup)]
    rfl
  rw [hentry, hlast]
  cases lastPassage (program.passages (fun _ => none) (.start program start :: path)) group <;> rfl

/-- The outcome of the tree that a match comes from. -/
theorem exists_outcome_of_attempt {maxUnroll : Nat} {pattern : Bytes} {tree : Tree}
    (hcompile : compilePattern maxUnroll pattern = ⟨some tree, .ok program⟩)
    (hstart : start ≤ text.size)
    (h : attempt program text limit anchoredEnd start = .ok (some found)) :
    ∃ out ∈ tree.outcomes text (.start start), out.counts anchoredEnd text = true ∧
      found = out.toMatch start program.groups := by
  have hfirst := attempt_unlimited_of_attempt hstart h
  rw [attempt_eq_first_outcome hcompile text anchoredEnd hstart] at hfirst
  obtain ⟨out, hout, hmatch⟩ := Option.map_eq_some_iff.mp (Except.ok.inj hfirst)
  exact ⟨out, List.mem_of_find?_eq_some hout, List.find?_some hout, hmatch.symm⟩

/-- What a group has captured by an outcome is what its match reports. -/
theorem Outcome.groups_toMatch (out : Outcome) (start : Nat) {groups group : Nat}
    (hpos : 0 < group) (hle : group ≤ groups) :
    (out.toMatch start groups).groups[group]? = some (out.captures group) := by
  obtain ⟨before, rfl⟩ := Nat.exists_eq_succ_of_ne_zero hpos.ne'
  have hlt : before < groups := hle
  simp [Outcome.toMatch, hlt]

/-- The captures of a match are coherent, under every limit. The match begins where the attempt
does, ends in the text, and with it if the end is anchored. It has a span for every group and for
itself, and these lie in order inside of it. Each is the span of the last passage through the group
on a path by which the program accepts. The groups are numbered from one on; and if there are no
backreferences, the pattern derives the match, and the body of a group what the group has captured,
at its place in the text. -/
theorem captures_coherent_of_attempt {maxUnroll : Nat} {pattern : Bytes} {tree : Tree}
    (hcompile : compilePattern maxUnroll pattern = ⟨some tree, .ok program⟩)
    (hstart : start ≤ text.size)
    (hfound : attempt program text limit anchoredEnd start = .ok (some found)) :
    found.Coherent text program.groups start ∧
    (anchoredEnd = true → found.span.stop = text.size) ∧
    (∃ path last,
      (⟨program, text, anchoredEnd⟩ : Machine).AcceptingPath (.start program start :: path) last ∧
      found = last.toMatch ∧ ∀ group ≤ program.groups, found.groups[group]? =
        some ((lastPassage (program.passages (fun _ => none) (.start program start :: path))
          group).bind Passage.span)) ∧
    tree.bodies.map Prod.fst = List.range' 1 program.groups ∧
    (tree.BackrefFree →
      tree.Derives text start found.span.stop ∧
      ∀ group body, (group, body) ∈ tree.bodies → ∀ span,
        found.groups[group]? = some (some span) → body.Derives text span.start span.stop) := by
  obtain ⟨out, hout, hcounts, rfl⟩ := exists_outcome_of_attempt hcompile hstart hfound
  obtain ⟨hread, hlower⟩ := result_of_compilePattern hcompile
  have hordered := inherited_of_readPattern Tree.inherited_ordered hread
  have hgroups : tree.groups = List.range' 1 program.groups := by
    rw [ofTree_of_lower hlower]
    exact groups_of_readPattern hread
  have hnodup : tree.groups.Nodup := by
    rw [hgroups]
    exact List.nodup_range'
  have hcoherent := Tree.coherent_of_mem_outcomes_start hnodup hordered hstart hout
  refine ⟨hcoherent.toMatch _, ?_, exists_path_of_attempt hstart hfound, ?_, ?_⟩
  · rintro rfl
    exact beq_iff_eq.mp hcounts
  · rw [Tree.map_fst_bodies, hgroups]
  · intro hfree
    refine ⟨((Tree.agrees hfree hordered).exists_iff hstart _).mp ⟨out, hout, rfl⟩, ?_⟩
    intro group body hbody span hspan
    have hmem : group ∈ List.range' 1 program.groups := by
      rw [← hgroups, ← Tree.map_fst_bodies]
      exact List.mem_map_of_mem hbody
    obtain ⟨hpos, hlt⟩ := List.mem_range'_1.mp hmem
    rw [out.groups_toMatch start hpos (by omega)] at hspan
    obtain ⟨-, -, -, hderives⟩ := hcoherent.captured group span (Option.some.inj hspan)
    exact hderives hfree body hbody

end Attempts

/-- With `(a|aa)+b` on the text `aab`, two rounds are tried first. A third one fails where it comes
to `b`, and the group keeps what it has captured in the second. -/
theorem captures_coherent_of_attempt_of_repeated_group :
    let letter := Tree.atom 1 (.byte 97)
    let body := Tree.alt letter (.cat (.atom 3 (.byte 97)) (.atom 4 (.byte 97)))
    let tree := Tree.cat (.rep (.group 0 (some 1) body) ⟨1, none, true⟩) (.atom 7 (.byte 98))
    let program := Program.ofTree tree 1
    let found : Match := ⟨⟨0, 3⟩, [some ⟨0, 3⟩, some ⟨1, 2⟩]⟩
    compilePattern 2000 (ascii "(a|aa)+b") = ⟨some tree, .ok program⟩ ∧
      attempt program #[97, 97, 98] (.atMost 100) true 0 = .ok (some found) ∧
      found.Coherent #[97, 97, 98] program.groups 0 ∧ body.Derives #[97, 97, 98] 1 2 := by
  intro letter body tree program found
  have hcompile : compilePattern 2000 (ascii "(a|aa)+b") = ⟨some tree, .ok program⟩ := rfl
  have hfound : attempt program #[97, 97, 98] (.atMost 100) true 0 = .ok (some found) := by
    decide +kernel
  have hfree : tree.BackrefFree := ⟨⟨nofun, nofun, nofun⟩, nofun⟩
  obtain ⟨hcoherent, -, -, -, hderives⟩ :=
    captures_coherent_of_attempt hcompile (Nat.zero_le 3) hfound
  refine ⟨hcompile, hfound, hcoherent, ?_⟩
  exact (hderives hfree).2 1 body List.mem_cons_self ⟨1, 2⟩ rfl

end RegexSearch
