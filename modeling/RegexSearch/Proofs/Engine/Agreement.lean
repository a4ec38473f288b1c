import RegexSearch.Proofs.Engine.Calls
import RegexSearch.Proofs.Enumeration

/-!
How the operations of the engine agree. Some of them list all matches and some make the first call
of a scan only. Where the list of all matches is reached, each of the others gives its part of it.
Where it is not, those that need only the first match may still have an answer; but an attempt that
times out before that match is reported by all, never as an empty result.
-/

namespace RegexSearch

namespace Search

variable {search : Search}

/-- The first match is the head of the list of all matches. -/
theorem findFirst_of_findAll {found : List Match} (h : search.findAll = .ok found) :
    search.findFirst = .ok found.head? := by
  rw [findAll, Scan.take] at h
  rw [findFirst]
  cases hnext : Scan.start.next search with
  | mk result rest =>
      rw [hnext] at h
      cases result with
      | error error => cases h
      | ok answer =>
          cases answer with
          | none =>
              cases h
              rfl
          | some first =>
              dsimp only at h ⊢
              cases hmore : rest.take search search.text.size with
              | error error =>
                  rw [hmore] at h
                  cases h
              | ok more =>
                  rw [hmore] at h
                  cases h
                  rfl

theorem first_of_findFirst {first : Option Match} (h : search.findFirst = .ok first) :
    search.firstCaptures = .ok (first.elim [] (·.captures search.text)) ∧
      search.hasMatch = .ok first.isSome := by
  simp [firstCaptures, hasMatch, h, Except.map]

theorem first_of_findFirst_error {error : Error} (h : search.findFirst = .error error) :
    search.firstCaptures = .error error ∧ search.hasMatch = .error error := by
  simp [firstCaptures, hasMatch, h, Except.map]

theorem all_of_findAll_error {error : Error} (h : search.findAll = .error error) :
    search.wholeMatches = .error error ∧ search.allCaptures = .error error := by
  simp [wholeMatches, allCaptures, h, Except.map]

/-- The first group of a match is the whole match. -/
theorem FromTree.head?_groups (h : search.FromTree) {found : List Match}
    (hfound : search.findAll = .ok found) :
    ∀ each ∈ found, each.groups.head? = some (some each.span) := by
  intro each hmem
  rcases h.findAll_cases with ⟨listed, behind, hlisted, henumerates, -⟩ | ⟨-, herror, -⟩
  · rw [hfound] at hlisted
    cases hlisted
    obtain ⟨before, hfirst⟩ := henumerates.exists_firstFrom each hmem
    obtain ⟨out, groups, -, -, heach⟩ := h.exists_outcome hfirst.start_lt.le hfirst.attempted
    rw [heach]
    rfl
  · rw [hfound] at herror
    cases herror

/-- What lists all matches lists the whole of each, or the captures, which begin with the whole. -/
theorem FromTree.all_of_findAll (h : search.FromTree) {found : List Match}
    (hfound : search.findAll = .ok found) :
    search.wholeMatches = .ok (found.map (·.whole search.text)) ∧
      search.allCaptures = .ok (found.map (·.captures search.text)) ∧
      ∀ each ∈ found, (each.captures search.text).head? = some (some (each.whole search.text)) := by
  have hfront (each : Match) (heach : each ∈ found) :
      each.front search.text = each.whole search.text := by
    rw [Match.front, h.head?_groups hfound each heach]
    rfl
  refine ⟨?_, ?_, ?_⟩
  · rw [wholeMatches, hfound]
    exact congrArg Except.ok (List.map_congr_left hfront)
  · rw [allCaptures, hfound]
    rfl
  · intro each heach
    rw [Match.captures, List.head?_map, h.head?_groups hfound each heach]
    rfl

end Search

/-- The operations agree with one another, whatever the engine has been used for before each of
them. If all matches are listed, then each of the others gives its part of them: the whole of each,
the captures of each, which begin with the whole, the captures of the first, and whether there is
any. If listing them fails, the operations that need all of them fail likewise. The two that need
only the first one do what the first call of a scan does. An attempt that times out where one is due
is an error for all that need it; the match of the whole text needs its own attempt only. -/
theorem operations_agree (options : Options) (before : Call → List Call) (pattern : Bytes)
    (text : Text) :
    let answer (call : Call) : Answer :=
      (((Engine.new options).performAll (before call)).2.perform call).1
    (∀ found, answer (.findAll pattern text) = .found (.ok found) →
      answer (.search pattern text) = .slices (.ok (found.map (·.whole text))) ∧
      answer (.searchAll pattern text) = .allCaptures (.ok (found.map (·.captures text))) ∧
      (∀ each ∈ found, (each.captures text).head? = some (some (each.whole text))) ∧
      answer (.searchFirst pattern text) =
        .captures (.ok (found.head?.elim [] (·.captures text))) ∧
      answer (.contains pattern text) = .verdict (.ok !found.isEmpty)) ∧
    (∀ error, answer (.findAll pattern text) = .found (.error error) →
      answer (.search pattern text) = .slices (.error error) ∧
      answer (.searchAll pattern text) = .allCaptures (.error error)) ∧
    (∀ error, Engine.compiled options pattern = .error error →
      answer (.findAll pattern text) = .found (.error error) ∧
      answer (.searchFirst pattern text) = .captures (.error error) ∧
      answer (.contains pattern text) = .verdict (.error error)) ∧
    ∀ program, Engine.compiled options pattern = .ok program →
      let search : Search := ⟨program, text, options.limit⟩
      (∀ first, (Scan.start.next search).1 = .ok first →
        answer (.searchFirst pattern text) = .captures (.ok (first.elim [] (·.captures text))) ∧
        answer (.contains pattern text) = .verdict (.ok first.isSome)) ∧
      (∀ error, (Scan.start.next search).1 = .error error →
        answer (.searchFirst pattern text) = .captures (.error error) ∧
        answer (.contains pattern text) = .verdict (.error error)) ∧
      (∀ offset, search.attemptAt offset = .error .timeout →
        (search.Visits offset → answer (.findAll pattern text) = .found (.error .timeout)) ∧
        (offset < text.size → search.Barren 0 offset →
          (Scan.start.next search).1 = .error .timeout)) ∧
      (attempt program text options.limit true 0 = .error .timeout →
        answer (.matchText pattern text) = .captures (.error .timeout)) := by
  intro answer
  have hanswer (call : Call) :
      answer call = call.answer options.limit (Engine.compiled options call.pattern) :=
    Engine.perform_performAll options (before call) call
  simp only [hanswer, Call.pattern, Call.answer]
  cases hcompiled : Engine.compiled options pattern with
  | error error =>
      refine ⟨?_, ?_, ?_, ?_⟩
      · intro found hfound
        cases hfound
      · rintro _ ⟨⟩
        exact ⟨rfl, rfl⟩
      · rintro _ ⟨⟩
        exact ⟨rfl, rfl, rfl⟩
      · intro program hprogram
        cases hprogram
  | ok program =>
      let search : Search := ⟨program, text, options.limit⟩
      have hsearch : search.FromTree := .of_compilePattern hcompiled text options.limit
      simp only [Except.bind, Answer.found.injEq, Answer.slices.injEq, Answer.allCaptures.injEq,
        Answer.captures.injEq, Answer.verdict.injEq, Except.ok.injEq]
      refine ⟨?_, ?_, ?_, ?_⟩
      · intro found hfound
        obtain ⟨hwholes, hcaptures, hheads⟩ := hsearch.all_of_findAll hfound
        have hfirst := Search.first_of_findFirst (Search.findFirst_of_findAll hfound)
        refine ⟨hwholes, hcaptures, hheads, hfirst.1, ?_⟩
        rw [hfirst.2]
        cases found <;> rfl
      · intro error herror
        exact Search.all_of_findAll_error herror
      · intro error herror
        cases herror
      · rintro _ rfl
        refine ⟨?_, ?_, ?_, ?_⟩
        · intro first hnext
          exact Search.first_of_findFirst hnext
        · intro error hnext
          exact Search.first_of_findFirst_error hnext
        · intro offset htimeout
          constructor
          · intro hvisits
            exact hsearch.findAll_of_timeout hvisits htimeout
          · intro hoffset hbarren
            exact hsearch.findFirst_of_timeout hoffset hbarren htimeout
        · intro htimeout
          simp [Search.wholeTextCaptures, Search.matchWhole, htimeout, Except.map]

/-- The first call with `a(b)?` on `abca` finds a match with two groups, and the second one a match
with an unset group. With eight steps for each attempt, the first match of `a+` on `abaaaa` is found
and reported, although the attempt at the second one times out. -/
theorem operations_agree_of_unset_group_and_late_timeout :
    let answer (options : Options) (call : Call) : Answer := ((Engine.new options).perform call).1
    (answer {} (.searchAll (ascii "a(b)?") #[97, 98, 99, 97]) =
        .allCaptures (.ok [[some ⟨0, [97, 98]⟩, some ⟨1, [98]⟩], [some ⟨3, [97]⟩, none]]) ∧
      answer {} (.search (ascii "a(b)?") #[97, 98, 99, 97]) =
        .slices (.ok [⟨0, [97, 98]⟩, ⟨3, [97]⟩])) ∧
    (answer { stepLimit := 8 } (.search (ascii "a+") #[97, 98, 97, 97, 97, 97]) =
        .slices (.error .timeout) ∧
      answer { stepLimit := 8 } (.contains (ascii "a+") #[97, 98, 97, 97, 97, 97]) =
        .verdict (.ok true)) := by
  intro answer
  constructor
  · let found : List Match :=
      [⟨⟨0, 2⟩, [some ⟨0, 2⟩, some ⟨1, 2⟩]⟩, ⟨⟨3, 4⟩, [some ⟨3, 4⟩, none]⟩]
    have hfound : answer {} (.findAll (ascii "a(b)?") #[97, 98, 99, 97]) = .found (.ok found) := rfl
    obtain ⟨hall, -⟩ := operations_agree {} (fun _ => []) (ascii "a(b)?") #[97, 98, 99, 97]
    obtain ⟨hslices, hcaptures, -⟩ := hall found hfound
    exact ⟨hcaptures, hslices⟩
  · let program := Program.ofTree (.rep (.atom 0 (.byte 97)) ⟨1, none, true⟩) 0
    have hlisted : answer { stepLimit := 8 } (.findAll (ascii "a+") #[97, 98, 97, 97, 97, 97]) =
        .found (.error .timeout) := rfl
    obtain ⟨-, hfailed, -, hcompiled⟩ :=
      operations_agree { stepLimit := 8 } (fun _ => []) (ascii "a+") #[97, 98, 97, 97, 97, 97]
    obtain ⟨hfirst, -⟩ := hcompiled program rfl
    obtain ⟨-, hcontains⟩ := hfirst (some ⟨⟨0, 1⟩, [some ⟨0, 1⟩]⟩) rfl
    exact ⟨(hfailed .timeout hlisted).1, hcontains⟩

end RegexSearch
