import RegexSearch.Proofs.Engine.Calls
import RegexSearch.Proofs.Enumeration

/-!
Searches on an engine that is already in use. As long as the programs it remembers are right, an
engine gives what a new engine gives that remembers nothing, and it remembers right programs
afterwards. So a search can be looked at by itself, whatever has been searched before.
-/

namespace RegexSearch

theorem Span.bytes_subset (span : Span) (text : Text) : span.bytes text ⊆ text.toList := by
  intro b hmem
  rw [Span.bytes, Array.toList_extract] at hmem
  exact List.mem_of_mem_drop (List.mem_of_mem_take hmem)

theorem Match.front_subset (found : Match) (text : Text) :
    (found.front text).bytes ⊆ text.toList := by
  rw [Match.front]
  cases found.groups.head?.join with
  | none => exact List.nil_subset _
  | some span => exact Span.bytes_subset span text

namespace Engine

/-- An engine with these options, the programs of which are right. -/
def Ready (options : Options) (engine : Engine) : Prop :=
  engine.options = options ∧ ∃ uses, engine.Remembers uses

variable {options : Options} {engine : Engine}

theorem ready_new (options : Options) : (Engine.new options).Ready options :=
  ⟨rfl, [], remembers_new options⟩

theorem Ready.compile (h : engine.Ready options) (pattern : Bytes) :
    (engine.compile pattern).1 = compiled options pattern ∧
      (engine.compile pattern).2.Ready options := by
  obtain ⟨rfl, uses, hremembers⟩ := h
  obtain ⟨hresult, hafter⟩ := hremembers.compile pattern
  refine ⟨hresult, options_compile engine pattern, ?_⟩
  split at hafter
  · exact ⟨_, hafter⟩
  · rw [hafter]
    exact ⟨uses, hremembers⟩

theorem Ready.search_eq (h : engine.Ready options) (pattern : Bytes) (text : Text) :
    (engine.search pattern text).1 =
      (compiled options pattern).bind fun program =>
        Search.wholeMatches ⟨program, text, options.limit⟩ := by
  rw [Engine.search, searching_eq, (h.compile pattern).1, h.1]

end Engine

namespace Once

variable {options : Options} {pattern : Bytes} {text : Text}

theorem search_eq (options : Options) (pattern : Bytes) (text : Text) :
    Once.search options pattern text =
      (Engine.compiled options pattern).bind fun program =>
        Search.wholeMatches ⟨program, text, options.limit⟩ :=
  (Engine.ready_new { options with cacheCapacity := 0 }).search_eq pattern text

/-- A pattern that compiles leaves only one thing that can go wrong. -/
theorem eq_timeout_of_search {program : Program} {error : Error}
    (hcompiled : Engine.compiled options pattern = .ok program)
    (h : Once.search options pattern text = .error error) : error = .timeout := by
  have hsearch : Search.FromTree ⟨program, text, options.limit⟩ :=
    .of_compilePattern hcompiled text options.limit
  have hwhole : Search.wholeMatches ⟨program, text, options.limit⟩ = .error error := by
    rw [← h, search_eq, hcompiled]
    rfl
  rcases hsearch.findAll_cases with ⟨found, _, hfound, _⟩ | ⟨_, htimeout, _⟩
  · rw [Search.wholeMatches, hfound] at hwhole
    cases hwhole
  · rw [Search.wholeMatches, htimeout] at hwhole
    exact (Except.error.inj hwhole).symm

/-- What is found is a part of the text. -/
theorem subset_of_search {found : List Slice} (h : Once.search options pattern text = .ok found)
    {slice : Slice} (hslice : slice ∈ found) : slice.bytes ⊆ text.toList := by
  rw [search_eq] at h
  cases hcompiled : Engine.compiled options pattern with
  | error error =>
      rw [hcompiled] at h
      cases h
  | ok program =>
      have hwhole : Search.wholeMatches ⟨program, text, options.limit⟩ = .ok found := by
        rw [← h, hcompiled]
        rfl
      rw [Search.wholeMatches] at hwhole
      cases hfound : Search.findAll ⟨program, text, options.limit⟩ with
      | error error =>
          rw [hfound] at hwhole
          cases hwhole
      | ok spans =>
          rw [hfound] at hwhole
          obtain rfl := Except.ok.inj hwhole
          obtain ⟨whole, -, rfl⟩ := List.mem_map.mp hslice
          exact whole.front_subset text

end Once

/-- What a search gives is what it gives on an engine that remembers nothing. -/
theorem Engine.Ready.search {options : Options} {engine : Engine} (h : engine.Ready options)
    (pattern : Bytes) (text : Text) :
    (engine.search pattern text).1 = Once.search options pattern text ∧
      (engine.search pattern text).2.Ready options := by
  constructor
  · rw [h.search_eq, Once.search_eq]
  · rw [Engine.search, searching_eq]
    exact (h.compile pattern).2

end RegexSearch
