import RegexSearch.Engine
import RegexSearch.Proofs.Cache

/-!
Calls of the engine. Every operation compiles its pattern and then works with the program, the text
and the options, so what it gives depends on the engine only through the program that compiling
gives. A program that is remembered is the one that its pattern compiles to, and this stays so
over all calls. Hence an engine gives what an engine without a memory gives, and all that its
history leaves behind is which patterns it has used last.
-/

namespace RegexSearch

/-- A call of an operation of the engine. -/
inductive Call where
  | compile (pattern : Bytes)
  | findAll (pattern : Bytes) (text : Text)
  | search (pattern : Bytes) (text : Text)
  | searchFirst (pattern : Bytes) (text : Text)
  | searchAll (pattern : Bytes) (text : Text)
  | matchText (pattern : Bytes) (text : Text)
  | contains (pattern : Bytes) (text : Text)
  | replace (pattern : Bytes) (text : Text) (replacement : Bytes) (count : Nat)
  deriving DecidableEq, Repr

/-- What a call gives: an error, or a result of the kind that the operation has. A replacement
carries the text as well. -/
inductive Answer where
  | program (result : Except Error Program)
  | found (result : Except Error (List Match))
  | slices (result : Except Error (List Slice))
  | captures (result : Except Error (List (Option Slice)))
  | allCaptures (result : Except Error (List (List (Option Slice))))
  | verdict (result : Except Error Bool)
  | replacement (result : Replacement)
  deriving DecidableEq

def Call.pattern : Call → Bytes
  | compile pattern => pattern
  | findAll pattern _ => pattern
  | search pattern _ => pattern
  | searchFirst pattern _ => pattern
  | searchAll pattern _ => pattern
  | matchText pattern _ => pattern
  | contains pattern _ => pattern
  | replace pattern .. => pattern

namespace Engine

/-- What a call gives, and the engine after it. -/
def perform (engine : Engine) : Call → Answer × Engine
  | .compile pattern => (engine.compile pattern).map .program id
  | .findAll pattern text => (engine.findAll pattern text).map .found id
  | .search pattern text => (engine.search pattern text).map .slices id
  | .searchFirst pattern text => (engine.searchFirst pattern text).map .captures id
  | .searchAll pattern text => (engine.searchAll pattern text).map .allCaptures id
  | .matchText pattern text => (engine.matchText pattern text).map .captures id
  | .contains pattern text => (engine.contains pattern text).map .verdict id
  | .replace pattern text replacement count =>
    (engine.replace pattern text replacement count).map .replacement id

/-- What each of a sequence of calls gives, and the engine after them. -/
def performAll (engine : Engine) : List Call → List Answer × Engine
  | [] => ([], engine)
  | call :: calls =>
    let (answer, engine) := engine.perform call
    let (answers, engine) := engine.performAll calls
    (answer :: answers, engine)

end Engine

namespace Call

/-- What a call gives if its pattern has been compiled with this result. -/
def answer (limit : StepLimit) (compiled : Except Error Program) : Call → Answer
  | compile _ => .program compiled
  | findAll _ text => .found (compiled.bind fun program => Search.findAll ⟨program, text, limit⟩)
  | search _ text =>
    .slices (compiled.bind fun program => Search.wholeMatches ⟨program, text, limit⟩)
  | searchFirst _ text =>
    .captures (compiled.bind fun program => Search.firstCaptures ⟨program, text, limit⟩)
  | searchAll _ text =>
    .allCaptures (compiled.bind fun program => Search.allCaptures ⟨program, text, limit⟩)
  | matchText _ text =>
    .captures (compiled.bind fun program => Search.wholeTextCaptures ⟨program, text, limit⟩)
  | contains _ text =>
    .verdict (compiled.bind fun program => Search.hasMatch ⟨program, text, limit⟩)
  | replace _ text replacement count =>
    .replacement <|
      match compiled with
      | .error error => ⟨some error, 0, text.toList⟩
      | .ok program => Search.replace ⟨program, text, limit⟩ replacement count

end Call

namespace Engine

variable {engine : Engine}

theorem options_compile (engine : Engine) (pattern : Bytes) :
    (engine.compile pattern).2.options = engine.options := by
  unfold compile
  split
  · rfl
  · split <;> rfl

theorem searching_eq {α : Type} (engine : Engine) (pattern : Bytes) (text : Text)
    (use : Search → Except Error α) :
    engine.searching pattern text use =
      ((engine.compile pattern).1.bind fun program => use ⟨program, text, engine.options.limit⟩,
        (engine.compile pattern).2) := by
  have hoptions := options_compile engine pattern
  unfold searching
  cases hcompile : engine.compile pattern with
  | mk result after =>
      rw [hcompile] at hoptions
      cases result with
      | error error => rfl
      | ok program =>
          dsimp only at hoptions ⊢
          rw [hoptions]
          rfl

/-- A call compiles its pattern and does nothing else to the engine. -/
theorem perform_eq (engine : Engine) (call : Call) :
    engine.perform call =
      (call.answer engine.options.limit (engine.compile call.pattern).1,
        (engine.compile call.pattern).2) := by
  cases call with
  | compile pattern => rfl
  | findAll pattern text =>
      simp only [perform, findAll, searching_eq]
      rfl
  | search pattern text =>
      simp only [perform, search, searching_eq]
      rfl
  | searchFirst pattern text =>
      simp only [perform, searchFirst, searching_eq]
      rfl
  | searchAll pattern text =>
      simp only [perform, searchAll, searching_eq]
      rfl
  | matchText pattern text =>
      simp only [perform, matchText, searching_eq]
      rfl
  | contains pattern text =>
      simp only [perform, contains, searching_eq]
      rfl
  | replace pattern text replacement count =>
      have hoptions := options_compile engine pattern
      simp only [perform, replace, Call.pattern, Call.answer]
      cases hcompile : engine.compile pattern with
      | mk result after =>
          rw [hcompile] at hoptions
          cases result with
          | error error => rfl
          | ok program =>
              dsimp only at hoptions ⊢
              rw [hoptions]
              rfl

/-! ### What an engine remembers -/

/-- The program of a pattern under the options of the engine, without looking it up. -/
def compiled (options : Options) (pattern : Bytes) : Except Error Program :=
  (compilePattern options.maxUnroll pattern).program

/-- The patterns that a history of calls has used, those that compile, with the latest first. -/
def used (options : Options) (calls : List Call) : List Bytes :=
  ((calls.map Call.pattern).filter fun pattern => (compiled options pattern).isOk).reverse

/-- An engine that remembers the patterns it has used last, each with its program. In the history
of uses the latest one comes first. -/
structure Remembers (engine : Engine) (uses : List Bytes) : Prop where
  programs : engine.cache.Satisfies fun pattern program =>
    compiled engine.options pattern = .ok program
  patterns : engine.cache.Lists uses
  capacity : engine.cache.capacity = engine.options.cacheCapacity

theorem remembers_new (options : Options) : (Engine.new options).Remembers [] where
  programs := Cache.satisfies_empty _
  patterns := by simp [Cache.Lists, Cache.keys, Engine.new, Cache.empty]
  capacity := rfl

/-- Compiling gives the program that the pattern has, remembered or not. A pattern that does not
compile leaves the engine as it is. -/
theorem Remembers.compile {uses : List Bytes} (h : engine.Remembers uses) (pattern : Bytes) :
    (engine.compile pattern).1 = compiled engine.options pattern ∧
      if (compiled engine.options pattern).isOk then
        (engine.compile pattern).2.Remembers (pattern :: uses)
      else (engine.compile pattern).2 = engine := by
  have hget := h.programs.get pattern
  have hcapacity := Cache.capacity_get engine.cache pattern
  unfold Engine.compile
  cases hlookup : engine.cache.get pattern with
  | mk stored cache =>
      rw [hlookup] at hget hcapacity
      cases stored with
      | some program =>
          have hprogram := hget.2 program rfl
          have hlists := h.patterns.get (congrArg Prod.fst hlookup)
          rw [hlookup] at hlists
          rw [hprogram]
          exact ⟨rfl, hget.1, hlists, hcapacity.trans h.capacity⟩
      | none =>
          have hcache : cache = engine.cache := by
            have hsame := Cache.get_eq_of_none (congrArg Prod.fst hlookup)
            rwa [hlookup] at hsame
          subst hcache
          dsimp only
          change _ ∧ if (compiled engine.options pattern).isOk then _ else _
          unfold compiled
          cases hcompile : (compilePattern engine.options.maxUnroll pattern).program with
          | error error => exact ⟨rfl, rfl⟩
          | ok program =>
              obtain ⟨hprograms, hstored⟩ := h.programs.put pattern hcompile
              have hput := Cache.capacity_put engine.cache pattern program
              refine ⟨hstored.symm.trans hcompile, hprograms, h.patterns.put pattern program, ?_⟩
              exact hput.trans h.capacity

/-! ### Histories of calls -/

theorem options_perform (engine : Engine) (call : Call) :
    (engine.perform call).2.options = engine.options := by
  rw [perform_eq]
  exact options_compile engine call.pattern

/-- What a call gives does not depend on what is remembered. -/
theorem Remembers.perform {uses : List Bytes} (h : engine.Remembers uses) (call : Call) :
    (engine.perform call).1 =
        call.answer engine.options.limit (compiled engine.options call.pattern) ∧
      if (compiled engine.options call.pattern).isOk then
        (engine.perform call).2.Remembers (call.pattern :: uses)
      else (engine.perform call).2 = engine := by
  obtain ⟨hresult, hafter⟩ := h.compile call.pattern
  rw [perform_eq, hresult]
  exact ⟨rfl, hafter⟩

theorem used_cons (options : Options) (call : Call) (calls : List Call) :
    used options (call :: calls) =
      used options calls ++
        if (compiled options call.pattern).isOk then [call.pattern] else [] := by
  simp only [used, List.map_cons, List.filter_cons]
  split
  · rw [List.reverse_cons]
  · rw [List.append_nil]

/-- What one call keeps up, a sequence of calls keeps up. -/
theorem Remembers.performAll {uses : List Bytes} (h : engine.Remembers uses) (calls : List Call) :
    (engine.performAll calls).1 = calls.map (fun call =>
        call.answer engine.options.limit (compiled engine.options call.pattern)) ∧
      (engine.performAll calls).2.options = engine.options ∧
      (engine.performAll calls).2.Remembers (used engine.options calls ++ uses) := by
  induction calls generalizing engine uses with
  | nil => exact ⟨rfl, rfl, h⟩
  | cons call calls ih =>
      have hoptions := options_perform engine call
      obtain ⟨hanswer, hafter⟩ := h.perform call
      have hremembers : (engine.perform call).2.Remembers
          ((if (compiled engine.options call.pattern).isOk then [call.pattern] else []) ++
            uses) := by
        cases hok : (compiled engine.options call.pattern).isOk with
        | true =>
            rw [hok] at hafter
            exact hafter
        | false =>
            rw [hok] at hafter
            have hsame : (engine.perform call).2 = engine := hafter
            rw [hsame]
            exact h
      obtain ⟨hanswers, hlast, hremembered⟩ := ih hremembers
      rw [hoptions] at hanswers hlast hremembered
      rw [used_cons, List.append_assoc]
      refine ⟨?_, hlast, hremembered⟩
      rw [List.map_cons, ← hanswer, ← hanswers]
      rfl

/-- After any history, a call gives what the options alone determine. -/
theorem perform_performAll (options : Options) (before : List Call) (call : Call) :
    (((Engine.new options).performAll before).2.perform call).1 =
      call.answer options.limit (compiled options call.pattern) := by
  obtain ⟨-, hoptions, hremembers⟩ := (remembers_new options).performAll before
  have hperform := (hremembers.perform call).1
  rw [hoptions] at hperform
  exact hperform

end Engine

/-- What an engine remembers does not show in what it gives. Over any sequence of calls, each call
gives what it gives on a new engine that remembers nothing. What is remembered after the calls, with
the latest first, are the distinct patterns used last, among those that compile and as many as the
capacity allows; a call with a pattern that does not compile changes nothing. -/
theorem performAll_answers_and_keys (options : Options) (calls : List Call) :
    let (answers, engine) := (Engine.new options).performAll calls
    answers = calls.map (fun call => ((Once.engine options).perform call).1) ∧
      engine.cache.keys = (Engine.used options calls).eraseDups.take options.cacheCapacity ∧
      ∀ call, (Engine.compiled options call.pattern).isOk = false →
        (engine.perform call).2 = engine := by
  obtain ⟨hanswers, hoptions, hremembers⟩ := (Engine.remembers_new options).performAll calls
  rw [List.append_nil] at hremembers
  refine ⟨?_, ?_, ?_⟩
  · rw [hanswers]
    apply List.map_congr_left
    intro call _
    exact (Engine.perform_performAll { options with cacheCapacity := 0 } [] call).symm
  · have hkeys := hremembers.patterns
    rw [Cache.Lists, hremembers.capacity, hoptions] at hkeys
    exact hkeys
  · intro call hrefused
    have hafter := (hremembers.perform call).2
    rw [hoptions] at hafter
    change if (Engine.compiled options call.pattern).isOk then _ else _ at hafter
    rw [hrefused] at hafter
    exact hafter

/-- With room for two programs, `c` displaces `b`, which was compiled after `a` but not used again;
the refused pattern leaves no trace. -/
theorem performAll_answers_and_keys_of_two_places :
    let calls : List Call := [.compile (ascii "a"), .compile (ascii "b"), .compile (ascii "("),
      .search (ascii "a") #[97], .compile (ascii "c")]
    let engine := ((Engine.new { cacheCapacity := 2 }).performAll calls).2
    engine.cache.keys = [ascii "c", ascii "a"] ∧
      (engine.perform (.compile (ascii "("))).2 = engine := by
  intro calls engine
  obtain ⟨-, hkeys, hrefused⟩ := performAll_answers_and_keys { cacheCapacity := 2 } calls
  constructor
  · exact hkeys.trans rfl
  · apply hrefused
    rfl

end RegexSearch
