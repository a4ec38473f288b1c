import RegexSearch.Cache
import RegexSearch.Program.Lowering
import RegexSearch.Scan

/-!
The engine, which searches texts for patterns and remembers the programs of the patterns that it
has used last. What a search gives depends on the pattern, the text and the options alone; the
engine that comes with it differs in what it remembers. A pattern that cannot be compiled is not
remembered.

The operations of the engine are operations on a program: listing what is matched, replacing it,
or saying whether there is any.
-/

namespace RegexSearch

structure Options where
  /-- Steps for one attempt at a match, where zero is no limit. -/
  stepLimit : Nat := 1000000
  /-- Programs to remember. -/
  cacheCapacity : Nat := 512
  /-- The cost up to which a counted repetition is written out. -/
  maxUnroll : Nat := 2000
  deriving DecidableEq, Repr

def Options.limit (options : Options) : StepLimit :=
  .ofNat options.stepLimit

/-- What a replacement has come to. After an error the text is the one before. -/
structure Replacement where
  error : Option Error
  /-- The number of matches replaced. -/
  count : Nat
  text : Bytes
  deriving DecidableEq, Repr

/-- A text from the offset `position` on, in which the given matches are replaced. They follow
each other from left to right. -/
def Text.splice (text : Text) (replacement : Bytes) : (position : Nat) → List Match → Bytes
  | position, [] => Span.bytes ⟨position, text.size⟩ text
  | position, found :: rest =>
    Span.bytes ⟨position, found.span.start⟩ text ++ replacement ++
      splice text replacement found.span.stop rest

namespace Search

/-- What is matched, without what the other groups capture. -/
def wholeMatches (search : Search) : Except Error (List Slice) :=
  search.findAll.map fun found => found.map (·.front search.text)

/-- What the groups capture in the first match, or nothing if there is no match. -/
def firstCaptures (search : Search) : Except Error (List (Option Slice)) :=
  search.findFirst.map fun found => found.elim [] (·.captures search.text)

/-- What the groups capture in each match. -/
def allCaptures (search : Search) : Except Error (List (List (Option Slice))) :=
  search.findAll.map fun found => found.map (·.captures search.text)

/-- What the groups capture in the match of the whole text, or nothing if there is none. -/
def wholeTextCaptures (search : Search) : Except Error (List (Option Slice)) :=
  search.matchWhole.map fun found => found.elim [] (·.captures search.text)

/-- Whether there is a match. -/
def hasMatch (search : Search) : Except Error Bool :=
  search.findFirst.map Option.isSome

/-- Replaces at most `count` matches. The replacement is taken as it stands. -/
def replace (search : Search) (replacement : Bytes) (count : Nat) : Replacement :=
  match Scan.start.take search count with
  | .error error => ⟨some error, 0, search.text.toList⟩
  | .ok found => ⟨none, found.length, Text.splice search.text replacement 0 found⟩

end Search

structure Engine where
  options : Options
  cache : Cache Bytes Program
  deriving DecidableEq, Repr

namespace Engine

def new (options : Options) : Engine :=
  ⟨options, .empty options.cacheCapacity⟩

/-- The program of a pattern, remembered or compiled. -/
def compile (engine : Engine) (pattern : Bytes) : Except Error Program × Engine :=
  match engine.cache.get pattern with
  | (some program, cache) => (.ok program, { engine with cache })
  | (none, cache) =>
    match (compilePattern engine.options.maxUnroll pattern).program with
    | .error error => (.error error, { engine with cache })
    | .ok program =>
      let (stored, cache) := cache.put pattern program
      (.ok stored, { engine with cache })

/-- Searches a text for a pattern, if the pattern compiles. -/
def searching {α : Type} (engine : Engine) (pattern : Bytes) (text : Text)
    (use : Search → Except Error α) : Except Error α × Engine :=
  match engine.compile pattern with
  | (.error error, engine) => (.error error, engine)
  | (.ok program, engine) => (use ⟨program, text, engine.options.limit⟩, engine)

/-- All matches of a pattern in a text. -/
def findAll (engine : Engine) (pattern : Bytes) (text : Text) :
    Except Error (List Match) × Engine :=
  engine.searching pattern text Search.findAll

/-- What a pattern matches in a text. -/
def search (engine : Engine) (pattern : Bytes) (text : Text) :
    Except Error (List Slice) × Engine :=
  engine.searching pattern text Search.wholeMatches

/-- What the groups of a pattern capture in its first match. -/
def searchFirst (engine : Engine) (pattern : Bytes) (text : Text) :
    Except Error (List (Option Slice)) × Engine :=
  engine.searching pattern text Search.firstCaptures

/-- What the groups of a pattern capture in each of its matches. -/
def searchAll (engine : Engine) (pattern : Bytes) (text : Text) :
    Except Error (List (List (Option Slice))) × Engine :=
  engine.searching pattern text Search.allCaptures

/-- What the groups of a pattern capture when it matches a text as a whole. -/
def matchText (engine : Engine) (pattern : Bytes) (text : Text) :
    Except Error (List (Option Slice)) × Engine :=
  engine.searching pattern text Search.wholeTextCaptures

/-- Whether a pattern matches anywhere in a text. -/
def contains (engine : Engine) (pattern : Bytes) (text : Text) : Except Error Bool × Engine :=
  engine.searching pattern text Search.hasMatch

/-- Replaces at most `count` matches of a pattern in a text. -/
def replace (engine : Engine) (pattern : Bytes) (text : Text) (replacement : Bytes)
    (count : Nat) : Replacement × Engine :=
  match engine.compile pattern with
  | (.error error, engine) => (⟨some error, 0, text.toList⟩, engine)
  | (.ok program, engine) =>
    (Search.replace ⟨program, text, engine.options.limit⟩ replacement count, engine)

/-- The number of patterns whose programs are remembered. -/
def cachedPatterns (engine : Engine) : Nat :=
  engine.cache.size

/-- Whether the program of a pattern is remembered. -/
def isCached (engine : Engine) (pattern : Bytes) : Bool :=
  engine.cache.contains pattern

end Engine

/-! Single operations. Each one works on an engine of its own, which remembers nothing. -/

namespace Once

/-- An engine that remembers nothing, otherwise with the given options. -/
def engine (options : Options) : Engine :=
  .new { options with cacheCapacity := 0 }

def compile (options : Options) (pattern : Bytes) : Except Error Program :=
  ((engine options).compile pattern).1

def search (options : Options) (pattern : Bytes) (text : Text) : Except Error (List Slice) :=
  ((engine options).search pattern text).1

def searchAll (options : Options) (pattern : Bytes) (text : Text) :
    Except Error (List (List (Option Slice))) :=
  ((engine options).searchAll pattern text).1

def matchText (options : Options) (pattern : Bytes) (text : Text) :
    Except Error (List (Option Slice)) :=
  ((engine options).matchText pattern text).1

def replace (options : Options) (pattern : Bytes) (text : Text) (replacement : Bytes)
    (count : Nat) : Replacement :=
  ((engine options).replace pattern text replacement count).1

end Once

end RegexSearch
