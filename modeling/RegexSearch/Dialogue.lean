import RegexSearch.Engine
import RegexSearch.Lines
import RegexSearch.Pattern.Printer
import RegexSearch.Program.Listing

/-!
Two dialogues on lines of input. The first asks for a pattern and a text in turn and prints all
matches. The second asks for a pattern, prints what becomes of it, and then asks for texts to be
matched as a whole until it is given a tilde. Both end when they ask and the input has ended.
-/

namespace RegexSearch

namespace Dialogue

def askPattern : Bytes := ascii "input a pattern:\n"

def askText : Bytes := ascii "input a target string:\n"

def askTextOrEnd : Bytes :=
  ascii "input a target string(input ~ to set a new pattern):\n"

/-- A capture in quotes and the offsets of its ends. A group that took no part has neither. -/
def shownCapture : Option Slice → Bytes
  | none => ascii "\"\"[-,-]"
  | some slice =>
    ascii "\"" ++ slice.bytes ++ ascii "\"[" ++ decimal slice.offset ++ ascii "," ++
      decimal (slice.offset + slice.bytes.length) ++ ascii ")"

/-- The captures of a match, with commas between them. -/
def shownCaptures : List (Option Slice) → Bytes
  | [] => []
  | [last] => shownCapture last
  | capture :: rest => shownCapture capture ++ ascii ", " ++ shownCaptures rest

def shownError (error : Error) : Bytes :=
  ascii "error: " ++ error.text ++ ascii "\n"

/-- What the first dialogue prints for the captures of all matches. -/
def shownMatches (result : Except Error (List (List (Option Slice)))) : Bytes :=
  match result with
  | .error error => shownError error
  | .ok found =>
    decimal found.length ++ ascii " match(es):\n" ++
      found.flatMap fun captures => shownCaptures captures ++ ascii "\n"

/-- The dialogue that lists the matches of a pattern in a text. -/
def searching (engine : Engine) : List Bytes → Bytes
  | [] => askPattern
  | [_] => askPattern ++ askText
  | pattern :: text :: rest =>
    let (result, engine) := engine.searchAll pattern text.toArray
    askPattern ++ askText ++ ascii "pattern: " ++ pattern ++ ascii "\ntarget: " ++ text ++
      ascii "\n" ++ shownMatches result ++ searching engine rest

/-- What the second dialogue prints for a pattern. -/
def shownCompilation (pattern : Bytes) (compilation : Compilation) : Bytes :=
  let tree := compilation.tree.elim [] fun tree => ascii "ast: " ++ tree.shown ++ ascii "\n"
  let (summary, rest) :=
    match compilation.program with
    | .error error => (error.toStatus.summary, shownError error)
    | .ok program => ((⟨none, 0⟩ : Status).summary, program.listing)
  ascii "pattern: " ++ pattern ++ ascii "\n" ++ tree ++ ascii "pattern result: " ++ summary ++
    ascii "\n" ++ rest

/-- What the second dialogue prints for a text. -/
def shownMatch (text : Bytes) (result : Except Error (List (Option Slice))) : Bytes :=
  match result with
  | .error error => shownError error
  | .ok captures =>
    ascii "target = " ++ text ++ ascii ", capture: [" ++ shownCaptures captures ++ ascii "]\n"

/-- The dialogue that shows the program of a pattern and matches texts with it. The pattern is
`none` as long as one has to be asked for. -/
def compiling (engine : Engine) : Option Bytes → List Bytes → Bytes
  | none, [] => askPattern
  | none, pattern :: rest =>
    let compilation := compilePattern ({} : Options).maxUnroll pattern
    let accepted := if compilation.program.isOk then some pattern else none
    askPattern ++ shownCompilation pattern compilation ++ compiling engine accepted rest
  | some _, [] => askTextOrEnd ++ askPattern
  | some pattern, text :: rest =>
    if text = ascii "~" then askTextOrEnd ++ compiling engine none rest
    else
      let (result, engine) := engine.matchText pattern text.toArray
      askTextOrEnd ++ shownMatch text result ++ compiling engine (some pattern) rest

end Dialogue

/-- The whole dialogue that lists matches, on an input. -/
def searchDialogue (stdin : Bytes) : Bytes :=
  Dialogue.searching (.new {}) (lines stdin)

/-- The whole dialogue that shows programs, on an input. -/
def compileDialogue (stdin : Bytes) : Bytes :=
  Dialogue.compiling (.new {}) none (lines stdin)

end RegexSearch
