import RegexSearch.CommandLine.Arguments
import RegexSearch.Lines
import RegexSearch.Pattern.Printer
import RegexSearch.Program.Listing

/-!
What the command line prints. Each line of each input is searched on its own; what this adds to
the output is a report, and the reports of all lines are joined in order. A line that reaches the
step limit and a file that cannot be opened are reported and do not end the search, but the
command then exits with the status for errors.
-/

namespace RegexSearch

/-- An input to search: its name in messages, and its bytes unless it cannot be opened. -/
structure Source where
  name : Bytes
  content : Option Bytes
  deriving DecidableEq, Repr

/-- What has been printed, what has been found, and whether anything went wrong. -/
structure Report where
  out : Bytes
  err : Bytes
  matched : Nat
  failed : Bool
  deriving DecidableEq, Repr

namespace Report

def empty : Report := ⟨[], [], 0, false⟩

/-- One report after the other. -/
def join (first second : Report) : Report :=
  ⟨first.out ++ second.out, first.err ++ second.err, first.matched + second.matched,
    first.failed || second.failed⟩

/-- The report of a failure. -/
def failure (message : Bytes) : Report := ⟨[], message, 0, true⟩

end Report

/-- The exit status of a command and what it writes to its two streams. -/
structure Output where
  status : Nat
  stdout : Bytes
  stderr : Bytes
  deriving DecidableEq, Repr

/-- The exit status if anything matched. -/
def statusMatched : Nat := 0

/-- The exit status if nothing matched. -/
def statusNoMatch : Nat := 1

/-- The exit status after any failure. -/
def statusError : Nat := 2

def standardInputName : Bytes := ascii "(standard input)"

/-- The file name that stands for the standard input. -/
def standardInputFile : Bytes := ascii "-"

namespace Command

/-- The sources that file names refer to. The standard input can be read once, and is empty when
it is named again. -/
def resolve (find : Bytes → Option Bytes) (stdin : Bytes) : List Bytes → List Source
  | [] => []
  | file :: rest =>
    if file = standardInputFile then
      ⟨standardInputName, some stdin⟩ :: resolve find [] rest
    else ⟨file, find file⟩ :: resolve find stdin rest

/-- The inputs of a command: the files that it names, or else the standard input. -/
def sources (command : Command) (find : Bytes → Option Bytes) (stdin : Bytes) : List Source :=
  if command.files.isEmpty then [⟨standardInputName, some stdin⟩]
  else resolve find stdin command.files

/-- Matches are printed with the name of their input if there can be several inputs. -/
def showsNames (command : Command) : Bool :=
  1 < command.files.length

/-- The line that is printed for a match. -/
def matchLine (command : Command) (name : Bytes) (number : Nat) (found : Slice) : Bytes :=
  (if command.showsNames then name ++ ascii ":" else []) ++
    (if command.settings.lineNumbers then decimal number ++ ascii ":" else []) ++
    found.bytes ++ ascii "\n"

/-- Searches one line. -/
def searchLine (command : Command) (engine : Engine) (name : Bytes) (number : Nat)
    (line : Bytes) : Report × Engine :=
  match engine.search command.pattern line.toArray with
  | (.error error, engine) =>
    let place := name ++ ascii ":" ++ decimal number ++ ascii ": "
    (.failure (ascii "dgrep: " ++ place ++ error.text ++ ascii "\n"), engine)
  | (.ok found, engine) =>
    let out :=
      if command.settings.countOnly then []
      else found.flatMap (command.matchLine name number)
    (⟨out, [], found.length, false⟩, engine)

/-- Searches lines of which the first has the given number. -/
def searchLines (command : Command) (name : Bytes) (engine : Engine) (number : Nat) :
    List Bytes → Report × Engine
  | [] => (.empty, engine)
  | line :: rest =>
    let (first, engine) := command.searchLine engine name number line
    let (others, engine) := command.searchLines name engine (number + 1) rest
    (first.join others, engine)

/-- Searches one input. -/
def searchSource (command : Command) (engine : Engine) (source : Source) : Report × Engine :=
  match source.content with
  | none => (.failure (ascii "dgrep: " ++ source.name ++ ascii ": cannot open file\n"), engine)
  | some content => command.searchLines source.name engine 1 (lines content)

/-- Searches the inputs one after the other. -/
def searchSources (command : Command) (engine : Engine) : List Source → Report × Engine
  | [] => (.empty, engine)
  | source :: rest =>
    let (first, engine) := command.searchSource engine source
    let (others, engine) := command.searchSources engine rest
    (first.join others, engine)

/-- What is printed for a pattern that is to be dumped: its tree if it has one, and then its
program or what is wrong with it. -/
def dump (command : Command) : Report :=
  let compilation := compilePattern command.settings.options.maxUnroll command.pattern
  let tree := compilation.tree.elim [] fun tree => ascii "ast: " ++ tree.shown ++ ascii "\n"
  match compilation.program with
  | .error error => ⟨tree, ascii "dgrep: " ++ error.text ++ ascii "\n", 0, true⟩
  | .ok program => ⟨tree ++ ascii "program:\n" ++ program.listing, [], 0, false⟩

/-- What is printed before the search, and whether there is anything to search for. A dump tells
what is wrong with a pattern in the same way as the search would. -/
def prepare (command : Command) (engine : Engine) : Report × Engine :=
  let dumped := if command.settings.dump then command.dump else .empty
  if dumped.failed then (dumped, engine)
  else
    match engine.compile command.pattern with
    | (.error error, engine) =>
      (dumped.join (.failure (ascii "dgrep: " ++ error.text ++ ascii "\n")), engine)
    | (.ok _, engine) => (dumped, engine)

/-- The total that is printed at the end if only the number of matches was asked for. -/
def total (command : Command) (searched : Report) : Bytes :=
  if command.settings.countOnly then decimal searched.matched ++ ascii "\n" else []

/-- The exit status after a search. -/
def exitStatus (searched : Report) : Nat :=
  if searched.failed then statusError
  else if 0 < searched.matched then statusMatched
  else statusNoMatch

/-- Runs a command on its sources. -/
def execute (command : Command) (sources : List Source) : Output :=
  let (prepared, engine) := command.prepare (.new command.settings.options)
  if prepared.failed then ⟨statusError, prepared.out, prepared.err⟩
  else
    let searched := (command.searchSources engine sources).1
    ⟨exitStatus searched, prepared.out ++ searched.out ++ command.total searched,
      prepared.err ++ searched.err⟩

end Command

/-- Runs the command line on its arguments, where `find` gives the content of a file and `stdin`
is the standard input. -/
def runCommandLine (arguments : List Bytes) (find : Bytes → Option Bytes) (stdin : Bytes) :
    Output :=
  match Command.parse arguments with
  | .error complaint => ⟨statusError, [], complaint.message ++ usage⟩
  | .ok command => command.execute (command.sources find stdin)

end RegexSearch
