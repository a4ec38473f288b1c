import RegexSearch.Machine.Run

/-!
Scanning a text for the matches of a program from left to right. A scan tries the offsets of a
text one after the other, without the end of the text, and goes on behind each match; behind an
empty one it leaves out an offset, so that it does not find the same match again. A program that
begins with the anchor of the text is tried at offset zero only.
-/

namespace RegexSearch

/-- What a scan searches for and where, and how many steps each attempt may take. -/
structure Search where
  program : Program
  text : Text
  limit : StepLimit
  deriving DecidableEq, Repr

/-- How far a scan has come. -/
structure Scan where
  /-- The next offset to try. -/
  position : Nat
  /-- Whether the scan has nothing more to report. -/
  finished : Bool
  deriving DecidableEq, Repr

/-- Where the scan goes on behind a match. -/
def Match.resumption (found : Match) : Nat :=
  if found.isEmpty then found.span.stop + 1 else found.span.stop

namespace Scan

/-- A scan that has not begun. -/
def start : Scan := ⟨0, false⟩

/-- Tries so many offsets from `position` on, up to the first match or the first attempt that
reaches its limit. -/
def tryFrom (search : Search) : (count position : Nat) → Except Error (Option Match) × Scan
  | 0, position => (.ok none, ⟨position, true⟩)
  | count + 1, position =>
    match attempt search.program search.text search.limit false position with
    | .error error => (.error error, ⟨position, true⟩)
    | .ok (some found) => (.ok (some found), ⟨found.resumption, false⟩)
    | .ok none => tryFrom search count (position + 1)

/-- The offset behind the last one to try. -/
def last (search : Search) : Nat :=
  if search.program.anchoredAtBegin then min 1 search.text.size else search.text.size

/-- The next match, if there is one. A scan that has met an error has ended. -/
def next (search : Search) (scan : Scan) : Except Error (Option Match) × Scan :=
  if scan.finished then (.ok none, scan)
  else tryFrom search (last search - scan.position) scan.position

/-- The scan begun again. -/
def reset (scan : Scan) : Scan :=
  { scan with position := 0, finished := false }

/-- The next matches, at most `count` of them. -/
def take (search : Search) : (count : Nat) → Scan → Except Error (List Match)
  | 0, _ => .ok []
  | count + 1, scan =>
    match scan.next search with
    | (.error error, _) => .error error
    | (.ok none, _) => .ok []
    | (.ok (some found), rest) => (take search count rest).map (found :: ·)

end Scan

namespace Search

/-- All matches, or the error that the scan meets. There are no more matches than offsets to
try. -/
def findAll (search : Search) : Except Error (List Match) :=
  Scan.start.take search (search.text.size + 1)

/-- The first match, if there is one. -/
def findFirst (search : Search) : Except Error (Option Match) :=
  (Scan.start.next search).1

/-- The match of the text as a whole, if there is one. -/
def matchWhole (search : Search) : Except Error (Option Match) :=
  attempt search.program search.text search.limit true 0

end Search

end RegexSearch
