import RegexSearch.Byte

/-!
The lines of an input. A newline ends a line, so one at the very end starts no further line, and
bytes behind the last newline are a line too. A carriage return is part of its line.
-/

namespace RegexSearch

/-- The lines of a byte string, without the newlines that end them. -/
def lines (bytes : Bytes) : List Bytes :=
  gather [] bytes
where
  /-- Collects the line being read in reverse. -/
  gather (line : Bytes) : Bytes → List Bytes
    | [] => if line.isEmpty then [] else [line.reverse]
    | b :: rest =>
      if b.toChar == '\n' then line.reverse :: gather [] rest else gather (b :: line) rest

end RegexSearch
