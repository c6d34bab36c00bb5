import BurnDragon.Rust.Text

/-!
# Lines, words and parts of a text

The functions of `str` that take a text apart: its lines and words, what comes before and after a
separator, and the text without repeated suffixes.
-/

namespace BurnDragon.Rust

/-- A line without the carriage return before its line feed. -/
def stripCarriageReturn (line : List Char) : List Char :=
  if line.getLast? = some '\r' then line.dropLast else line

/-- `str::lines`: a carriage return at the end of a line that has no line feed stays. -/
def lines (s : List Char) : List (List Char) :=
  let parts := s.splitOn '\n'
  let last := parts.getLastD []
  parts.dropLast.map stripCarriageReturn ++ if last = [] then [] else [last]

/-- `str::split_whitespace`. -/
def splitWhitespace (s : List Char) : List (List Char) :=
  (s.splitOnP isWhitespace).filter (· ≠ [])

/-- `str::split_once` at a character. -/
def splitOnce (sep : Char) (s : List Char) : Option (List Char × List Char) :=
  if sep ∈ s then some (s.takeWhile (· ≠ sep), (s.dropWhile (· ≠ sep)).tail) else none

/-- Strip a prefix as often as the fuel allows. -/
def stripPrefixes (p : List Char) : ℕ → List Char → List Char
  | 0, s => s
  | fuel + 1, s =>
    match stripPrefix p s with
    | some rest => stripPrefixes p fuel rest
    | none => s

/-- `str::trim_end_matches` of a text that is not empty. -/
def trimEndMatches (p s : List Char) : List Char :=
  (stripPrefixes p.reverse s.length s.reverse).reverse

/-- `str::trim_start`. -/
def trimStart (s : List Char) : List Char := s.dropWhile isWhitespace

example : lines "a\r\nb\n".toList = ["a".toList, "b".toList] := rfl

end BurnDragon.Rust
