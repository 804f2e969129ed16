import Predictive.Text.Blank

namespace Predictive

/-- The longest runs of characters that are not blank, in order. -/
def words (cs : List Char) : List String :=
  ((cs.splitOnP isBlank).filter fun w => !w.isEmpty).map String.ofList

/-- A carriage return before the line feed stays on the line, where it is a blank. -/
def lines (cs : List Char) : List (List Char) := cs.splitOn '\n'

/-- The pieces between the arrows `->`, searched from the left. -/
def splitArrows : List Char → List (List Char)
  | [] => [[]]
  | '-' :: '>' :: cs => [] :: splitArrows cs
  | c :: cs => (splitArrows cs).modifyHead (c :: ·)

end Predictive
