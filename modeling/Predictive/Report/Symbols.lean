import Predictive.Symbol
import Predictive.Text.Latex

namespace Predictive.Latex

/-- The name of a symbol; the empty word has a letter of its own. -/
def symbol (name : String) : String :=
  if name = Symbol.epsilonName then "\\epsilon" else escape name

/-- The symbols of a right side, one space apart in the plain text. -/
def sequence (text : String) : String := spaced ((pieces text).map symbol)

end Predictive.Latex
