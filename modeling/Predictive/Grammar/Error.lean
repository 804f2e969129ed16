namespace Predictive

/-- What is wrong with the shape of one line or rule. -/
inductive LineFault
  | tooManyArrows
  | emptyLeftSide
  | blankInLeftSide
  | missingLeftSide
deriving DecidableEq

inductive GrammarError
  | line (number : Nat) (fault : LineFault)
  | emptyAlternative (left : String)
  | epsilonInSequence (left : String)
  | reservedToken (left token : String)
  | noStartSymbol
deriving DecidableEq

def LineFault.message : LineFault → String
  | tooManyArrows => "too many \"->\""
  | emptyLeftSide => "empty left side"
  | blankInLeftSide => "left side contains whitespace"
  | missingLeftSide => "cannot find left side"

def GrammarError.message : GrammarError → String
  | line number fault => "Line " ++ toString number ++ ": " ++ fault.message
  | emptyAlternative left => left ++ ": empty alternative, write ε instead"
  | epsilonInSequence left => left ++ ": ε must be the only symbol of an alternative"
  | reservedToken left token => left ++ ": \"" ++ token ++ "\" is reserved"
  | noStartSymbol => "grammar has no start symbol"

end Predictive
