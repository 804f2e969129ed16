import Predictive.Grammar.Rules

namespace Predictive

inductive Line
  | blank
  | rule (left : String) (alternatives : List (List String))
  | continuation (alternatives : List (List String))

namespace Line

def readAlternatives (cs : List Char) : List (List String) := (cs.splitOn '|').map words

def read (cs : List Char) : Except LineFault Line :=
  if cs.all isBlank then .ok .blank
  else
    match splitArrows cs with
    | [_] =>
      match cs.dropWhile isBlank with
      | '|' :: rest => .ok (.continuation (readAlternatives rest))
      | _ => .error .missingLeftSide
    | [left, right] =>
      match Rule.readLeft left with
      | .error fault => .error fault
      | .ok name => .ok (.rule name (readAlternatives right))
    | _ => .error .tooManyArrows

end Line

namespace Rule

/-- The rules of lines that are counted from `number`; a continuation belongs to the left side
above it, `previous`. -/
def ofLines (previous : Option String) (number : Nat) :
    List (List Char) → Except GrammarError (List Rule)
  | [] => .ok []
  | cs :: rest =>
    match Line.read cs, previous with
    | .error fault, _ => .error (.line number fault)
    | .ok .blank, _ => ofLines previous (number + 1) rest
    | .ok (.rule left alternatives), _ =>
      (ofLines (some left) (number + 1) rest).map (⟨left, alternatives⟩ :: ·)
    | .ok (.continuation _), none => .error (.line number .missingLeftSide)
    | .ok (.continuation alternatives), some left =>
      (ofLines previous (number + 1) rest).map (⟨left, alternatives⟩ :: ·)

def ofText (text : String) : Except GrammarError (List Rule) := ofLines none 1 (lines text.toList)

end Rule

/-- Reads lines such as `S -> A b | ε`, which lines that begin with `|` continue. -/
def Grammar.ofText (text : String) : Except GrammarError Grammar :=
  Rule.ofText text >>= Grammar.ofRules

end Predictive
