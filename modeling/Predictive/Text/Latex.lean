namespace Predictive.Latex

def escapeChar : Char → List Char
  | '&' => "\\&".toList
  | '%' => "\\%".toList
  | '$' => "\\$".toList
  | '#' => "\\#".toList
  | '_' => "\\_".toList
  | '\x7b' => ['\\', '\x7b']
  | '\x7d' => ['\\', '\x7d']
  | '[' => ['\x7b', '[', '\x7d']
  | ']' => ['\x7b', ']', '\x7d']
  | '~' => "\\textasciitilde\x7b\x7d".toList
  | '^' => "\\textasciicircum\x7b\x7d".toList
  | '<' => "\\textless\x7b\x7d".toList
  | '>' => "\\textgreater\x7b\x7d".toList
  | '!' => "!\x7b\x7d".toList
  | '\\' => "\\textbackslash\x7b\x7d".toList
  | c => [c]

/-- A hyphen before a hyphen is closed, for a run of them would be set as a dash. -/
def escapeChars : List Char → List Char
  | [] => []
  | c :: cs =>
    (if c = '-' ∧ cs.head? = some '-' then "-\x7b\x7d".toList else escapeChar c) ++ escapeChars cs

def escape (s : String) : String := .ofList (escapeChars s.toList)

def braced (s : String) : String := "\x7b" ++ s ++ "\x7d"

/-- The pieces between single spaces. -/
def pieces (s : String) : List String := (s.toList.splitOn ' ').map .ofList

def spaced (parts : List String) : String := " \\ ".intercalate parts

def columns (cells : List String) : String := " & ".intercalate cells

def rows (lines : List String) : String := "\\\\\n".intercalate lines

end Predictive.Latex
