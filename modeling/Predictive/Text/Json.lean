namespace Predictive

/-- Documents without numbers; the fields of an object keep their order. -/
inductive Json
  | null
  | bool (value : Bool)
  | string (value : String)
  | array (items : List Json)
  | object (fields : List (String × Json))

namespace Json

def hexDigits (n : Nat) : List Char := [Nat.digitChar (n / 16), Nat.digitChar (n % 16)]

def escapeChar (c : Char) : List Char :=
  match c with
  | '"' => ['\\', '"']
  | '\\' => ['\\', '\\']
  | '\x08' => ['\\', 'b']
  | '\t' => ['\\', 't']
  | '\n' => ['\\', 'n']
  | '\x0c' => ['\\', 'f']
  | '\r' => ['\\', 'r']
  | c => if c.toNat < 0x20 then '\\' :: 'u' :: '0' :: '0' :: hexDigits c.toNat else [c]

def quoted (s : String) : List Char := '"' :: s.toList.flatMap escapeChar ++ ['"']

def separated : List (List Char) → List Char
  | [] => []
  | [item] => item
  | item :: rest => item ++ ',' :: separated rest

mutual

/-- The text of a document, without blanks between its parts. -/
def chars : Json → List Char
  | null => "null".toList
  | bool true => "true".toList
  | bool false => "false".toList
  | string s => quoted s
  | array items => '[' :: separated (itemChars items) ++ [']']
  | object fields => '\x7b' :: separated (fieldsChars fields) ++ ['\x7d']

def itemChars : List Json → List (List Char)
  | [] => []
  | item :: rest => chars item :: itemChars rest

def fieldsChars : List (String × Json) → List (List Char)
  | [] => []
  | field :: rest => fieldChars field :: fieldsChars rest

def fieldChars : String × Json → List Char
  | (key, value) => quoted key ++ ':' :: chars value

end

def render (j : Json) : String := .ofList j.chars

def strings (l : List String) : Json := .array (l.map .string)

def ofOption : Option String → Json
  | none => .null
  | some s => .string s

end Json

end Predictive
