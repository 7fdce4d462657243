/-
  PropertyGraph.Json.Printer

  The text of a JSON value, in two forms: compact, without any blank, and spread over
  lines with two spaces for each level.  Strings escape the quote, the backslash and
  the controls below the space; all other characters stand as they are.
-/
import PropertyGraph.Decimal.Shortest
import PropertyGraph.Json.Basic

namespace PropertyGraph

/-- A number as text: an integer in decimal, a double with the fewest digits. -/
def Number.text : Number → String
  | .integer i => toString i
  | .float x => x.text

namespace Json

/-- A hexadecimal digit, in lower case. -/
def hexDigit (n : Nat) : Char := (Nat.digitChar n)

/-- One character inside a string. -/
def escapeChar (c : Char) : List Char :=
  if c = '"' then ['\\', '"']
  else if c = '\\' then ['\\', '\\']
  else if c = '\x08' then ['\\', 'b']
  else if c = '\x0c' then ['\\', 'f']
  else if c = '\n' then ['\\', 'n']
  else if c = '\r' then ['\\', 'r']
  else if c = '\t' then ['\\', 't']
  else if c.toNat < 0x20 then
    ['\\', 'u', '0', '0', hexDigit (c.toNat / 16), hexDigit (c.toNat % 16)]
  else [c]

/-- A string between quotes. -/
def stringChars (s : String) : List Char := '"' :: s.toList.flatMap escapeChar ++ ['"']

/-! ## Compact text -/

mutual

/-- The compact text, as characters. -/
def chars : Json → List Char
  | .null => "null".toList
  | .bool true => "true".toList
  | .bool false => "false".toList
  | .number n => n.text.toList
  | .string s => stringChars s
  | .array items => '[' :: itemsChars items ++ [']']
  | .object entries => '\x7b' :: entriesChars entries ++ ['\x7d']

/-- The items of an array with commas between them. -/
def itemsChars : List Json → List Char
  | [] => []
  | [v] => chars v
  | v :: rest => chars v ++ ',' :: itemsChars rest

/-- The entries of an object with commas between them. -/
def entriesChars : List (String × Json) → List Char
  | [] => []
  | [(k, v)] => stringChars k ++ ':' :: chars v
  | (k, v) :: rest => stringChars k ++ ':' :: chars v ++ ',' :: entriesChars rest

end

/-- The compact text. -/
def text (v : Json) : String := String.ofList v.chars

/-- The text of an absent value, which is the text of no value. -/
def absentText : String := "undefined"

/-- The canonical text of a value or of its absence; properties are compared by it. -/
def canonical : Option Json → String
  | some v => v.text
  | none => absentText

/-! ## Text over several lines -/

/-- A new line, indented to a level. -/
def newline (level : Nat) : List Char := '\n' :: List.replicate (2 * level) ' '

mutual

/-- The text over several lines, as characters, the value standing at a level. -/
def prettyChars (level : Nat) : Json → List Char
  | .array [] => "[]".toList
  | .array (v :: rest) =>
    '[' :: newline (level + 1) ++ prettyItems (level + 1) (v :: rest) ++ newline level ++ [']']
  | .object [] => ['\x7b', '\x7d']
  | .object (e :: rest) =>
    '\x7b' :: newline (level + 1) ++ prettyEntries (level + 1) (e :: rest)
      ++ newline level ++ ['\x7d']
  | .null => "null".toList
  | .bool true => "true".toList
  | .bool false => "false".toList
  | .number n => n.text.toList
  | .string s => stringChars s

/-- The items of an array, each on a line of its own. -/
def prettyItems (level : Nat) : List Json → List Char
  | [] => []
  | [v] => prettyChars level v
  | v :: rest => prettyChars level v ++ ',' :: newline level ++ prettyItems level rest

/-- The entries of an object, each on a line of its own. -/
def prettyEntries (level : Nat) : List (String × Json) → List Char
  | [] => []
  | [(k, v)] => stringChars k ++ ':' :: ' ' :: prettyChars level v
  | (k, v) :: rest =>
    stringChars k ++ ':' :: ' ' :: prettyChars level v ++ ',' :: newline level
      ++ prettyEntries level rest

end

/-- The text over several lines, without a line end. -/
def pretty (v : Json) : String := String.ofList (v.prettyChars 0)

end Json

end PropertyGraph
