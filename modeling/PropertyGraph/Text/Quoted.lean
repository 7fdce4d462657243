/-
  PropertyGraph.Text.Quoted

  Names as they stand in messages: between double quotes, with an escape for the
  quote, the backslash, the common controls, and every character that has no
  visible form or would fuse with the one before it.  All else stands as it is.
-/
import PropertyGraph.Text.CharacterClass

namespace PropertyGraph.Text

/-- Lower-case hexadecimal digits without padding. -/
def hex (n : Nat) : List Char := Nat.toDigits 16 n

/-- One character inside quotes. -/
def quotedChar (c : Char) : List Char :=
  if c = '"' then ['\\', '"']
  else if c = '\\' then ['\\', '\\']
  else if c = '\n' then ['\\', 'n']
  else if c = '\r' then ['\\', 'r']
  else if c = '\t' then ['\\', 't']
  else if c = '\x00' then ['\\', '0']
  else if isExtender c || !isPrintable c then
    ['\\', 'u', '\x7b'] ++ hex c.toNat ++ ['\x7d']
  else [c]

/-- A text between quotes. -/
def quoted (s : String) : String :=
  String.ofList ('"' :: s.toList.flatMap quotedChar ++ ['"'])

/-- A path between quotes, where the apostrophe is escaped as well. -/
def quotedPath (s : String) : String :=
  let char (c : Char) := if c = '\x27' then ['\\', '\x27'] else quotedChar c
  String.ofList ('"' :: s.toList.flatMap char ++ ['"'])

end PropertyGraph.Text
