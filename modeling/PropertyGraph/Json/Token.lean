/-
  PropertyGraph.Json.Token

  The tokens of JSON text.  The scanner takes one character at a time and keeps in
  its mode what it has of the token at hand, so that it recurses on the text alone.
  The first character that no token admits ends the stream with `bad`.  A number that
  is too large and a string with half of a surrogate pair are tokens all the same:
  they stand for no value, but may occur where a value is skipped.
-/
import PropertyGraph.Decimal.Scaled
import PropertyGraph.Json.Basic

namespace PropertyGraph.Json

open Decimal (Scaled)

/-- A token.  `number none` and `string none` are well written but have no value. -/
inductive Token where
  | openArray
  | closeArray
  | openObject
  | closeObject
  | comma
  | colon
  | null
  | bool (b : Bool)
  | number (n : Option Number)
  | string (s : Option String)
  | bad
deriving DecidableEq, Repr, Inhabited

/-! ## Numbers -/

/-- How far a number has been read. -/
inductive Stage where
  | sign
  | zero
  | whole
  | point
  | fraction
  | mark
  | markSign
  | exponent
deriving DecidableEq, Repr

/-- The parts of a number; the digits stand in reverse. -/
structure Numeral where
  stage : Stage
  negative : Bool
  whole : List Nat
  fraction : List Nat
  exponentNegative : Bool
  exponent : Nat
deriving Repr

/-- The value of a decimal digit. -/
def digit? (c : Char) : Option Nat := if c.isDigit then some (c.toNat - 48) else none

namespace Numeral

/-- A number of which only its first character has been read. -/
def start (stage : Stage) (negative : Bool) (whole : List Nat) : Numeral :=
  { stage, negative, whole, fraction := [], exponentNegative := false, exponent := 0 }

/-- Takes in one more character, if the number can go on with it. -/
def step? (n : Numeral) (c : Char) : Option Numeral :=
  match n.stage, digit? c with
  | .sign, some 0 => some { n with stage := .zero, whole := [0] }
  | .sign, some d => some { n with stage := .whole, whole := [d] }
  | .whole, some d => some { n with whole := d :: n.whole }
  | .point, some d => some { n with stage := .fraction, fraction := [d] }
  | .fraction, some d => some { n with fraction := d :: n.fraction }
  | .mark, some d => some { n with stage := .exponent, exponent := d }
  | .markSign, some d => some { n with stage := .exponent, exponent := d }
  | .exponent, some d => some { n with exponent := n.exponent * 10 + d }
  | stage, none =>
    if c = '.' ∧ (stage = .zero ∨ stage = .whole) then some { n with stage := .point }
    else if (c = 'e' ∨ c = 'E') ∧ (stage = .zero ∨ stage = .whole ∨ stage = .fraction) then
      some { n with stage := .mark }
    else if (c = '+' ∨ c = '-') ∧ stage = .mark then
      some { n with stage := .markSign, exponentNegative := c = '-' }
    else none
  | .zero, some _ => none

/-- Whether a number may end here, before a character that is not part of it: a zero
    must not be followed by a digit. -/
def mayEndBefore (n : Numeral) (next : Option Char) : Bool :=
  match n.stage with
  | .zero => !(next.any Char.isDigit)
  | .whole | .fraction | .exponent => true
  | _ => false

/-- Whether the number has a fraction or an exponent. -/
def isDecimal (n : Numeral) : Bool :=
  match n.stage with
  | .zero | .whole => false
  | _ => true

/-- The value: an integer if it is written as one, fits and is not a negative zero; else
    the double, if it is finite. -/
def value? (n : Numeral) : Option Number :=
  let digits := n.whole.reverse
  let magnitude : Nat := digits.foldl (fun acc d => acc * 10 + d) 0
  let i : Int := if n.negative then -(magnitude : Int) else magnitude
  if !n.isDecimal && Number.fits i && !(n.negative && magnitude == 0) then some (.integer i)
  else
    let exponent : Int := if n.exponentNegative then -(n.exponent : Int) else n.exponent
    ((Scaled.ofDigits digits n.fraction.reverse exponent).toDouble? n.negative).map .float

end Numeral

/-! ## Strings -/

/-- The part of a string that has been read, in reverse; `half` is a leading surrogate that
    waits for its partner, and `sound` tells that no other surrogate stood alone. -/
structure Partial where
  chars : List Char
  half : Option Nat
  sound : Bool
deriving Repr

namespace Partial

/-- Nothing read yet. -/
def empty : Partial := ⟨[], none, true⟩

/-- Appends a character that was not written as a code unit. -/
def push (p : Partial) (c : Char) : Partial := ⟨c :: p.chars, none, p.sound && p.half.isNone⟩

/-- Appends a code unit: a character, or half of one. -/
def pushUnit (p : Partial) (unit : Nat) : Partial :=
  if 0xd800 ≤ unit ∧ unit ≤ 0xdbff then ⟨p.chars, some unit, p.sound && p.half.isNone⟩
  else if 0xdc00 ≤ unit ∧ unit ≤ 0xdfff then
    match p.half with
    | some high =>
      ⟨Char.ofNat (0x10000 + (high - 0xd800) * 0x400 + (unit - 0xdc00)) :: p.chars, none, p.sound⟩
    | none => ⟨p.chars, none, false⟩
  else p.push (Char.ofNat unit)

/-- The string read, unless some surrogate stands alone. -/
def value? (p : Partial) : Option String :=
  if p.sound && p.half.isNone then some (String.ofList p.chars.reverse) else none

end Partial

/-- The character that a one-letter escape stands for. -/
def unescape? (c : Char) : Option Char :=
  match c with
  | '"' => some '"'
  | '\\' => some '\\'
  | '/' => some '/'
  | 'b' => some '\x08'
  | 'f' => some '\x0c'
  | 'n' => some '\n'
  | 'r' => some '\r'
  | 't' => some '\t'
  | _ => none

/-- The value of a hexadecimal digit of either case. -/
def hexValue? (c : Char) : Option Nat :=
  if '0' ≤ c ∧ c ≤ '9' then some (c.toNat - 48)
  else if 'a' ≤ c ∧ c ≤ 'f' then some (c.toNat - 87)
  else if 'A' ≤ c ∧ c ≤ 'F' then some (c.toNat - 55)
  else none

/-! ## The scanner -/

/-- What the scanner is in the middle of. -/
inductive Mode where
  /-- between tokens -/
  | between
  /-- in a word, with the letters still to come and the token it is -/
  | word (letters : List Char) (token : Token)
  /-- in a number -/
  | number (n : Numeral)
  /-- in a string -/
  | text (p : Partial)
  /-- in a string, after a backslash -/
  | escape (p : Partial)
  /-- in a string, in a code unit of which some digits are still to come -/
  | unit (p : Partial) (left : Nat) (value : Nat)
  /-- after a character that no token admits -/
  | stuck

/-- Whether a character may stand between tokens. -/
def isSpace (c : Char) : Bool := c = ' ' || c = '\t' || c = '\n' || c = '\r'

/-- The tokens that a character between tokens completes, and the mode after it. -/
def begin (c : Char) : List Token × Mode :=
  if isSpace c then ([], .between)
  else if c = '[' then ([.openArray], .between)
  else if c = ']' then ([.closeArray], .between)
  else if c = '\x7b' then ([.openObject], .between)
  else if c = '\x7d' then ([.closeObject], .between)
  else if c = ',' then ([.comma], .between)
  else if c = ':' then ([.colon], .between)
  else if c = '"' then ([], .text .empty)
  else if c = 'n' then ([], .word ['u', 'l', 'l'] .null)
  else if c = 't' then ([], .word ['r', 'u', 'e'] (.bool true))
  else if c = 'f' then ([], .word ['a', 'l', 's', 'e'] (.bool false))
  else if c = '-' then ([], .number (.start .sign true []))
  else match digit? c with
    | some 0 => ([], .number (.start .zero false [0]))
    | some d => ([], .number (.start .whole false [d]))
    | none => ([.bad], .stuck)

/-- One step of the scanner: the tokens that the character completes, and the next mode. -/
def step (mode : Mode) (c : Char) : List Token × Mode :=
  match mode with
  | .between => begin c
  | .word [] token => let (ts, m) := begin c; (token :: ts, m)
  | .word [l] token => if c = l then ([token], .between) else ([.bad], .stuck)
  | .word (l :: ls) token => if c = l then ([], .word ls token) else ([.bad], .stuck)
  | .number n =>
    match n.step? c with
    | some n => ([], .number n)
    | none =>
      if n.mayEndBefore (some c) then let (ts, m) := begin c; (.number n.value? :: ts, m)
      else ([.bad], .stuck)
  | .text p =>
    if c = '"' then ([.string p.value?], .between)
    else if c = '\\' then ([], .escape p)
    else if c.toNat < 0x20 then ([.bad], .stuck)
    else ([], .text (p.push c))
  | .escape p =>
    if c = 'u' then ([], .unit p 4 0)
    else match unescape? c with
      | some e => ([], .text (p.push e))
      | none => ([.bad], .stuck)
  | .unit p left value =>
    match hexValue? c with
    | some d =>
      if left ≤ 1 then ([], .text (p.pushUnit (value * 16 + d)))
      else ([], .unit p (left - 1) (value * 16 + d))
    | none => ([.bad], .stuck)
  | .stuck => ([], .stuck)

/-- The tokens that the end of the text completes. -/
def atEnd (mode : Mode) : List Token :=
  match mode with
  | .between | .stuck => []
  | .word [] token => [token]
  | .number n => if n.mayEndBefore none then [.number n.value?] else [.bad]
  | _ => [.bad]

/-- The tokens of a text, the scanner being in a given mode. -/
def scan (mode : Mode) : List Char → List Token
  | [] => atEnd mode
  | c :: rest => let (tokens, next) := step mode c; tokens ++ scan next rest

/-- The tokens of a text. -/
def tokens (s : String) : List Token := scan .between s.toList

end PropertyGraph.Json
