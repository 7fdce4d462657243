/-
  PropertyGraph.Yaml.Place

  YAML text with places: every character knows its line and column, since in YAML the
  column of a character decides what it belongs to.  Line ends of every form become one
  character.  Here is also what may be skipped between two things: blanks, line ends and
  comments.
-/

namespace PropertyGraph.Yaml

/-- A character and where it stands, both counted from zero. -/
structure Sign where
  char : Char
  line : Nat
  column : Nat
deriving DecidableEq, Repr

/-- What is left of a text. -/
abbrev Rest := List Sign

/-! ## Characters -/

/-- A line end.  All but two of the characters for it have become one before. -/
def isBreak (c : Char) : Bool := c == '\n' || c == '\u2028' || c == '\u2029'

/-- A blank. -/
def isBlank (c : Char) : Bool := c == ' ' || c == '\t'

/-- Whether a character may stand in a text at all. -/
def isAllowed (c : Char) : Bool :=
  let n := c.toNat
  n == 0x9 || n == 0xa || n == 0xd || (0x20 ≤ n && n ≤ 0x7e) || n == 0x85
    || (0xa0 ≤ n && n ≤ 0xfffd && n != 0xfeff) || 0x10000 ≤ n

/-- Gives the characters of a text their places. -/
def place (line column : Nat) : List Char → Rest
  | [] => []
  | '\r' :: '\n' :: rest => ⟨'\n', line, column⟩ :: place (line + 1) 0 rest
  | c :: rest =>
    let c := if c = '\r' || c = '\u0085' then '\n' else c
    ⟨c, line, column⟩ ::
      (if isBreak c then place (line + 1) 0 rest else place line (column + 1) rest)

/-! ## Looking ahead -/

/-- Whether a word cannot go on: a blank, a line end or the end of the text. -/
def atGap : Rest → Bool
  | [] => true
  | s :: _ => isBlank s.char || isBreak s.char

/-- Whether a given sign stands alone here: a blank or the like follows it. -/
def atIndicator (c : Char) : Rest → Bool
  | s :: rest => s.char == c && atGap rest
  | [] => false

/-- Whether a line of three given signs stands here, which divides documents. -/
def atTriple (c : Char) : Rest → Bool
  | s :: t :: u :: rest =>
    s.column == 0 && s.char == c && t.char == c && u.char == c && atGap rest
  | _ => false

/-- Whether a document begins or ends here. -/
def atMarker (rest : Rest) : Bool := atTriple '-' rest || atTriple '.' rest

/-- Whether the text is at its end, or a document begins or ends here. -/
def atEnd (rest : Rest) : Bool := rest.isEmpty || atMarker rest

/-! ## Skipping -/

/-- Skips blanks. -/
def skipBlanks (rest : Rest) : Rest := rest.dropWhile fun s => isBlank s.char

/-- Skips blanks, line ends and comments.  `tabs` tells whether tabs count as blanks on this
    line, `flow` whether they do on the lines after it. -/
def skip (flow : Bool) : (tabs comment : Bool) → Rest → Rest
  | _, _, [] => []
  | tabs, comment, s :: rest =>
    if isBreak s.char then skip flow flow false rest
    else if comment || s.char = '#' then skip flow tabs true rest
    else if s.char = ' ' || (tabs && s.char = '\t') then skip flow tabs false rest
    else s :: rest

end PropertyGraph.Yaml
