/-
  PropertyGraph.Yaml.Text

  Texts in YAML: words without quotes, texts in quotes of either kind, and blocks of
  lines.  A text over several lines is folded: one line end between two lines is a
  space, of several the first one is dropped.  In a block of lines the writer chooses
  whether lines are folded and what becomes of the line ends at its end.
-/
import PropertyGraph.Json.Token
import PropertyGraph.Yaml.Place

namespace PropertyGraph.Yaml

/-! ## Folding -/

/-- What lies between two words of one text. -/
inductive Gap where
  | nothing
  /-- blanks on one line, in reverse -/
  | blanks (cs : List Char)
  /-- line ends, in reverse; `folds` tells whether the first of them is a space when it is
      the only one -/
  | breaks (cs : List Char) (folds : Bool)

namespace Gap

/-- A further blank; blanks beside line ends do not count. -/
def addBlank (c : Char) : Gap → Gap
  | nothing => blanks [c]
  | blanks cs => blanks (c :: cs)
  | breaks cs folds => breaks cs folds

/-- A further line end. -/
def addBreak (c : Char) : Gap → Gap
  | breaks cs folds => breaks (c :: cs) folds
  | _ => breaks [c] true

/-- Whether the gap goes over the end of a line. -/
def isBroken : Gap → Bool
  | breaks _ _ => true
  | _ => false

/-- The characters that stand for the gap, in reverse. -/
def fold : Gap → List Char
  | nothing => []
  | blanks cs => cs
  | breaks cs false => cs
  | breaks cs true =>
    match cs.getLast? with
    | some '\n' => if cs.length = 1 then [' '] else cs.dropLast
    | _ => cs

end Gap

/-! ## Words -/

/-- The signs that bracket and divide collections on one line. -/
def isFlowSign (c : Char) : Bool :=
  c == ',' || c == '[' || c == ']' || c == '\x7b' || c == '\x7d'

/-- Whether a word may begin here. -/
def beginsWord (flow : Bool) : Rest → Bool
  | [] => false
  | s :: rest =>
    if s.char = '-' then !(rest.head?.any fun t => isBlank t.char)
    else if s.char = '?' || s.char = ':' then !flow && !atGap rest
    else !(isBlank s.char || isBreak s.char || isFlowSign s.char
      || "#&*!|>'\"%@\x60".toList.contains s.char)

/-- Reads words without quotes.  In a block they go on over lines that are indented to
    `floor`; without `floor` they stand in a collection between brackets, where its signs
    end them. -/
def readWords (floor : Option Nat) (done : List Char) (gap : Gap) :
    Rest → Option (List Char × Rest)
  | [] => some (done.reverse, [])
  | s :: rest =>
    let c := s.char
    if isBreak c then readWords floor done (gap.addBreak c) rest
    else if isBlank c then
      if c = '\t' && gap.isBroken && floor.any (fun n => s.column < n) then none
      else readWords floor done (gap.addBlank c) rest
    else
      let starts := match gap with
        | .nothing => false
        | _ => true
      if gap.isBroken && floor.any (fun n => s.column < n) then some (done.reverse, s :: rest)
      else if starts && (c = '#' || atMarker (s :: rest)) then some (done.reverse, s :: rest)
      else if c = ':' && atGap rest then some (done.reverse, s :: rest)
      else if floor.isNone && c = ':' && (rest.head?.any fun t => isFlowSign t.char || t.char = '?')
      then none
      else if floor.isNone && isFlowSign c then some (done.reverse, s :: rest)
      else readWords floor (c :: (gap.fold ++ done)) .nothing rest

/-! ## Texts in quotes -/

/-- Reads a text between apostrophes from after the first; two apostrophes stand for one. -/
def readSingle (done : List Char) (gap : Gap) : Rest → Option (List Char × Rest)
  | [] => none
  | s :: rest =>
    let c := s.char
    if atMarker (s :: rest) then none
    else if isBreak c then readSingle done (gap.addBreak c) rest
    else if isBlank c then readSingle done (gap.addBlank c) rest
    else if c = '\x27' then
      match rest with
      | t :: more =>
        if t.char = '\x27' then readSingle ('\x27' :: (gap.fold ++ done)) .nothing more
        else some ((gap.fold ++ done).reverse, t :: more)
      | [] => some ((gap.fold ++ done).reverse, [])
    else readSingle (c :: (gap.fold ++ done)) .nothing rest

/-- What a text between quotes is in the middle of. -/
inductive QuoteMode where
  | text
  /-- after a backslash -/
  | escape
  /-- in the number of a character, some digits being still to come -/
  | number (left value : Nat)

/-- The character that a letter after a backslash stands for. -/
def escaped? : Char → Option Char
  | '0' => some '\x00'
  | 'a' => some '\x07'
  | 'b' => some '\x08'
  | 't' | '\t' => some '\t'
  | 'n' => some '\n'
  | 'v' => some '\x0b'
  | 'f' => some '\x0c'
  | 'r' => some '\r'
  | 'e' => some '\x1b'
  | ' ' => some ' '
  | '"' => some '"'
  | '/' => some '/'
  | '\\' => some '\\'
  | 'N' => some '\u0085'
  | '_' => some '\u00a0'
  | 'L' => some '\u2028'
  | 'P' => some '\u2029'
  | _ => none

/-- How many digits the number of a character has after a letter. -/
def numberLength? : Char → Option Nat
  | 'x' => some 2
  | 'u' => some 4
  | 'U' => some 8
  | _ => none

/-- Reads a text between quotes from after the first. -/
def readDouble (mode : QuoteMode) (done : List Char) (gap : Gap) :
    Rest → Option (List Char × Rest)
  | [] => none
  | s :: rest =>
    let c := s.char
    match mode with
    | .text =>
      if atMarker (s :: rest) then none
      else if isBreak c then readDouble .text done (gap.addBreak c) rest
      else if isBlank c then readDouble .text done (gap.addBlank c) rest
      else if c = '"' then some ((gap.fold ++ done).reverse, rest)
      else if c = '\\' then readDouble .escape (gap.fold ++ done) .nothing rest
      else readDouble .text (c :: (gap.fold ++ done)) .nothing rest
    | .escape =>
      if isBreak c then readDouble .text done (.breaks [] false) rest
      else match escaped? c, numberLength? c with
        | some e, _ => readDouble .text (e :: done) .nothing rest
        | none, some left => readDouble (.number left 0) done .nothing rest
        | none, none => none
    | .number left value =>
      match Json.hexValue? c with
      | none => none
      | some d =>
        let value := value * 16 + d
        if left ≤ 1 then
          if h : value.isValidChar then
            readDouble .text (Char.ofNatAux value h :: done) .nothing rest
          else none
        else readDouble (.number (left - 1) value) done .nothing rest

/-! ## Blocks of lines -/

/-- What becomes of the line ends at the end of a block. -/
inductive Chomp where
  | strip
  | clip
  | keep
deriving DecidableEq

/-- The choices at the head of a block. -/
structure BlockHead where
  folds : Bool
  chomp : Chomp
  /-- how much further than its surroundings the block is indented, if that is said -/
  indent : Option Nat

/-- Reads the choices after the sign that opens a block, each given once at most. -/
def readHead (head : BlockHead) (chompSeen : Bool) : Rest → BlockHead × Rest
  | [] => (head, [])
  | s :: rest =>
    let c := s.char
    if !chompSeen && c = '+' then readHead { head with chomp := .keep } true rest
    else if !chompSeen && c = '-' then readHead { head with chomp := .strip } true rest
    else if head.indent.isNone && '1' ≤ c && c ≤ '9' then
      readHead { head with indent := some (c.toNat - 48) } chompSeen rest
    else (head, s :: rest)

/-- Skips what may follow the choices on their line. -/
def endHead (rest : Rest) : Option Rest :=
  let rest := skipBlanks rest
  let rest := if rest.head?.any (fun s => s.char = '#')
    then rest.dropWhile (fun s => !isBreak s.char) else rest
  match rest with
  | [] => some []
  | s :: more => if isBreak s.char then some more else none

/-- Skips lines that hold nothing but indentation.  Gives their line ends, in reverse, and
    the widest indentation met; a tab within the indentation is a fault. -/
def skipMargin (indent : Option Nat) (ends : List Char) (widest : Nat) :
    Rest → Option (List Char × Nat × Rest)
  | [] => some (ends, widest, [])
  | s :: rest =>
    let inside := indent.all fun n => s.column < n
    if isBreak s.char then skipMargin indent (s.char :: ends) (max widest s.column) rest
    else if inside && s.char = ' ' then skipMargin indent ends (max widest (s.column + 1)) rest
    else if inside && s.char = '\t' then none
    else some (ends, max widest s.column, s :: rest)

/-- The lines of a block that have been read. -/
structure BlockText where
  /-- the characters, in reverse -/
  done : List Char
  /-- the end of the last line -/
  last : List Char
  /-- the ends of the empty lines after it, in reverse -/
  empty : List Char
  /-- whether the last line began with a blank -/
  blank : Bool

/-- The characters once a further line follows that begins with a blank or not. -/
def BlockText.joined (b : BlockText) (folds blank : Bool) : List Char :=
  if folds && b.last = ['\n'] && !b.blank && !blank then
    if b.empty.isEmpty then ' ' :: b.done else b.empty ++ b.done
  else b.empty ++ b.last ++ b.done

/-- The characters once no further line follows. -/
def BlockText.chomped (b : BlockText) : Chomp → List Char
  | .strip => b.done
  | .clip => b.last ++ b.done
  | .keep => b.empty ++ b.last ++ b.done

/-- Reads the lines of a block, which stand at a given indentation; `fuel` bounds their
    number. -/
def readLines (head : BlockHead) (indent : Nat) :
    (fuel : Nat) → BlockText → Rest → Option (List Char × Rest)
  | 0, b, rest => some ((b.chomped head.chomp).reverse, rest)
  | _ + 1, b, [] => some ((b.chomped head.chomp).reverse, [])
  | fuel + 1, b, s :: rest =>
    if s.column ≠ indent then some ((b.chomped head.chomp).reverse, s :: rest)
    else do
      let blank := isBlank s.char
      let line := ((s :: rest).takeWhile fun t => !isBreak t.char).map Sign.char
      let tail := (s :: rest).dropWhile fun t => !isBreak t.char
      let last := (tail.take 1).map Sign.char
      let (empty, _, more) ← skipMargin (some indent) [] 0 (tail.drop 1)
      readLines head indent fuel
        ⟨line.reverse ++ b.joined head.folds blank, last, empty, blank⟩ more

/-- Reads a block of lines from after the sign that opens it, in surroundings whose content
    is indented to `floor`. -/
def readBlock (folds : Bool) (floor : Nat) (rest : Rest) : Option (List Char × Rest) := do
  let (head, rest) := readHead ⟨folds, .clip, none⟩ false rest
  let rest ← endHead rest
  let known := head.indent.map fun n => (floor - 1) + n
  let (empty, widest, rest) ← skipMargin known [] 0 rest
  let indent := known.getD (max widest (max floor 1))
  readLines head indent (rest.length + 1) ⟨[], [], empty, false⟩ rest

end PropertyGraph.Yaml
