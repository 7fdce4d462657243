/-
  PropertyGraph.Yaml.Node

  The structure of a YAML text as a `Json.Tree`.  Collections are written by indentation,
  or between brackets on one line or several.  A text or a collection on one line with a
  colon after it is a key; the column at which the first key of a collection stands is
  that of all its keys, and what belongs to it stands further to the right.  Only the
  items of a list may stand in the column of the key that the list belongs to.

  Words keep both their text and their value, since it depends on the reader of the tree
  which of the two is wanted.  An alias stands for the tree that its anchor was put on.
-/
import PropertyGraph.Json.Syntax
import PropertyGraph.Yaml.Scalar
import PropertyGraph.Yaml.Text

namespace PropertyGraph.Yaml

open Json (Tree)

/-! ## Readers -/

/-- What a reader goes on with: the rest of the text, and the trees under anchors. -/
structure State where
  rest : Rest
  anchors : Entries Tree

/-- A reader of a part of a text, which may not be YAML. -/
abbrev Reader (α : Type) := StateT State Option α

namespace Reader

/-- The rest of the text. -/
def rest : Reader Rest := return (← get).rest

/-- Goes on elsewhere. -/
def goto (rest : Rest) : Reader Unit := modify fun s => { s with rest }

/-- Goes on after the next sign. -/
def pass : Reader Unit := modify fun s => { s with rest := s.rest.drop 1 }

/-- Takes what a scanner gives. -/
def scan {α : Type} (f : Rest → Option (α × Rest)) : Reader α := do
  match f (← rest) with
  | some (a, more) => goto more; return a
  | none => failure

/-- Skips blanks, line ends and comments. -/
def skipAll (flow tabs : Bool) : Reader Unit := do goto (skip flow tabs false (← rest))

end Reader

open Reader

/-! ## Words, anchors and tags -/

/-- The tree of a word without quotes. -/
def wordTree (word : String) : Tree := .plain word (value word)

/-- The tree of nothing at all. -/
def emptyTree : Tree := wordTree ""

/-- A tree as a key. -/
def keyOf : Tree → Option String
  | .plain word _ => some word
  | .string s => s
  | _ => none

/-- What may stand before a node. -/
structure Properties where
  anchor : Option String
  tag : Option String

/-- Whether a character can be part of the name of an anchor. -/
def isAnchorChar (c : Char) : Bool := c.isAlphanum || c == '-' || c == '_'

/-- Reads the name of an anchor. -/
def anchorName : Reader String := do
  let rest ← rest
  let name := rest.takeWhile fun s => isAnchorChar s.char
  let after := rest.dropWhile fun s => isAnchorChar s.char
  let ends := atGap after || after.head?.any fun s => "?:,]\x7d%@\x60".toList.contains s.char
  if name.isEmpty || !ends then failure
  goto after
  return String.ofList (name.map Sign.char)

/-- Reads a tag, which may not use an abbreviation of its own. -/
def tagName : Reader String := do
  let rest ← rest
  let inside (s : Sign) : Bool := !(isBlank s.char || isBreak s.char || isFlowSign s.char)
  let tag := (rest.takeWhile inside).map Sign.char
  match tag.dropWhile (· != '!') with
  | _ :: _ :: _ =>
    if tag.head? ≠ some '!' ∧ tag.head? ≠ some '<' then failure
  | _ => pure ()
  goto (rest.dropWhile inside)
  return String.ofList tag

/-- Reads what stands before a node: an anchor and a tag at most. -/
def properties (flow : Bool) : (fuel : Nat) → Properties → Reader Properties
  | 0, p => return p
  | fuel + 1, p => do
    match ← rest with
    | s :: _ =>
      if s.char = '&' && p.anchor.isNone then
        pass
        let name ← anchorName
        skipAll flow true
        properties flow fuel { p with anchor := some name }
      else if s.char = '!' && p.tag.isNone then
        pass
        let name ← tagName
        skipAll flow true
        properties flow fuel { p with tag := some name }
      else return p
    | [] => return p

/-- The tree under a tag.  A word that is tagged as a text stands for itself; under a tag
    that is not one of the common ones a word has no value. -/
def tagged (tag : Option String) (tree : Tree) : Tree :=
  match tag, tree with
  | some "!str", .plain word _ => .plain word (some (.string word))
  | some tag, .plain word value =>
    if ["", "!int", "!float", "!bool", "!null"].contains tag then .plain word value
    else .plain word none
  | _, tree => tree

/-- Finishes a node: its tag is applied, and its anchor remembered. -/
def finish (p : Properties) (tree : Tree) : Reader Tree := do
  let tree := tagged p.tag tree
  match p.anchor with
  | some name => modify fun s => { s with anchors := s.anchors.insert name tree }
  | none => pure ()
  return tree

/-! ## Keys -/

/-- The longest key that is recognized by the colon after it. -/
def maxKey : Nat := 1024

/-- Whether a colon that makes a key of what began at `start` stands here. -/
def makesKey (flow : Bool) (start : Sign) : Rest → Bool
  | s :: rest =>
    s.char == ':' && (flow || atGap rest) && s.line == start.line
      && s.column ≤ start.column + maxKey
  | [] => false

/-- Whether one of some signs stands here. -/
def atSign (signs : List Char) : Rest → Bool
  | s :: _ => signs.contains s.char
  | [] => false

/-! ## Nodes -/

mutual

/-- Reads an alias, a collection between brackets, or a text on its own.  Without `floor`
    it stands between brackets. -/
def inlineNode (floor : Option Nat) : (fuel : Nat) → Reader Tree
  | 0 => failure
  | fuel + 1 => do
    match ← rest with
    | [] => failure
    | s :: _ =>
      if s.char = '*' then
        pass
        match Entries.get? (← anchorName) (← get).anchors with
        | some tree => return tree
        | none => failure
      else if s.char = '[' then
        pass
        return .array (← flowItems fuel) true
      else if s.char = '\x7b' then
        pass
        return .object (← flowEntries fuel) true
      else if s.char = '\x27' then
        pass
        return .string (some (String.ofList (← scan (readSingle [] .nothing))))
      else if s.char = '"' then
        pass
        return .string (some (String.ofList (← scan (readDouble .text [] .nothing))))
      else if beginsWord floor.isNone (← rest) then
        return wordTree (String.ofList (← scan (readWords floor [] .nothing)))
      else failure

/-- Reads a node between brackets; `ends` are the signs at which it is empty. -/
def flowNode (ends : List Char) : (fuel : Nat) → Reader Tree
  | 0 => failure
  | fuel + 1 => do
    skipAll true true
    if atEnd (← rest) then failure
    if atSign ends (← rest) then return emptyTree
    let p ← properties true 2 ⟨none, none⟩
    if atEnd (← rest) then failure
    if atSign (':' :: ends) (← rest) then finish p emptyTree
    else finish p (← inlineNode none fuel)

/-- Reads what follows a key between brackets, up to one of some signs: a colon and a
    value, or nothing. -/
def flowValue (ends : List Char) : (fuel : Nat) → Reader Tree
  | 0 => failure
  | fuel + 1 => do
    skipAll true true
    if atSign [':'] (← rest) then
      pass
      flowNode ends fuel
    else return emptyTree

/-- Reads the items of a list up to its closing bracket. -/
def flowItems : (fuel : Nat) → Reader (List Tree)
  | 0 => failure
  | fuel + 1 => do
    skipAll true true
    match ← rest with
    | [] => failure
    | s :: _ =>
      if s.char = ']' then pass; return []
      else
        let item ← (do
          if s.char = '?' then
            pass
            let key ← flowNode [':', ',', ']'] fuel
            return .object [(keyOf key, ← flowValue [',', ']'] fuel)] true
          else if s.char = ',' || s.char = ':' then failure
          else
            let key ← flowNode [] fuel
            skipAll true true
            if makesKey true s (← rest) then
              return .object [(keyOf key, ← flowValue [',', ']'] fuel)] true
            else return key)
        flowNext ']' fuel
        return item :: (← flowItems fuel)

/-- Reads the entries of a collection up to its closing bracket. -/
def flowEntries : (fuel : Nat) → Reader (List (Option String × Tree))
  | 0 => failure
  | fuel + 1 => do
    skipAll true true
    match ← rest with
    | [] => failure
    | s :: _ =>
      if s.char = '\x7d' then pass; return []
      else
        let entry ← (do
          if s.char = '?' then
            pass
            let key ← flowNode [':', ',', '\x7d'] fuel
            return (keyOf key, ← flowValue [',', '\x7d'] fuel)
          else if s.char = ',' || s.char = ':' then failure
          else
            let key ← flowNode [] fuel
            skipAll true true
            if makesKey true s (← rest) then
              return (keyOf key, ← flowValue [',', '\x7d'] fuel)
            else return (keyOf key, emptyTree))
        flowNext '\x7d' fuel
        return entry :: (← flowEntries fuel)

/-- Passes the comma after an item; the closing sign is left for later. -/
def flowNext (close : Char) : (fuel : Nat) → Reader Unit
  | 0 => failure
  | _ + 1 => do
    skipAll true true
    if atSign [','] (← rest) then pass
    else if atSign [close] (← rest) then pure ()
    else failure

/-- Reads a node that is written by indentation.  Its content stands at column `floor` or
    further to the right, the items of a list at column `listFloor`.  No collection may
    begin on the line `after`. -/
def blockNode (floor listFloor : Nat) (after : Option Nat) : (fuel : Nat) → Reader Tree
  | 0 => failure
  | fuel + 1 => do
    skipAll false after.isSome
    let here ← rest
    let belongs (rest : Rest) (s : Sign) : Bool :=
      !atMarker rest && (floor ≤ s.column || (listFloor ≤ s.column && atIndicator '-' rest))
    match here with
    | [] => return emptyTree
    | s :: _ =>
      if !belongs here s then return emptyTree
      let p ← properties false 2 ⟨none, none⟩
      let next ← rest
      match next with
      | [] => finish p emptyTree
      | t :: _ =>
        if !belongs next t then finish p emptyTree
        else
          let bare := t.line = s.line && t.column = s.column
          let mayOpen := if t.line = s.line then bare && after ≠ some s.line else true
          if atIndicator '-' next then
            if mayOpen then
              finish p (.array (← blockItems t.column (t.column < floor) fuel) true)
            else failure
          else if atIndicator '?' next then
            if mayOpen then finish p (.object (← blockEntries t.column fuel) true)
            else failure
          else if t.char = '|' || t.char = '>' then
            pass
            let text ← scan (readBlock (t.char = '>') floor)
            finish p (.string (some (String.ofList text)))
          else
            let tree ← inlineNode (some floor) fuel
            let behind ← rest
            let start := if t.line = s.line then s else t
            let colon := skipBlanks behind
            if makesKey false start colon then
              if t.line = s.line && after = some s.line then failure
              let inner := if t.line = s.line then p else ⟨none, none⟩
              let outer := if t.line = s.line then ⟨none, none⟩ else p
              let key ← finish inner tree
              goto (colon.drop 1)
              let v ← blockNode (start.column + 1) start.column (some start.line) fuel
              let more ← blockEntries start.column fuel
              finish outer (.object ((keyOf key, v) :: more) true)
            else finish p tree

/-- Reads the items of a list at a column, which must be there.  `loose` tells whether the
    list may end where something else stands in its column. -/
def blockItems (column : Nat) (loose : Bool) : (fuel : Nat) → Reader (List Tree)
  | 0 => failure
  | fuel + 1 => do
    skipAll false true
    let here ← rest
    match here with
    | [] => return []
    | s :: _ =>
      if atMarker here || s.column < column then return []
      else if s.column = column && atIndicator '-' here then
        pass
        let item ← blockNode (column + 1) (column + 1) none fuel
        return item :: (← blockItems column loose fuel)
      else if s.column = column && loose then return []
      else failure

/-- Reads the entries of a collection whose keys stand at a column. -/
def blockEntries (column : Nat) : (fuel : Nat) → Reader (List (Option String × Tree))
  | 0 => failure
  | fuel + 1 => do
    skipAll false true
    let here ← rest
    match here with
    | [] => return []
    | s :: _ =>
      if atMarker here || s.column < column then return []
      else if s.column ≠ column then failure
      else if atIndicator '?' here then
        pass
        let key ← blockNode (column + 1) column none fuel
        skipAll false true
        let next ← rest
        let v ← (do
          match next with
          | t :: _ =>
            if t.column = column && atIndicator ':' next then
              pass
              blockNode (column + 1) column none fuel
            else return emptyTree
          | [] => return emptyTree)
        return (keyOf key, v) :: (← blockEntries column fuel)
      else
        let p ← properties false 2 ⟨none, none⟩
        let key ← finish p (← inlineNode (some (column + 1)) fuel)
        let colon := skipBlanks (← rest)
        if !makesKey false s colon then failure
        goto (colon.drop 1)
        let v ← blockNode (column + 1) column (some s.line) fuel
        return (keyOf key, v) :: (← blockEntries column fuel)

end

/-! ## Documents -/

/-- Passes lines that are not content but say how to read it: only the version of YAML may
    be said.  Tells whether there were any. -/
def directives : (fuel : Nat) → Reader Bool
  | 0 => failure
  | fuel + 1 => do
    skipAll false false
    let here ← rest
    match here with
    | s :: _ =>
      if s.char = '%' && s.column = 0 then
        let line := String.ofList ((here.takeWhile fun s => !isBreak s.char).map Sign.char)
        if ["%YAML 1.1", "%YAML 1.2"].contains line.trimAsciiEnd.toString then
          goto (here.dropWhile fun s => !isBreak s.char)
          let _ ← directives fuel
          return true
        else failure
      else return false
    | [] => return false

/-- Passes the ends of documents; nothing may follow them. -/
def theEnd : (fuel : Nat) → Reader Unit
  | 0 => failure
  | fuel + 1 => do
    skipAll false true
    let here ← rest
    if here.isEmpty then return ()
    else if atTriple '.' here then
      goto (here.drop 3)
      theEnd fuel
    else failure

/-- Reads the only document of a text. -/
def document (fuel : Nat) : Reader Tree := do
  let declared ← directives fuel
  let here ← rest
  let tree ←
    if atTriple '-' here then do
      goto (here.drop 3)
      blockNode 0 0 ((here.head?).map Sign.line) fuel
    else if declared then failure
    else blockNode 0 0 none fuel
  theEnd fuel
  return tree

/-- The tree of a YAML text, if it is one and holds one document.  A text without any
    content is an empty word. -/
def ofText (text : String) : Option Tree :=
  let cs := match text.toList with
    | '\ufeff' :: rest => rest
    | cs => cs
  if cs.all isAllowed then
    ((document (4 * cs.length + 16)).run ⟨place 0 0 cs, []⟩).map Prod.fst
  else none

end PropertyGraph.Yaml
