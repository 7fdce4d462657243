/-
  PropertyGraph.Json.Syntax

  JSON text as a tree, before any value is made of it.  The tree keeps what a value
  forgets and a record has to know: repeated keys, where the text breaks off or goes
  wrong, numbers that are too large, strings with half of a surrogate pair, and where
  the nesting exceeds its limit.  A reader of the tree meets the faults of the text in
  the order of the text.  A value is such a tree without any fault.
-/
import PropertyGraph.Json.Token

namespace PropertyGraph.Json

/-- A text as a tree.  `closed` tells that the closing bracket was found. -/
inductive Tree where
  | null
  | bool (b : Bool)
  | number (n : Option Number)
  | string (s : Option String)
  /-- a word without quotes, with the value that it stands for where any value may stand;
      some numbers that can be written have no value -/
  | plain (word : String) (value : Option Json)
  | array (items : List Tree) (closed : Bool)
  | object (entries : List (Option String × Tree)) (closed : Bool)
  /-- an array or object beyond the nesting limit -/
  | tooDeep (intact : Bool)
  /-- a place where a value should stand -/
  | broken
deriving Inhabited

/-- How deep arrays and objects may nest. -/
def maxDepth : Nat := 127

namespace Tree

/-! ## From values -/

mutual

/-- The tree of a value. -/
def ofJson : Json → Tree
  | .null => .null
  | .bool b => .bool b
  | .number n => .number (some n)
  | .string s => .string (some s)
  | .array items => .array (ofItems items) true
  | .object entries => .object (ofEntries entries) true

/-- The trees of the items of an array. -/
def ofItems : List Json → List Tree
  | [] => []
  | v :: rest => ofJson v :: ofItems rest

/-- The trees of the entries of an object. -/
def ofEntries : List (String × Json) → List (Option String × Tree)
  | [] => []
  | (k, v) :: rest => (some k, ofJson v) :: ofEntries rest

end

/-! ## From text -/

/-- An array or object that has been opened and not closed; its items stand in reverse. -/
inductive Frame where
  | array (items : List Tree)
  | object (entries : List (Option String × Tree))
  /-- an object of which a key has been read and its value has not -/
  | entry (entries : List (Option String × Tree)) (key : Option String)

/-- What may come next. -/
inductive Expect where
  | value
  | valueOrClose
  | keyOrClose
  | key
  | colon (key : Option String)
  | separator
deriving Repr

/-- A bracket below `outer` open brackets, as far as the nesting limit admits it. -/
def limited (outer : Nat) (tree : Tree) (intact : Bool) : Tree :=
  if outer < maxDepth then tree else .tooDeep intact

/-- Closes a bracket that stands inside `outer` others. -/
def Frame.close (frame : Frame) (outer : Nat) (closed : Bool) : Tree :=
  match frame with
  | .array items => limited outer (.array items.reverse closed) closed
  | .object entries => limited outer (.object entries.reverse closed) closed
  | .entry entries key =>
    limited outer (.object ((key, .broken) :: entries).reverse closed) closed

/-- Puts a value into a bracket. -/
def Frame.add (frame : Frame) (tree : Tree) : Frame :=
  match frame with
  | .array items => .array (tree :: items)
  | .object entries => .object entries
  | .entry entries key => .object ((key, tree) :: entries)

/-- The tree of a text that breaks off inside the given brackets, innermost first. -/
def abandon (inner : Option Tree) : List Frame → Tree
  | [] => inner.getD .broken
  | frame :: outer =>
    let frame := match inner with
      | some tree => frame.add tree
      | none => frame
    abandon (some (frame.close outer.length false)) outer

/-- What may follow a value inside the given brackets; nothing when it is complete. -/
inductive Next where
  | done (tree : Tree)
  | continue (expect : Expect) (stack : List Frame)

/-- Puts a complete value into the innermost bracket. -/
def settle (tree : Tree) : List Frame → Next
  | [] => .done tree
  | frame :: outer => .continue .separator (frame.add tree :: outer)

/-- Closes the innermost bracket. -/
def closeTop : List Frame → Next
  | [] => .done .broken
  | frame :: outer => settle (frame.close outer.length true) outer

/-- One token where a value should stand. -/
def atValue (token : Token) (stack : List Frame) : Option Next :=
  match token with
  | .null => some (settle .null stack)
  | .bool b => some (settle (.bool b) stack)
  | .number n => some (settle (.number n) stack)
  | .string s => some (settle (.string s) stack)
  | .openArray => some (.continue .valueOrClose (.array [] :: stack))
  | .openObject => some (.continue .keyOrClose (.object [] :: stack))
  | _ => none

/-- One token inside the given brackets; nothing when it may not stand there. -/
def advance (expect : Expect) (stack : List Frame) (token : Token) : Option Next :=
  match expect, stack, token with
  | .value, _, _ => atValue token stack
  | .valueOrClose, .array _ :: _, .closeArray => some (closeTop stack)
  | .valueOrClose, _, _ => atValue token stack
  | .keyOrClose, .object _ :: _, .closeObject => some (closeTop stack)
  | .keyOrClose, _, .string s => some (.continue (.colon s) stack)
  | .key, _, .string s => some (.continue (.colon s) stack)
  | .colon key, .object entries :: outer, .colon =>
    some (.continue .value (.entry entries key :: outer))
  | .separator, .array _ :: _, .comma => some (.continue .value stack)
  | .separator, .array _ :: _, .closeArray => some (closeTop stack)
  | .separator, .object _ :: _, .comma => some (.continue .key stack)
  | .separator, .object _ :: _, .closeObject => some (closeTop stack)
  | _, _, _ => none

/-- A key that has been read without a colon after it still counts as an entry. -/
def withPendingKey (expect : Expect) (stack : List Frame) : List Frame :=
  match expect, stack with
  | .colon key, .object entries :: outer => .entry entries key :: outer
  | _, _ => stack

/-- Reads one value and returns the tokens after it. -/
def read (expect : Expect) (stack : List Frame) : List Token → Tree × List Token
  | [] => (abandon none (withPendingKey expect stack), [])
  | token :: rest =>
    match advance expect stack token with
    | none => (abandon none (withPendingKey expect stack), token :: rest)
    | some (.done tree) => (tree, rest)
    | some (.continue expect stack) => read expect stack rest

/-- The tree of the first value of a text, whatever follows it. -/
def ofTextStart (s : String) : Tree := (read .value [] (tokens s)).1

/-- The tree of a text that holds one value and nothing else; anything after the value
    spoils it. -/
def ofText (s : String) : Tree :=
  match read .value [] (tokens s) with
  | (tree, []) => tree
  | (_, _ :: _) => .broken

end Tree

end PropertyGraph.Json
