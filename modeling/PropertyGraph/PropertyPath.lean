/-
  PropertyGraph.PropertyPath

  Property paths.  A path leads from a bag to one value in it: fields by name, after a
  point or quoted in brackets, and places in arrays by number.  A sign `$` may stand for
  the bag; without it the first name may stand bare.  White space around the path and
  around a number does not count.
-/
import PropertyGraph.Failure
import PropertyGraph.Text.Blank

namespace PropertyGraph

/-- One step of a path. -/
inductive PathStep where
  | field (name : String)
  | index (place : Nat)
deriving DecidableEq, Repr

/-- A path, step by step. -/
structure PropertyPath where
  steps : List PathStep
deriving DecidableEq, Repr

namespace PropertyPath

/-! ## Reading -/

/-- Whether a character can be part of a name that is not quoted. -/
def isNameChar (c : Char) : Bool := c != '.' && c != '[' && c != ']'

/-- Whether a character opens and closes a quoted name. -/
def isQuote (c : Char) : Bool := c == '\x27' || c == '"'

/-- The number that a text denotes: digits, a plus sign before them being allowed, and a
    value of at most 64 bits. -/
def number? (cs : List Char) : Option Nat :=
  let digits := match cs with
    | '+' :: rest => rest
    | _ => cs
  if digits.isEmpty || !digits.all Char.isDigit then none
  else
    let n := digits.foldl (fun acc d => acc * 10 + (d.toNat - 48)) 0
    if n < 18446744073709551616 then some n else none

/-- The step after an opening bracket, and the text after its closing bracket. -/
def bracket (cs : List Char) : Except PathFault (PathStep × List Char) :=
  match cs with
  | [] => .error .openBracket
  | q :: body =>
    if isQuote q then
      match body.dropWhile (· != q) with
      | [] => .error .openQuote
      | _ :: ']' :: rest => .ok (.field (String.ofList (body.takeWhile (· != q))), rest)
      | _ => .error .afterQuote
    else
      match cs.dropWhile (· != ']') with
      | [] => .error .openBracket
      | _ :: rest =>
        match number? (Text.trim (cs.takeWhile (· != ']'))) with
        | some n => .ok (.index n, rest)
        | none => .error .badIndex

/-- The first step of a text, and the text after it. -/
def readStep (c : Char) (cs : List Char) : Except PathFault (PathStep × List Char) :=
  if c = '.' then
    let name := cs.takeWhile isNameChar
    if name.isEmpty then .error .emptyName
    else .ok (.field (String.ofList name), cs.dropWhile isNameChar)
  else if c = '[' then bracket cs
  else .error .unexpected

theorem length_dropWhile_le {α : Type} (p : α → Bool) (l : List α) :
    (l.dropWhile p).length ≤ l.length :=
  (List.dropWhile_sublist p).length_le

/-- What follows a bracket is shorter than what stood in it. -/
theorem bracket_length {cs : List Char} {s : PathStep} {rest : List Char}
    (h : bracket cs = .ok (s, rest)) : rest.length < cs.length := by
  unfold bracket at h
  split at h
  · simp at h
  · next q body =>
    split at h
    · have hle := length_dropWhile_le (· != q) body
      split at h
      · simp at h
      · next heq =>
        rw [heq] at hle
        simp only [Except.ok.injEq, Prod.mk.injEq] at h
        simp only [List.length_cons] at hle ⊢
        rw [← h.2]; omega
      · simp at h
    · have hle := length_dropWhile_le (· != ']') (q :: body)
      split at h
      · simp at h
      · next heq =>
        rw [heq] at hle
        split at h
        · simp only [Except.ok.injEq, Prod.mk.injEq] at h
          simp only [List.length_cons] at hle ⊢
          rw [← h.2]; omega
        · simp at h

/-- What follows a step is no longer than what followed its first character. -/
theorem readStep_length {c : Char} {cs : List Char} {s : PathStep} {rest : List Char}
    (h : readStep c cs = .ok (s, rest)) : rest.length ≤ cs.length := by
  unfold readStep at h
  split at h
  · simp only at h
    split at h
    · simp at h
    · simp only [Except.ok.injEq, Prod.mk.injEq] at h
      rw [← h.2]
      exact length_dropWhile_le _ _
  · split at h
    · exact Nat.le_of_lt (bracket_length h)
    · simp at h

/-- The steps of a text. -/
def readSteps (cs : List Char) : Except PathFault (List PathStep) :=
  match cs with
  | [] => .ok []
  | c :: cs =>
    match _h : readStep c cs with
    | .error fault => .error fault
    | .ok (s, rest) =>
      match readSteps rest with
      | .error fault => .error fault
      | .ok more => .ok (s :: more)
termination_by cs.length
decreasing_by
  have := readStep_length _h
  simp only [List.length_cons]; omega

/-- The path that a text, without white space around it, denotes. -/
def ofChars (cs : List Char) : Except PathFault PropertyPath :=
  let fromSteps (cs : List Char) : Except PathFault PropertyPath :=
    match readSteps cs with
    | .error fault => .error fault
    | .ok [] => .error .noProperty
    | .ok steps => .ok ⟨steps⟩
  match cs with
  | '$' :: rest => fromSteps rest
  | [] | '.' :: _ | '[' :: _ => fromSteps cs
  | _ =>
    match readSteps (cs.dropWhile isNameChar) with
    | .error fault => .error fault
    | .ok more => .ok ⟨.field (String.ofList (cs.takeWhile isNameChar)) :: more⟩

/-- Reads a path. -/
def read (s : String) : Outcome PropertyPath :=
  match ofChars (Text.trim s.toList) with
  | .ok path => .ok path
  | .error fault => .error (.path s fault)

/-! ## Selecting -/

/-- The value that one step leads to. -/
def selectStep : PathStep → Json → Option Json
  | .field name, .object entries => Entries.get? name entries
  | .index place, .array items => items[place]?
  | _, _ => none

/-- The value that the steps lead to, one after the other. -/
def follow : List PathStep → Json → Option Json
  | [], v => some v
  | s :: rest, v => (selectStep s v).bind (follow rest)

/-- The value that a path leads to from a bag. -/
def select (path : PropertyPath) (bag : Bag) : Option Json :=
  match path.steps with
  | [] => none
  | steps => follow steps (.object bag)

end PropertyPath

end PropertyGraph
