/-
  PropertyGraph.Json.Record

  Records with named fields.  A record is described once, field by field, and is then
  read from an object, whose fields may come in any order and of which unknown ones
  are skipped, or from an array that holds the fields in their declared order.  A known
  field that is given twice in an object is a misfit.
-/
import PropertyGraph.Json.Decode

namespace PropertyGraph.Json

/-- How a record of type `α` is read: the fields read so far form the state. -/
structure Record (α : Type) where
  State : Type
  start : State
  /-- takes in a key and its value; nothing when the key names no field -/
  accept : State → String → Tree → Option (Decoded State)
  /-- takes in the fields by position and returns the items after them; the flag tells
      whether the array is closed after its last item -/
  places : List Tree → Bool → Decoded (State × List Tree)
  /-- the record, once all fields have been seen -/
  finish : State → Decoded α

namespace Record

variable {α β : Type}

/-- A field; `absent` is what its absence gives. -/
def field (name : String) (decode : Tree → Decoded α) (absent : Decoded α) : Record α where
  State := Option α
  start := none
  accept state key value :=
    if key = name then
      some (if state.isSome then .error .misfit else (decode value).map some)
    else none
  places
    | [], closed => if closed then .ok (none, []) else .error .malformed
    | t :: rest, _ => (decode t).map fun v => (some v, rest)
  finish state := match state with
    | some v => .ok v
    | none => absent

/-- A field that must be present. -/
def required (name : String) (decode : Tree → Decoded α) : Record α :=
  field name decode (.error .misfit)

/-- A field that stands for a value of its own when it is absent. -/
def withDefault (name : String) (decode : Tree → Decoded α) (value : α) : Record α :=
  field name decode (.ok value)

/-- A field that may be absent or null. -/
def optional (name : String) (decode : Tree → Decoded α) : Record (Option α) :=
  field name (Tree.toOption decode) (.ok none)

/-- A record without fields. -/
def nothing (a : α) : Record α where
  State := Unit
  start := ()
  accept _ _ _ := none
  places items _ := .ok ((), items)
  finish _ := .ok a

/-- The fields of two records, one after the other. -/
def both (a : Record α) (b : Record β) : Record (α × β) where
  State := a.State × b.State
  start := (a.start, b.start)
  accept state key value :=
    match a.accept state.1 key value with
    | some next => some (next.map fun s => (s, state.2))
    | none => (b.accept state.2 key value).map fun next => next.map fun s => (state.1, s)
  places items closed := do
    let (s, items) ← a.places items closed
    let (t, items) ← b.places items closed
    .ok ((s, t), items)
  finish state := do
    let x ← a.finish state.1
    let y ← b.finish state.2
    .ok (x, y)

/-- The same fields, put together in another way. -/
def map (f : α → β) (a : Record α) : Record β where
  State := a.State
  start := a.start
  accept := a.accept
  places := a.places
  finish state := (a.finish state).map f

/-- What happens to a key that names no field. -/
inductive Unknown where
  | skipped
  | refused
deriving DecidableEq

/-- Takes in the entries of an object one by one. -/
def absorb (a : Record α) (unknown : Unknown) :
    a.State → List (Option String × Tree) → Decoded a.State
  | state, [] => .ok state
  | _, (none, _) :: _ => .error .malformed
  | state, (some key, value) :: rest =>
    match a.accept state key value with
    | some next => do absorb a unknown (← next) rest
    | none =>
      if unknown = .refused then .error .misfit
      else do
        value.skip
        absorb a unknown state rest

/-- Reads a record from the entries of an object. -/
def ofEntries (a : Record α) (unknown : Unknown) (entries : List (Option String × Tree))
    (closed : Bool) : Decoded α := do
  let state ← a.absorb unknown a.start entries
  if closed then a.finish state else .error .malformed

/-- Reads a record from the items of an array.  An item after the last field is as little
    expected as any other sign there. -/
def ofItems (a : Record α) (items : List Tree) (closed : Bool) : Decoded α := do
  let (state, rest) ← a.places items closed
  let value ← a.finish state
  if rest.isEmpty && closed then .ok value else .error .malformed

/-- Reads a record; an empty plain word counts as an object without entries. -/
def read (a : Record α) (unknown : Unknown) : Tree → Decoded α
  | .object entries closed => a.ofEntries unknown entries closed
  | .array items closed => a.ofItems items closed
  | .plain "" (some .null) => a.finish a.start
  | .tooDeep _ => .error .malformed
  | t => .error t.mismatch

/-- Reads a record and skips unknown fields. -/
def decode (a : Record α) : Tree → Decoded α := a.read .skipped

/-- Reads a record whose fields must be named, and skips unknown ones. -/
def decodeNamed (a : Record α) : Tree → Decoded α
  | .array _ _ => .error .misfit
  | t => a.decode t

end Record

end PropertyGraph.Json
