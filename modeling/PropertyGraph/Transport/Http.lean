/-
  PropertyGraph.Transport.Http

  The requests and responses that a server and its clients exchange, and which content
  types announce JSON: `application/json`, and every subtype of `application` that is
  JSON before or after its last plus sign, with or without parameters.
-/

namespace PropertyGraph.Http

/-- A request. -/
structure Request where
  method : String
  path : String
  contentType : Option String
  body : String
deriving DecidableEq, Repr

/-- What a response carries: JSON, or words for a reader. -/
inductive Content where
  | json (text : String)
  | words (text : String)
deriving DecidableEq, Repr

/-- A response. -/
structure Response where
  status : Nat
  content : Content
deriving DecidableEq, Repr

/-- The text of a response. -/
def Response.text (r : Response) : String :=
  match r.content with
  | .json s => s
  | .words s => s

/-- The JSON text of a response, if it carries JSON. -/
def Response.json? (r : Response) : Option String :=
  match r.content with
  | .json s => some s
  | .words _ => none

/-- Whether a status reports success. -/
def isSuccess (status : Nat) : Bool := 200 ≤ status && status < 300

/-! ## Content types -/

/-- Whether a character can be part of a token of a content type. -/
def isTokenChar (c : Char) : Bool :=
  c.isAlphanum || "!#$%&'*+-.^_|~\x60".toList.contains c

/-- Whether a character can stand between the quotes of a parameter. -/
def isQuotedChar (c : Char) : Bool := 0x20 ≤ c.toNat && c.toNat < 0x7f

/-- What a parameter list is in the middle of. -/
inductive Parameter where
  /-- before a parameter -/
  | start
  /-- in a name -/
  | name
  /-- after the sign of equality -/
  | value
  /-- in a value without quotes -/
  | word
  /-- after the opening quote -/
  | opened
  /-- in a value with quotes -/
  | quoted
  /-- after the closing quote -/
  | closed
deriving DecidableEq

/-- Whether a text is a list of parameters, from the given state on.  The list may be empty
    and may end in a semicolon; a value between quotes has a character at least, and the
    first one may be a quote. -/
def isParameters : Parameter → List Char → Bool
  | state, [] => state = .start || state = .value || state = .word || state = .closed
  | .start, c :: rest =>
    if c = ' ' then isParameters .start rest
    else isTokenChar c && isParameters .name rest
  | .name, c :: rest =>
    if c = '=' then isParameters .value rest else isTokenChar c && isParameters .name rest
  | .value, c :: rest =>
    if c = '"' then isParameters .opened rest else isTokenChar c && isParameters .word rest
  | .word, c :: rest =>
    if c = ';' then isParameters .start rest else isTokenChar c && isParameters .word rest
  | .opened, c :: rest => isQuotedChar c && isParameters .quoted rest
  | .quoted, c :: rest =>
    if c = '"' then isParameters .closed rest else isQuotedChar c && isParameters .quoted rest
  | .closed, c :: rest =>
    if c = ' ' then isParameters .closed rest else c = ';' && isParameters .start rest

/-- The last plus sign of a subtype divides it; one at its start does not count. -/
def subtypeAndSuffix (subtype : List Char) : List Char × Option (List Char) :=
  let back := subtype.reverse
  let suffix := (back.takeWhile (· != '+')).reverse
  match back.dropWhile (· != '+') with
  | [] | [_] => (subtype, none)
  | _ :: before => (before.reverse, some suffix)

/-- Whether a content type announces JSON.  A semicolon or a space ends its name. -/
def isJsonType (contentType : String) : Bool :=
  let cs := contentType.toList.map Char.toLower
  let main := cs.takeWhile (· != '/')
  let ends (c : Char) : Bool := c == ';' || c == ' '
  match cs.dropWhile (· != '/') with
  | [] => false
  | _ :: rest =>
    let subtype := rest.takeWhile fun c => !ends c
    let (before, suffix) := subtypeAndSuffix subtype
    main == "application".toList && subtype.all isTokenChar && !subtype.isEmpty
      && (before == "json".toList || suffix == some "json".toList)
      && isParameters .start ((rest.dropWhile fun c => !ends c).drop 1)

end PropertyGraph.Http
