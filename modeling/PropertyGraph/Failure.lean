/-
  PropertyGraph.Failure

  Why an operation fails.  Each cause is a constructor with what it is about; the words
  of all of them are in `Failure.message`.
-/
import PropertyGraph.Entity.Basic
import PropertyGraph.Text.Quoted

namespace PropertyGraph

/-! ## Causes -/

/-- Why a text is no property path. -/
inductive PathFault where
  | noProperty
  | emptyName
  | openQuote
  | afterQuote
  | openBracket
  | badIndex
  | unexpected
  /-- the path was not read before it was needed -/
  | unread
deriving DecidableEq, Repr

/-- Why an identity cannot be used. -/
inductive IdentityFault where
  | notText (id : Id)
  | unknownSuite (name : String)
  | notComposite (id : Id)

/-- Why a configuration cannot be used. -/
inductive ConfigFault where
  | twoOwners (c : EntityClass) (type : String) (first second : String)
  | suiteTwice (name : String)
  | noSuites
  | unreadable (path : String)
  | unknownFormat (path : String)
  | malformed

/-- Why an operation fails. -/
inductive Failure where
  /-- a change addresses an entity that is not there -/
  | notFound (c : EntityClass) (id : Id)
  | identity (fault : IdentityFault)
  /-- a new type would move an entity to another suite -/
  | movedType (id : Id) (owner : String) (type : String) (target : String)
  /-- no suite has been given the type -/
  | unownedType (c : EntityClass) (type : String)
  /-- planning met a state that cannot arise -/
  | planning (what : String)
  /-- a server could not be reached, refused, or sent something unreadable -/
  | transport (status : Option Nat) (text : String)
  /-- a type cannot be part of a file name -/
  | typeName (type : String)
  | path (path : String) (fault : PathFault)
  /-- nobody can evaluate an extension -/
  | unsupported (what : String)
  | config (fault : ConfigFault)
  /-- the file system refused -/
  | io
  /-- a text or value does not have the form of what it should be -/
  | malformed

/-! ## Wording -/

/-- The wording of a path fault. -/
def PathFault.message : PathFault → String
  | .noProperty => "path selects no property"
  | .emptyName => "empty field name"
  | .openQuote => "unterminated quote"
  | .afterQuote => "expected ']' after quoted field"
  | .openBracket => "unterminated '['"
  | .badIndex => "index must be a non-negative integer"
  | .unexpected => "expected '.' or '['"
  | .unread => "path has not been read"

/-- The wording of an identity fault. -/
def IdentityFault.message : IdentityFault → String
  | .notText id => "expected a string id, got " ++ id.shown
  | .unknownSuite name => "unknown suite " ++ Text.quoted name
  | .notComposite id => id.shown ++ " is not a composite id"

/-- The wording of a configuration fault. -/
def ConfigFault.message : ConfigFault → String
  | .twoOwners c type first second =>
    c.name ++ " type " ++ Text.quoted type ++ " is mapped to both " ++ Text.quoted first
      ++ " and " ++ Text.quoted second
  | .suiteTwice name => "suite " ++ Text.quoted name ++ " registered twice"
  | .noSuites => "no suites configured"
  | .unreadable path => "cannot read " ++ Text.quotedPath path
  | .unknownFormat path => "unsupported configuration format: " ++ Text.quotedPath path
  | .malformed => "malformed text"

/-- The wording of a status that may be absent. -/
def statusText : Option Nat → String
  | some status => "Some(" ++ toString status ++ ")"
  | none => "None"

/-- The message of a failure. -/
def Failure.message : Failure → String
  | .notFound c id => c.name ++ " " ++ id.shown ++ " not found"
  | .identity fault => "Invalid identity: " ++ fault.message
  | .movedType id owner type target =>
    "Cannot change " ++ id.shown ++ " to type " ++ Text.quoted type
      ++ ": it belongs to suite " ++ Text.quoted owner ++ ", the type is routed to "
      ++ Text.quoted target
  | .unownedType c type =>
    "No suite is configured for " ++ c.name ++ " type " ++ Text.quoted type
  | .planning what => "Query planner assertion failed: " ++ what
  | .transport status text => "Transport failure (status " ++ statusText status ++ "): " ++ text
  | .typeName type => "Invalid type name: " ++ Text.quoted type
  | .path text fault =>
    "Invalid property path: " ++ Text.quoted text ++ ": " ++ fault.message
  | .unsupported what => "Unsupported searcher: " ++ what
  | .config fault => "Configuration error: " ++ fault.message
  | .io => "I/O error"
  | .malformed => "Serialization error"

/-- The result of an operation that may fail. -/
abbrev Outcome (α : Type) := Except Failure α

/-- The text of an identity, for a store that gives out texts only. -/
def Id.requireText (id : Id) : Outcome String :=
  match id.string? with
  | some s => .ok s
  | none => .error (.identity (.notText id))

end PropertyGraph
