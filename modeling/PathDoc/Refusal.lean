import PathDoc.Json.Printer
import PathDoc.Path.Printer
import PathDoc.Path.Reader
import PathDoc.Tree.Query
import PathDoc.Tree.Write

/-!
# PathDoc.Refusal — why an operation on a document is refused

A refusal is a cause together with the path text that it is about; `Refusal.message` is its wording.
`Path.read` reads a path or refuses it.
-/

namespace PathDoc

open Json

/-- Why an operation is refused. -/
inductive Cause where
  /-- The text is no path. -/
  | malformed (fault : Malformed)
  /-- The piece of text denotes no segment. -/
  | unsupported (piece : String)
  /-- There is nothing to write. -/
  | noValue
  /-- The node would have to make way for another kind of node, or for the leaf. -/
  | clash (place : Location) (node leaf : Value)
  /-- The node would lose its children. -/
  | discard (place : Location) (node : Value)
  /-- An index to read has no place in an array. -/
  | outside (fault : Outside)
  /-- An index to write aims past `arrayLimit`. -/
  | tooLong (before : Path) (index : Int)

/-- A cause, and the path that it is about. -/
structure Refusal where
  path : String
  cause : Cause

/-- The cause of a fault in writing a leaf. -/
def Fault.cause (leaf : Value) : Fault → Cause
  | clash place node => .clash place node leaf
  | discard place node => .discard place node
  | tooLong before index => .tooLong before index
  | misfit s => .unsupported (Path.text [s])

/-- The cause of a fault in reading a path. -/
def Unreadable.cause : Unreadable → Cause
  | noSegment => .malformed .noSegment
  | unsupported piece => .unsupported (String.ofList piece)

namespace Refusal

/-- The wording for an index without a place. -/
def rangeMessage (path : String) (index : Int) (length : Nat) (place : String) : String :=
  "index " ++ toString index ++ " out of range (len: " ++ toString length ++ ") at " ++ place ++
    " in path '" ++ path ++ "'"

/-- The refusal in words. -/
def message (r : Refusal) : String :=
  match r.cause with
  | .malformed fault => "invalid path '" ++ r.path ++ "': " ++ fault.message
  | .unsupported piece => "unsupported segment '" ++ piece ++ "' in path '" ++ r.path ++ "'"
  | .noValue => "no value supplied for path '" ++ r.path ++ "'"
  | .clash place node leaf =>
    "path '" ++ r.path ++ "' conflicts with " ++ node.text ++ " at " ++ Location.text place ++
      " (writing " ++ leaf.text ++ ")"
  | .discard place node =>
    "writing path '" ++ r.path ++ "' would discard the children of " ++ node.text ++ " at " ++
      Location.text place
  | .outside fault => rangeMessage r.path fault.index fault.length (Location.text fault.place)
  | .tooLong before index => rangeMessage r.path index arrayLimit (Path.text before)

end Refusal

/-- The path that a text denotes, whether or not the grammar accepts the text. -/
def Path.ofText (text : String) : Except Refusal Path :=
  match Path.ofChars text.toList with
  | .ok path => .ok path
  | .error e => .error ⟨text, e.cause⟩

/-- The path that a text denotes. A text that the grammar does not accept is refused as it is; later
faults are found in the text without its outer blanks. -/
def Path.read (text : String) : Except Refusal Path :=
  match Grammar.accept text.toList with
  | .ok cs => Path.ofText (String.ofList cs)
  | .error fault => .error ⟨text, .malformed fault⟩

end PathDoc
