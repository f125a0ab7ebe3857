import PathDoc.Json.Reader
import PathDoc.Refusal
import PathDoc.Tree.Removal

/-!
# PathDoc.Draft — a document under construction

A draft is a document with options. Each operation reads a path, works on the document and gives
a new draft; one that is refused gives none, so nothing of a refused write is ever seen.
-/

namespace PathDoc

open Json

/-- How a draft writes and prints. -/
structure Options where
  /-- How strongly `put` insists. -/
  priority : Priority := .normal
  /-- Whether the text has one item a line. -/
  pretty : Bool := false
deriving DecidableEq, Repr

/-- A document with options. -/
structure Draft where
  root : Value := .obj []
  options : Options := {}

namespace Draft

/-- The draft of a document that is there already. -/
def ofValue (root : Value) : Draft := { root }

/-- The draft of the document that a text denotes. -/
def ofText? (text : String) : Option Draft := (Value.ofText? text).map ofValue

/-- Writes a value at a path, as far as the permission goes. -/
def write (d : Draft) (text : String) (value : Option Value) (permission : Permission) :
    Except Refusal Draft :=
  match Path.read text with
  | .error e => .error e
  | .ok path =>
    match value with
    | none => .error ⟨text, .noValue⟩
    | some leaf =>
      let r := d.root.write path ⟨leaf, permission⟩
      match r.fault with
      | none => .ok { d with root := r.result }
      | some fault => .error ⟨text, fault.cause leaf⟩

/-- Writes a value with a priority. -/
def putWith (d : Draft) (text : String) (value : Option Value) (priority : Priority) :
    Except Refusal Draft :=
  d.write text value priority.permission

/-- Writes a value with the priority of the options. -/
def put (d : Draft) (text : String) (value : Option Value) : Except Refusal Draft :=
  d.putWith text value d.options.priority

/-- Writes a value whatever stands in the way. -/
def overwrite (d : Draft) (text : String) (value : Option Value) : Except Refusal Draft :=
  d.write text value .high

/-- What a removal hands back, from its entry for each node that was reached: the only entry, or
an array of all of them with a null for each node that lacked the target. -/
def handBack? : List (Option Value) → Option Value
  | [entry] => entry
  | entries => if entries.all Option.isNone then none else some (.arr (entries.map (·.getD .null)))

/-- Takes out what a path denotes. -/
def take (d : Draft) (text : String) : Except Refusal (Option Value × Draft) :=
  match Path.read text with
  | .error e => .error e
  | .ok path =>
    let r := d.root.prune path
    match handBack? r.1 with
    | none => .ok (none, d)
    | some removed => .ok (some removed, { d with root := r.2 })

/-- The nodes that a path selects. -/
def query (d : Draft) (text : String) : Except Refusal (List Value) :=
  match Path.read text with
  | .error e => .error e
  | .ok path =>
    match d.root.query path with
    | .ok nodes => .ok nodes
    | .error fault => .error ⟨text, .outside fault⟩

/-- The first node that a path selects. -/
def first? (d : Draft) (text : String) : Except Refusal (Option Value) :=
  (d.query text).map List.head?

/-- The document as text, in the layout of the options. -/
def text (d : Draft) : String := if d.options.pretty then d.root.prettyText else d.root.text

/-- An empty document with the same options. -/
def reset (d : Draft) : Draft := { d with root := .obj [] }

/-- Equal documents, up to the order of members, with the same options. -/
protected def beq (d e : Draft) : Bool := d.root == e.root && d.options == e.options

instance : BEq Draft := ⟨Draft.beq⟩

/-- Performs the same kind of write for pairs of a path and a value, up to the first that is
refused. -/
def writeAll (d : Draft) (permission : Permission) : List (String × Value) → Except Refusal Draft
  | [] => .ok d
  | (text, value) :: pairs =>
    match d.write text (some value) permission with
    | .error e => .error e
    | .ok d => d.writeAll permission pairs

@[simp] theorem writeAll_nil (d : Draft) (permission : Permission) :
    d.writeAll permission [] = .ok d := rfl

@[simp] theorem root_reset (d : Draft) : d.reset.root = .obj [] := rfl

@[simp] theorem options_reset (d : Draft) : d.reset.options = d.options := rfl

end Draft

/-- The text of the document that pairs of a path and a value build from nothing. -/
def textOfPairs (pairs : List (String × Value)) : Except Refusal String :=
  (Draft.writeAll {} .normal pairs).map Draft.text

end PathDoc
