import PathDoc.Tree.Frontier
import PathDoc.Tree.Permission
import PathDoc.Tree.Slots

/-!
# PathDoc.Tree.Write — putting a leaf at a path

`Value.write` finds the frontier of the path and writes what is missing at each of its branches,
in order. `enter` opens one node for a segment and hands all that the segment denotes there to the
writer of the rest; `intoSlot` is that writer, by recursion on the path. The first fault ends the
write and leaves the branches before it written.
-/

namespace PathDoc

open Json

/-- Why a write ends early. -/
inductive Fault where
  /-- The node is not of the kind that the next segment needs, or is a scalar that must stay. -/
  | clash (place : Location) (node : Value)
  /-- The node is a container whose children must stay. -/
  | discard (place : Location) (node : Value)
  /-- The segment after `before` aims past `arrayLimit` with an index. -/
  | tooLong (before : Path) (index : Int)
  /-- The segment does not go into the container that was made ready for it. -/
  | misfit (s : Segment)

/-- The fault seen from further up. -/
def Fault.under (outer : Location) : Fault → Fault
  | clash place node => clash (outer ++ place) node
  | discard place node => discard (outer ++ place) node
  | tooLong before index => tooLong before index
  | misfit s => misfit s

/-- What a write leaves behind, and the fault that ended it. -/
structure Outcome (α : Type) where
  result : α
  fault : Option Fault

namespace Outcome

/-- A write that came to its end. -/
def done {α : Type} (result : α) : Outcome α := ⟨result, none⟩

/-- The outcome for a node, from the one for a part of it that lies at `outer`. -/
def lift {α β : Type} (outer : Location) (f : α → β) (r : Outcome α) : Outcome β :=
  ⟨f r.result, r.fault.map (Fault.under outer)⟩

@[simp] theorem result_done {α : Type} (a : α) : (done a).result = a := rfl

@[simp] theorem fault_done {α : Type} (a : α) : (done a).fault = none := rfl

@[simp] theorem result_lift {α β : Type} (outer : Location) (f : α → β) (r : Outcome α) :
    (r.lift outer f).result = f r.result := rfl

@[simp] theorem fault_lift {α β : Type} (outer : Location) (f : α → β) (r : Outcome α) :
    (r.lift outer f).fault = r.fault.map (Fault.under outer) := rfl

end Outcome

/-- The leaf to write, and what it may replace. -/
structure Job where
  leaf : Value
  permission : Permission

namespace Write

/-! ### one node -/

/-- Puts the leaf in a target's place. A leaf that is there already stays, where scalars may be
replaced. -/
def settle (job : Job) (slot : Value) : Outcome Value :=
  if slot.isEmptyContainer then .done job.leaf
  else if slot == job.leaf && job.permission.scalar then .done slot
  else if slot.isContainer then
    if job.permission.container then .done job.leaf else ⟨slot, some (.discard [] slot)⟩
  else if job.permission.scalar then .done job.leaf
  else ⟨slot, some (.clash [] slot)⟩

/-- The node as a container for the segment. One of another kind makes way for an empty container,
if it may. -/
def prepare? (coerce : Bool) (s : Segment) (node : Value) : Option Value :=
  if s.suits node then some node
  else if node.isEmptyContainer || coerce then some s.emptyContainer
  else none

/-- Writes below one member; a new one holds `fresh`. -/
def intoMember (name : String) (fresh : Value) (below : Value → Outcome Value) (ms : Members) :
    Outcome Members :=
  match ms.get? name with
  | some child => (below child).lift [.key name] (ms.set name)
  | none => .done (ms.put name fresh)

/-- Writes below each position in turn. -/
def intoSlots (below : Value → Outcome Value) : List Nat → List Value → Outcome (List Value)
  | [], items => .done items
  | p :: slots, items =>
    match items[p]? with
    | none => intoSlots below slots items
    | some slot =>
      let r := below slot
      match r.fault with
      | none => intoSlots below slots (items.set p r.result)
      | some fault => ⟨items.set p r.result, some (fault.under [.pos p])⟩

/-- Opens a node for a segment and writes below all that the segment denotes there. -/
def enter (job : Job) (s : Segment) (rest : Path) (below : Value → Outcome Value) (node : Value) :
    Outcome Value :=
  match prepare? job.permission.coerce s node with
  | none => ⟨node, some (.clash [] node)⟩
  | some (.obj ms) =>
    match s with
    | .member name => (intoMember name (Path.scaffold rest job.leaf) below ms).lift [] .obj
    | s => ⟨.obj ms, some (.misfit s)⟩
  | some (.arr items) => (intoSlots below (s.slots items.length) (s.makeRoom items)).lift [] .arr
  | some v => ⟨v, some (.misfit s)⟩

/-- Writes the leaf below a node that exists. An empty container makes way for
fresh ones. -/
def intoSlot (job : Job) : Path → Value → Outcome Value
  | [], slot => settle job slot
  | s :: rest, slot =>
    if slot.isEmptyContainer then .done (Path.scaffold (s :: rest) job.leaf)
    else enter job s rest (intoSlot job rest) slot

/-- Writes the leaf below a node that stays as far as it can. -/
def intoNode (job : Job) : Path → Value → Outcome Value
  | [], node => .done node
  | s :: rest, node => enter job s rest (intoSlot job rest) node

/-! ### the whole document -/

/-- The first segment with an excessive index: the segments before it, and the index. -/
def firstExcess? : Path → Option (Path × Int)
  | [] => none
  | s :: rest =>
    match s.excess? with
    | some i => some ([], i)
    | none => (firstExcess? rest).map fun (before, i) => (s :: before, i)

/-- Writes at each branch in turn what the path still asks for there. -/
def atBranches (job : Job) (path : Path) : List Branch → Value → Outcome Value
  | [], root => .done root
  | b :: more, root =>
    match root.get? b.place with
    | none => atBranches job path more root
    | some node =>
      let r := intoNode job (path.drop b.place.length) node
      let root := (root.replace? b.place r.result).getD root
      match r.fault with
      | none => atBranches job path more root
      | some fault => ⟨root, some (fault.under b.place)⟩

theorem prepare?_of_suits {s : Segment} {node : Value} (h : s.suits node = true) (coerce : Bool) :
    prepare? coerce s node = some node := if_pos h

theorem prepare?_of_not_suits {s : Segment} {node : Value} (h : s.suits node = false)
    (coerce : Bool) : prepare? coerce s node =
      if node.isEmptyContainer || coerce then some s.emptyContainer else none := by
  rw [prepare?, h, if_neg Bool.false_ne_true]

@[simp] theorem intoSlots_nil (below : Value → Outcome Value) (items : List Value) :
    intoSlots below [] items = .done items := rfl

@[simp] theorem intoSlot_nil (job : Job) (slot : Value) :
    intoSlot job [] slot = settle job slot := rfl

theorem intoSlot_cons (job : Job) (s : Segment) (rest : Path) (slot : Value) :
    intoSlot job (s :: rest) slot =
      if slot.isEmptyContainer then .done (Path.scaffold (s :: rest) job.leaf)
      else intoNode job (s :: rest) slot := rfl

@[simp] theorem firstExcess?_nil : firstExcess? [] = none := rfl

@[simp] theorem atBranches_nil (job : Job) (path : Path) (root : Value) :
    atBranches job path [] root = .done root := rfl

end Write

/-- Puts the leaf at a path of the document. -/
def Json.Value.write (root : Value) (path : Path) (job : Job) : Outcome Value :=
  match Write.firstExcess? path with
  | some (before, i) => ⟨root, some (.tooLong before i)⟩
  | none => Write.atBranches job path (root.frontier path).1 root

end PathDoc
