/-!
# PathDoc.Tree.Permission — what a write may replace

An empty container, `{}` or `[]`, may always be replaced. A priority names a permission; each one
allows all that the ones below it allow.
-/

namespace PathDoc

/-- What a write may replace besides empty containers. -/
structure Permission where
  /-- A scalar at the target. -/
  scalar : Bool
  /-- A container with children at the target. -/
  container : Bool
  /-- A node of the wrong kind on the way to the target. -/
  coerce : Bool
deriving DecidableEq, Repr

/-- How strongly a write insists. -/
inductive Priority where
  | low
  | normal
  | high
deriving DecidableEq, Repr

namespace Permission

/-- Replaces nothing. -/
def low : Permission := ⟨false, false, false⟩

/-- Replaces scalars. -/
def normal : Permission := ⟨true, false, false⟩

/-- Replaces everything. -/
def high : Permission := ⟨true, true, true⟩

instance : Inhabited Permission := ⟨normal⟩

/-- Allows no more than another permission. -/
def le (p q : Permission) : Prop :=
  (p.scalar → q.scalar) ∧ (p.container → q.container) ∧ (p.coerce → q.coerce)

instance : LE Permission := ⟨le⟩

instance (p q : Permission) : Decidable (p ≤ q) :=
  inferInstanceAs (Decidable (_ ∧ _ ∧ _))

theorem low_le (p : Permission) : low ≤ p := by
  refine ⟨?_, ?_, ?_⟩ <;> simp [low]

theorem le_high (p : Permission) : p ≤ high := by
  refine ⟨?_, ?_, ?_⟩ <;> simp [high]

end Permission

/-- The permission of a priority. -/
def Priority.permission : Priority → Permission
  | low => .low
  | normal => .normal
  | high => .high

/-- The word for a priority. -/
def Priority.name : Priority → String
  | low => "low"
  | normal => "normal"
  | high => "high"

end PathDoc
