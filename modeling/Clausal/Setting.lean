/-!
# Settings

A setting is a named value with bounds. Setting it to a value within the bounds succeeds; any other
value is handed back and changes nothing.
-/

namespace Clausal

structure Setting (α : Type) where
  name : String
  least : α
  most : α
  value : α

namespace Setting

variable {α : Type} [LE α] [DecidableLE α]

/-- Sets the value, or hands back a value that is out of bounds. -/
def set (s : Setting α) (value : α) : Except α (Setting α) :=
  if s.least ≤ value ∧ value ≤ s.most then .ok { s with value } else .error value

theorem set_eq_ok_iff {s t : Setting α} {value : α} :
    s.set value = .ok t ↔ (s.least ≤ value ∧ value ≤ s.most) ∧ t = { s with value } := by
  by_cases h : s.least ≤ value ∧ value ≤ s.most
  · simp [set, h, eq_comm]
  · simp [set, h]

end Setting

end Clausal
