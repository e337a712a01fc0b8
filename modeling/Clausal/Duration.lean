/-!
# Durations

A duration is a whole number of nanoseconds.
-/

namespace Clausal

structure Duration where
  nanoseconds : Nat
deriving DecidableEq

namespace Duration

def zero : Duration := ⟨0⟩

/-- The greatest duration that a setting may have: 2⁶⁴ seconds less a nanosecond. -/
def greatest : Duration := ⟨18446744073709551616 * 1000000000 - 1⟩

/-- A number of seconds and of nanoseconds. -/
def of (seconds nanoseconds : Nat) : Duration := ⟨seconds * 1000000000 + nanoseconds⟩

/-- The whole seconds of a duration. -/
def seconds (d : Duration) : Nat := d.nanoseconds / 1000000000

/-- The nanoseconds after the whole seconds. -/
def subseconds (d : Duration) : Nat := d.nanoseconds % 1000000000

instance : LE Duration := ⟨fun d e => d.nanoseconds ≤ e.nanoseconds⟩

instance : LT Duration := ⟨fun d e => d.nanoseconds < e.nanoseconds⟩

instance (d e : Duration) : Decidable (d ≤ e) :=
  inferInstanceAs (Decidable (d.nanoseconds ≤ e.nanoseconds))

instance (d e : Duration) : Decidable (d < e) :=
  inferInstanceAs (Decidable (d.nanoseconds < e.nanoseconds))

theorem of_seconds_subseconds (d : Duration) : of d.seconds d.subseconds = d := by
  simp only [of, seconds, subseconds, Nat.div_add_mod']

end Duration

end Clausal
