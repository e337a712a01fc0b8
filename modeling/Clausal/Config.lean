import Clausal.Binary64
import Clausal.Duration
import Clausal.Setting

/-!
# Configuration of the search

The settings of the built-in oracle. The two probabilities are numbers from 0 to 1, and a time
limit of zero is no limit.
-/

namespace Clausal

structure Config where
  /-- The probability that a decided atom without a saved value is made true. -/
  polarityBias : Setting Binary64
  /-- The probability that the atom to decide is drawn at random. -/
  decisionBias : Setting Binary64
  /-- Whether a decided atom takes the value that it had last. -/
  phaseSaving : Setting Bool
  timeLimit : Setting Duration
  /-- The seed of the random words. -/
  seed : Setting Nat

namespace Config

/-- The settings at their first values: no randomness, phase saving, no time limit. -/
def default : Config where
  polarityBias := ⟨"polarity_lean", .zero, .one, .zero⟩
  decisionBias := ⟨"random_decision_bias", .zero, .one, .zero⟩
  phaseSaving := ⟨"phase_saving", false, true, true⟩
  timeLimit := ⟨"time_limit", .zero, .greatest, .zero⟩
  seed := ⟨"seed", 0, 18446744073709551615, 0⟩

/-- The time limit, if there is one. -/
def limit? (c : Config) : Option Duration :=
  if c.timeLimit.value = .zero then none else some c.timeLimit.value

end Config

end Clausal
