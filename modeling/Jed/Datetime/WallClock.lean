import Jed.Datetime.Trunc

/-!
# Wall clocks

Between instants and the readings of the clocks of a zone (`timezone.rs:878-942`), whatever function of
the instant the offset of the zone is.
-/

namespace Jed.Datetime

instance (m : ℤ) : Decidable (IsFinite m) := inferInstanceAs (Decidable (_ ∧ _))

variable {offset : ℤ → ℤ} {w t i : ℤ}

end Jed.Datetime
