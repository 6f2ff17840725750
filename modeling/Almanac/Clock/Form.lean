import Almanac.Clock.Pattern
import Almanac.Clock.Text
import Almanac.Text.Form

/-!
# Dates and readings as values

Dates and readings in the class of values with a written form.
-/

namespace Almanac

instance : TextForm Date := ⟨Date.text, Date.read⟩

/-- A reading is written with a blank between date and time and read with `T`. -/
instance : TextForm Reading := ⟨Reading.text, Reading.read⟩

end Almanac
