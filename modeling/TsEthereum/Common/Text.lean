import Mathlib.Data.List.Infix

/-!
# Text

What the source does with strings that several modules use.
-/

namespace TsEthereum

/-- `text.includes(part)`. -/
def includes (text part : String) : Bool := decide (part.toList <:+: text.toList)

end TsEthereum
