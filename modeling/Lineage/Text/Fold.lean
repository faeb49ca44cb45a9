import Lineage.Text.Lowercase

/-! # Folding

Names are compared in folded form: without blanks at the ends and in lower case. -/

namespace Lineage

/-- The form in which names are stored and compared. -/
def fold (name : String) : String :=
  String.ofList (Text.lower (Text.trim name.toList))

end Lineage
