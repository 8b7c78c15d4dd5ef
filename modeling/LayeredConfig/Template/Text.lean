import LayeredConfig.Json.Writer
import LayeredConfig.Template.Placeholder

/-!
# Values inside a text

How a value looks when it becomes part of a text: texts as they are, containers
as JSON, the rest by its written form.
-/

namespace LayeredConfig

namespace Template

variable {α : Type}

/-- The text form of a value (`to_text`). -/
def text : Tree α → Except Unwritable String
  | .atom .undefined => .ok "undefined"
  | .atom .null => .ok "null"
  | .atom (.bool b) => .ok (if b then "true" else "false")
  | .atom a => a.text?
  | .set members => Json.setText? members
  | t => Json.text? t

/-- The value is a text with a placeholder. -/
def isTemplate : Tree α → Bool
  | .atom (.str s) => hasPlaceholder s.toList
  | _ => false

end Template

end LayeredConfig
