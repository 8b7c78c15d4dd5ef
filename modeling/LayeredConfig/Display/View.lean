import LayeredConfig.Layout.Outline
import LayeredConfig.Layout.Wrap
import LayeredConfig.Path.Flat
import LayeredConfig.Store.Basic
import LayeredConfig.Template.Text
import LayeredConfig.Value.Sorting

/-!
# Showing a configuration

The definition and the resolved tree are shown side by side, nested or with
dotted keys, in their own order or sorted, whole or only as far as something in
them is unresolved.
-/

namespace LayeredConfig

/-- What is shown of a configuration. -/
structure ViewOptions where
  /-- Dotted keys instead of nested mappings. -/
  flat : Bool
  /-- Keys in order. -/
  sorted : Bool
  /-- Only what is undefined or still holds a placeholder. -/
  debug : Bool
deriving Inhabited

/-- Why a configuration cannot be shown. -/
inductive ViewError where
  /-- One of the trees has no leaves by path. -/
  | flatten (e : FlattenError)
  /-- A leaf has no text form to look for placeholders in. -/
  | unwritable (e : Unwritable)
  /-- A mapping of the resolved tree is met again below itself. -/
  | endless
  /-- A leaf of the resolved tree is met again inside itself. -/
  | circular
deriving DecidableEq

/-- The error in words. -/
def ViewError.message : ViewError → String
  | flatten e => e.message
  | unwritable e => e.message
  | endless => "maximum recursion depth exceeded"
  | circular => "Circular reference detected"

namespace View

/-- The value is undefined or holds a placeholder (`_is_unresolved`). -/
def isUnresolved : Value → Except Unwritable Bool
  | .atom .undefined => .ok true
  | v => (Template.text v).map fun s => Template.hasPlaceholder s.toList

/-- The leaves in the order of their paths. -/
def sortLeaves (flat : Flat Unit) : Flat Unit :=
  flat.mergeSort fun a b =>
    !Atom.lessList (b.1.toList.map Char.toNat) (a.1.toList.map Char.toNat)

/-- The leaves that are unresolved. -/
def unresolvedLeaves : Flat Unit → Except Unwritable (Flat Unit)
  | [] => .ok []
  | (path, v) :: rest => do
    let keep ← isUnresolved v
    let others ← unresolvedLeaves rest
    return if keep then (path, v) :: others else others

/-- The leaves of a tree that are shown (`_select`). -/
def select (o : ViewOptions) (tree : Value) : Except ViewError (Flat Unit) := do
  let leaves ← (tree.flatten "").mapError .flatten
  let ordered := if o.sorted then sortLeaves leaves else leaves
  if o.debug then (unresolvedLeaves ordered).mapError .unwritable else return ordered

/-- The mapping that is shown. -/
def tree (o : ViewOptions) (definition resolved : Value) : Except ViewError Value := do
  let config ← select o definition
  let data ← select o resolved
  let both : List (Key × Value) :=
    [(.str "config", .map () config.toEntries), (.str "data", .map () data.toEntries)]
  if o.flat then return .map () (Tree.flattenEntries "" both).toEntries
  else return .map () (Tree.unflattenEntries both)

/-- A value on a page of the given width, each line wrapped. -/
def layout (expandAll : Bool) (width : Nat) (v : Value) : String :=
  let lines := (Layout.ofTree v).render ⟨expandAll, width⟩
  String.ofList ((lines.flatMap (Layout.wrap width)).flatMap fun l => l ++ ['\n'])

/-- The definition and the resolved tree as text (`render_tree`). -/
def render (o : ViewOptions) (width : Nat) (definition resolved : Value) :
    Except ViewError String :=
  (tree o definition resolved).map (layout (!o.flat) width)

/-- The width of a page unless another one is given. -/
def defaultWidth : Nat := 120

end View

/-- The trees of a store as text (`render`).  The leaves of a resolved tree whose mappings have no end
are never all found, and with debugging a leaf without end has no text form. -/
def Store.render {σ φ : Type} (s : Store σ φ) (o : ViewOptions) : Except ViewError String :=
  if s.resolved.isEndless false [] then .error .endless
  else if o.debug && s.resolved.isEndless true [] then .error .circular
  else View.render o View.defaultWidth s.definition s.resolved.erase

end LayeredConfig
