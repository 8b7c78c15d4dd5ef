import LayeredConfig.Yaml.Problem

/-!
# Tokens

The tokens of a YAML text: the brackets and marks of collections, those that are
written and those that follow from indentation, and the parts of values.
-/

namespace LayeredConfig.Yaml

/-- A directive in front of a document. -/
inductive Directive where
  /-- The version of the language. -/
  | version (major minor : Nat)
  /-- What a handle of tags stands for. -/
  | handle (handle expansion : String)
  /-- Any other directive, which says nothing. -/
  | other
deriving DecidableEq, Inhabited

/-- A tag as it is written: a handle, if there is one, and the rest. -/
structure WrittenTag where
  /-- The handle. -/
  handle : Option String
  /-- The rest. -/
  suffix : String
deriving DecidableEq, Inhabited

/-- What a token is. -/
inductive TokenKind where
  /-- The end of the text. -/
  | streamEnd
  /-- A directive. -/
  | directive (d : Directive)
  /-- Three dashes. -/
  | documentStart
  /-- Three points. -/
  | documentEnd
  /-- A sequence starts by its indentation. -/
  | blockSequenceStart
  /-- A mapping starts by its indentation. -/
  | blockMappingStart
  /-- A collection ends by the indentation. -/
  | blockEnd
  /-- The opening bracket of a sequence. -/
  | flowSequenceStart
  /-- The closing bracket of a sequence. -/
  | flowSequenceEnd
  /-- The opening brace of a mapping. -/
  | flowMappingStart
  /-- The closing brace of a mapping. -/
  | flowMappingEnd
  /-- A dash in front of an entry. -/
  | blockEntry
  /-- A comma. -/
  | flowEntry
  /-- A key follows. -/
  | key
  /-- A value follows. -/
  | value
  /-- A reference to an anchor. -/
  | alias (name : String)
  /-- An anchor. -/
  | anchor (name : String)
  /-- A tag. -/
  | tag (t : WrittenTag)
  /-- A text, plain or with marks around it. -/
  | scalar (plain : Bool) (text : String)
deriving DecidableEq, Inhabited

/-- A token with its place. -/
structure Token where
  /-- What it is. -/
  kind : TokenKind
  /-- Where it starts. -/
  start : Mark
  /-- Where it stops. -/
  stop : Mark
deriving DecidableEq, Inhabited

end LayeredConfig.Yaml
