import LayeredConfig.Number.Numeral
import LayeredConfig.Text.Utf8
import LayeredConfig.Time.Calendar
import LayeredConfig.Yaml.Cursor

/-!
# What stops the reading of a YAML text

A problem of the text has a place.  A value that is written well but cannot be
built, such as the thirtieth of February, is an error of another kind, and so are
bytes of a file that are no text.
-/

namespace LayeredConfig.Yaml

/-- What is wrong at a place of a text. -/
inductive Problem where
  /-- No token starts with this character. -/
  | noToken
  /-- A key has no colon on its line. -/
  | keyWithoutColon
  /-- An entry of a sequence may not start here. -/
  | entryNotAllowed
  /-- A key may not start here. -/
  | keyNotAllowed
  /-- A value may not start here. -/
  | valueNotAllowed
  /-- A directive is not well written. -/
  | badDirective
  /-- The name of an anchor is not well written. -/
  | badAnchor
  /-- A tag is not well written. -/
  | badTag
  /-- The head of a block of text is not well written. -/
  | badBlockHead
  /-- There is no escape like this. -/
  | badEscape
  /-- A text in quotes is not closed. -/
  | openQuote
  /-- A document ends within quotes. -/
  | separatorInQuotes
  /-- A document has to start here. -/
  | noDocumentStart
  /-- A directive comes twice. -/
  | doubleDirective
  /-- The document is of another version of the language. -/
  | foreignVersion
  /-- A tag has an unknown handle. -/
  | unknownHandle
  /-- A value has to stand here. -/
  | noContent
  /-- A collection has to end here. -/
  | noBlockEnd
  /-- A comma or a closing bracket has to stand here. -/
  | noFlowEnd
  /-- No value has this anchor. -/
  | unknownAnchor
  /-- Two values have one anchor. -/
  | doubleAnchor
  /-- A second document starts here. -/
  | secondDocument
  /-- The value is not of the kind that its tag asks for. -/
  | wrongContent
  /-- The key can be changed. -/
  | changeableKey
  /-- What is merged is no mapping. -/
  | unmergeable
  /-- Nothing is known of the tag. -/
  | unknownTag
  /-- A text holds no bytes. -/
  | badBytes
deriving DecidableEq

/-- Why a value that is written well cannot be built. -/
inductive ValueFault where
  /-- A number cannot be read. -/
  | numeral (e : NumeralError)
  /-- A number has no digits. -/
  | noDigits
  /-- A word is no truth value. -/
  | noTruth (word : String)
  /-- A text is no date. -/
  | noDate
  /-- Date and time are not on the calendar. -/
  | calendar (e : CalendarError)
  /-- A number is no code of a character. -/
  | noCharacter
  /-- A number is far too great for the code of a character. -/
  | hugeCharacter
  /-- A part of a number counts more than any double is. -/
  | hugePart
deriving DecidableEq

/-- The error in words. -/
def ValueFault.message : ValueFault → String
  | numeral e => e.message
  | noDigits => "string index out of range"
  | noTruth word => Text.quoted word
  | noDate => "'NoneType' object has no attribute 'groupdict'"
  | calendar e => e.message
  | noCharacter => "chr() arg not in range(0x110000)"
  | hugeCharacter => "Python int too large to convert to C int"
  | hugePart => "int too large to convert to float"

/-- Why a text breaks off. -/
inductive Cut where
  /-- A control character follows. -/
  | control
  /-- The bytes that follow are no text. -/
  | encoding (e : Text.Utf8Error)
deriving DecidableEq

/-- Why a text is not read. -/
inductive Stop where
  /-- Something is wrong at a place. -/
  | problem (p : Problem) (mark : Mark)
  /-- The text breaks off. -/
  | cut (c : Cut)
  /-- A value cannot be built. -/
  | value (e : ValueFault)
deriving DecidableEq

end LayeredConfig.Yaml
