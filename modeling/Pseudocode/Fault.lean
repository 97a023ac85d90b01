namespace Pseudocode

/-- What can stop the work on a text before it is done. -/
inductive Fault where
  /-- A place before the start of a text was asked for. -/
  | placeOutsideText
  /-- A placeholder stands in the text that nothing was ever stored under. -/
  | unknownPlaceholder
  /-- A name fits an inline built-in letter by letter, but its small spelling names none. -/
  | unlistedBuiltin
  /-- A name fits a record type letter by letter, but its small spelling names none. -/
  | unlistedRecord
  /-- An inline built-in takes fewer arguments than its form needs. -/
  | missingArgument
  /-- A text is stored, directly or through others, inside itself. -/
  | endlessNesting
  deriving DecidableEq, Repr

end Pseudocode
