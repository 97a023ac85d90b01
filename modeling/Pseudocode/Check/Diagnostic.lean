import Pseudocode.Text.Basic

namespace Pseudocode

inductive Severity where
  | error
  | warning
  deriving DecidableEq, Repr

def Severity.name : Severity → String
  | .error => "error"
  | .warning => "warning"

/-- What is wrong with a source. -/
inductive Finding where
  | undeclared (name : Text)
  | wrongArity (name : Text) (expected given : Nat)
  | openParenthesis
  | openBlock
  deriving DecidableEq, Repr

namespace Finding

def severity : Finding → Severity
  | undeclared _ => .error
  | wrongArity _ _ _ => .error
  | openParenthesis => .warning
  | openBlock => .warning

def message : Finding → String
  | undeclared name =>
    s!"L'identifiant '{String.ofList name}' est utilisé avant d'avoir reçu une valeur."
  | wrongArity name expected given =>
    s!"La fonction '{String.ofList name}' attend {expected} argument(s), {given} fourni(s)."
  | openParenthesis => "Parenthèse ouvrante sans parenthèse fermante."
  | openBlock => "Bloc ouvert sans 'Fin' correspondant."

end Finding

/-- A finding with its line and its columns, all counted from zero; the end column is past the
last character. -/
structure Diagnostic where
  line : Nat
  column : Nat
  endColumn : Nat
  finding : Finding
  deriving DecidableEq, Repr

/-- The diagnostic on one line, with places counted from one. -/
def Diagnostic.format (diagnostic : Diagnostic) (file : Text) : Text :=
  file ++ s!":{diagnostic.line + 1}:{diagnostic.column + 1}: ".toList ++
    s!"{diagnostic.finding.severity.name}: {diagnostic.finding.message}".toList

end Pseudocode
