import Pseudocode.Check.Diagnostic
import Pseudocode.Identifier

namespace Pseudocode

/-- The state of a check: the scope of the whole program, the scopes inside it from the innermost
on, and what was found. A function header waits for the beginning of its block. -/
structure Scopes where
  inner : List (List Text) := []
  outer : List Text := []
  pending : Bool := false
  inHeader : Bool := false
  diagnostics : List Diagnostic := []
  deriving DecidableEq, Repr

namespace Scopes

def push (scopes : Scopes) (names : List Text) (pending : Bool) : Scopes :=
  { scopes with inner := names :: scopes.inner, pending }

/-- Leaves the innermost scope. That of the whole program is never left. -/
def pop (scopes : Scopes) : Scopes :=
  { scopes with inner := scopes.inner.tail, pending := false }

/-- Declares names in the innermost scope. -/
def declare (scopes : Scopes) (names : List Text) : Scopes :=
  match scopes.inner with
  | [] => { scopes with outer := names ++ scopes.outer }
  | scope :: inner => { scopes with inner := (names ++ scope) :: inner }

def declares (scopes : Scopes) (name : Text) : Bool :=
  scopes.inner.any (·.contains name) || scopes.outer.contains name

def report (scopes : Scopes) (diagnostics : List Diagnostic) : Scopes :=
  { scopes with diagnostics := scopes.diagnostics ++ diagnostics }

end Scopes

end Pseudocode
