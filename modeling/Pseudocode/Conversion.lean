import Pseudocode.Notice
import Pseudocode.Placeholder

namespace Pseudocode

/-- What is carried along while a line is converted: the parts held back and the notices given
so far. -/
structure Desk where
  store : Store := {}
  notices : Array Notice := #[]
  deriving DecidableEq, Repr

/-- Conversion of a text. Notices given before a fault are kept. -/
abbrev Conversion := ExceptT Fault (StateM Desk)

namespace Conversion

def notify (notice : Notice) : Conversion Unit :=
  modify fun desk => { desk with notices := desk.notices.push notice }

def hold (part : Held) : Conversion Text :=
  modifyGet fun desk =>
    let (store, placeholder) := desk.store.hold part
    (placeholder, { desk with store })

def mask (text : Text) : Conversion Text :=
  modifyGet fun desk =>
    let (store, masked) := desk.store.mask text
    (masked, { desk with store })

def restore (text : Text) : Conversion Text := do
  match (← get).store.restore text with
  | .ok restored => return restored
  | .error fault => throw fault

/-- A piece with a rendered table in place of its placeholder. -/
def expandPiece (render : List Entry → Conversion Text) : Piece → Conversion Text
  | .plain c => return [c]
  | .placeholder index written => do
    match (← get).store.held[index]? with
    | some (.table entries) => render entries
    | some (.literal _) => return written
    | none => throw .unknownPlaceholder

def expandOnce (render : List Entry → Conversion Text) (text : Text) : Conversion Text := do
  return (← (pieces text).mapM (expandPiece render)).flatten

/-- Renders tables until none is left to render, in at most `rounds` rounds. -/
def expandWithin (render : List Entry → Conversion Text) : (rounds : Nat) → Text → Conversion Text
  | 0, _ => throw .endlessNesting
  | rounds + 1, text => do
    let expanded ← expandOnce render text
    if expanded = text then return text else expandWithin render rounds expanded

/-- The text with its tables rendered. -/
def expand (render : List Entry → Conversion Text) (text : Text) : Conversion Text := do
  expandWithin render ((← get).store.roundLimit text) text

end Conversion

end Pseudocode
