import Pseudocode.Fault
import Pseudocode.Text.Blank

namespace Pseudocode

/-- A place of a Lua table: a value text, under a name or by position. -/
structure Entry where
  name : Option Text
  value : Text
  deriving DecidableEq, Repr

/-- A part of a line that later steps must not see: a string or character literal, or the
table made from a record. -/
inductive Held where
  | literal (text : Text)
  | table (entries : List Entry)
  deriving DecidableEq, Repr

/-- The parts of a line that are held back, by index. -/
structure Store where
  held : Array Held := #[]
  deriving DecidableEq, Repr

namespace Placeholder

def opening : Char := '\ue000'

def closing : Char := '\ue001'

def radix : Nat := 256

/-- Indices are written with private characters in place of digits. -/
def digit (d : Nat) : Char :=
  Char.ofNat (0xe100 + d)

def isDigit (c : Char) : Bool :=
  0xe100 ≤ c.toNat && c.toNat ≤ 0xe1ff

/-- The digits of an index, the highest first. -/
def encode (index : Nat) : Text :=
  if index < radix then [digit index] else encode (index / radix) ++ [digit (index % radix)]
termination_by index
decreasing_by
  rename_i large
  unfold radix at *
  omega

def decode (digits : Text) : Nat :=
  digits.foldl (fun value c => value * radix + (c.toNat - 0xe100)) 0

/-- The text that stands for what is held at `index`. It has no letter, digit, bracket or
operator, so no pattern of the language matches inside. -/
def write (index : Nat) : Text :=
  opening :: encode index ++ [closing]

/-- The digits of a placeholder at the start of a text. -/
def digits? : Text → Option Text
  | [] => none
  | c :: rest =>
    let digits := rest.takeWhile isDigit
    if c = opening ∧ ¬digits.isEmpty ∧ (rest.dropWhile isDigit).head? = some closing then some digits
    else none

/-- The index in a text that is one placeholder, blanks around it aside. -/
def index? (text : Text) : Option Nat :=
  let trimmed := trim text
  (digits? trimmed).bind fun digits =>
    if digits.length + 2 = trimmed.length then some (decode digits) else none

def isPlaceholder (text : Text) : Bool :=
  (index? text).isSome

/-- A placeholder stands somewhere in the text. -/
def occursIn : Text → Bool
  | [] => false
  | c :: rest => (digits? (c :: rest)).isSome || occursIn rest

end Placeholder

/-- A character of a text, or a placeholder in it as it is written. -/
inductive Piece where
  | plain (c : Char)
  | placeholder (index : Nat) (written : Text)
  deriving DecidableEq, Repr

/-- The pieces of a text, its first `skip` characters left out. -/
def piecesFrom : (skip : Nat) → Text → List Piece
  | _, [] => []
  | skip + 1, _ :: rest => piecesFrom skip rest
  | 0, c :: rest =>
    match Placeholder.digits? (c :: rest) with
    | some digits =>
      .placeholder (Placeholder.decode digits)
          (Placeholder.opening :: digits ++ [Placeholder.closing]) ::
        piecesFrom (digits.length + 1) rest
    | none => .plain c :: piecesFrom 0 rest

def pieces (text : Text) : List Piece :=
  piecesFrom 0 text

/-- The rest of a double-quoted literal through its closing quote. A backslash takes the next
character along, unless that is a line feed. -/
def doubleQuotedRest? : Text → Option Text
  | [] => none
  | ['\\'] => none
  | '\\' :: c :: rest =>
    if c = '\n' then none else (doubleQuotedRest? rest).map fun tail => '\\' :: c :: tail
  | c :: rest => if c = '"' then some [c] else (doubleQuotedRest? rest).map (c :: ·)

/-- The string or character literal at the start of a text. -/
def literal? : Text → Option Text
  | '"' :: rest => (doubleQuotedRest? rest).map ('"' :: ·)
  | '\'' :: '\\' :: c :: '\'' :: _ => if c = '\n' then none else some ['\'', '\\', c, '\'']
  | '\'' :: c :: '\'' :: _ => if c = '\\' ∨ c = '\'' then none else some ['\'', c, '\'']
  | _ => none

namespace Store

/-- Holds a part back, and gives the placeholder that stands for it. -/
def hold (store : Store) (part : Held) : Store × Text :=
  ({ held := store.held.push part }, Placeholder.write store.held.size)

/-- What the placeholder that makes up a text stands for. -/
def get? (store : Store) (text : Text) : Option Held :=
  (Placeholder.index? text).bind fun index => store.held[index]?

/-- The text begins with the placeholder of a literal. -/
def startsWithLiteral (store : Store) (text : Text) : Bool :=
  match Placeholder.digits? (trimLeft text) with
  | some digits =>
    match store.held[Placeholder.decode digits]? with
    | some (.literal _) => true
    | _ => false
  | none => false

/-- Every literal of a text becomes a placeholder, its first `skip` characters left out. -/
def maskFrom : Store → (skip : Nat) → Text → Store × Text
  | store, _, [] => (store, [])
  | store, skip + 1, _ :: rest => maskFrom store skip rest
  | store, 0, c :: rest =>
    match literal? (c :: rest) with
    | some literal =>
      let (store, placeholder) := store.hold (.literal literal)
      let (store, masked) := maskFrom store (literal.length - 1) rest
      (store, placeholder ++ masked)
    | none =>
      let (store, masked) := maskFrom store 0 rest
      (store, c :: masked)

def mask (store : Store) (text : Text) : Store × Text :=
  store.maskFrom 0 text

/-- A piece with a literal in place of its placeholder. -/
def restorePiece (store : Store) : Piece → Except Fault Text
  | .plain c => .ok [c]
  | .placeholder index written =>
    match store.held[index]? with
    | some (.literal text) => .ok text
    | some (.table _) => .ok written
    | none => .error .unknownPlaceholder

def restoreOnce (store : Store) (text : Text) : Except Fault Text :=
  ((pieces text).mapM store.restorePiece).map List.flatten

/-- Puts literals back until none is left to put back, in at most `rounds` rounds. -/
def restoreWithin (store : Store) : (rounds : Nat) → Text → Except Fault Text
  | 0, _ => .error .endlessNesting
  | rounds + 1, text =>
    match store.restoreOnce text with
    | .ok restored => if restored = text then .ok text else restoreWithin store rounds restored
    | .error fault => .error fault

/-- More rounds than putting back can take: a literal that is not stored inside itself holds a
chain of others that is no longer than the store. -/
def roundLimit (store : Store) (text : Text) : Nat :=
  store.held.size + text.length + 2

/-- The text with its literals put back. -/
def restore (store : Store) (text : Text) : Except Fault Text :=
  store.restoreWithin (store.roundLimit text) text

end Store

end Pseudocode
