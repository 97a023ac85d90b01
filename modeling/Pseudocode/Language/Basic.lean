import Pseudocode.Text.Blank
import Pseudocode.Text.Lowercase

namespace Pseudocode

/-- A built-in type: its accented spelling, every accepted spelling, and the Lua literal that
fills a fresh array of it. -/
structure TypeName where
  name : Text
  spellings : List Text
  zero : Option Text := none
  deriving DecidableEq, Repr

inductive KeywordKind where
  | control
  | block
  | boolean
  | operator
  | io
  | modifier
  | other
  deriving DecidableEq, Repr

structure Keyword where
  name : Text
  kind : KeywordKind
  lua : Option Text := none
  deriving DecidableEq, Repr

/-- A built-in function. A mutator gives back the structure it changed, and an inline function
has no helper of its own name but a Lua operator or a library call. -/
structure Builtin where
  name : Text
  arity : Nat
  helper : Text
  mutates : Bool := false
  inline : Bool := false
  description : Text := []
  deriving DecidableEq, Repr

/-- A spelling and what stands for it in Lua: a whole word in any letter case, or a symbol. -/
structure Spelling where
  source : Text
  target : Text
  isWord : Bool := true
  deriving DecidableEq, Repr

/-- What the pseudo-code language consists of. -/
structure Language where
  types : List TypeName
  keywords : List Keyword
  builtins : List Builtin
  spellings : List Spelling
  extraNames : List Text := []
  deriving DecidableEq, Repr

/-- The last element that satisfies a condition. -/
def findLast? {α : Type} (holds : α → Bool) (items : List α) : Option α :=
  items.reverse.find? holds

/-- The texts in increasing order, each once. -/
def sortedNames (names : List Text) : List Text :=
  (names.mergeSort inOrder).eraseReps

namespace Language

/-- The type a spelling stands for, blanks around it and letter case aside. Of two types with one
spelling the later counts. -/
def typeNamed? (language : Language) (spelling : Text) : Option TypeName :=
  findLast? (fun type => type.spellings.any fun s => lower s = lower (trim spelling))
    language.types

/-- The accented spelling of a built-in type; other names stay, trimmed. -/
def normalizeType (language : Language) (spelling : Text) : Text :=
  match language.typeNamed? spelling with
  | some type => type.name
  | none => trim spelling

def zeroValue? (language : Language) (spelling : Text) : Option Text :=
  (language.typeNamed? spelling).bind (·.zero)

/-- Every spelling of a type, in small letters. -/
def typeSpellings (language : Language) : List Text :=
  (language.types.flatMap (·.spellings)).map lower

/-- The built-in function of a name in any letter case. Of two with one name the later counts. -/
def builtin? (language : Language) (name : Text) : Option Builtin :=
  findLast? (fun builtin => lower builtin.name = lower name) language.builtins

def builtinsLongestFirst (language : Language) : List Builtin :=
  language.builtins.mergeSort fun a b => b.name.length ≤ a.name.length

def mutators (language : Language) : List Builtin :=
  language.builtinsLongestFirst.filter (·.mutates)

def keywordNames (language : Language) : List Text :=
  language.keywords.map (·.name)

def keywordNamesOf (language : Language) (kind : KeywordKind) : List Text :=
  (language.keywords.filter (·.kind = kind)).map (·.name)

/-- Names that are never variables of a program. -/
def knownNames (language : Language) : List Text :=
  language.keywordNames ++ language.typeSpellings ++
    language.builtins.map (fun builtin => lower builtin.name) ++ language.extraNames

end Language

end Pseudocode
