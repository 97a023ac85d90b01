import Pseudocode.Proofs.Lexeme

namespace Pseudocode

variable {α : Type}

/-- What stands between two operands. -/
inductive Operator where
  | equal
  | unequal
  | less
  | greater
  | atMost
  | atLeast
  | both
  | either
  | remainder
  | quotient
  | plus
  | minus
  | times
  | over
  deriving DecidableEq, Repr

/-- What stands before an operand. -/
inductive Connective where
  | negation
  | operator (operator : Operator)
  deriving DecidableEq, Repr

/-- An operand without parts: a variable or a field of one, a number, a truth value, or a string
literal that is known by its label. -/
inductive Atom (α : Type) where
  | path (names : List Text)
  | numeral (digits : List Text)
  | truth (value : Bool)
  | literal (label : α)
  deriving DecidableEq, Repr

/-- What a built-in on strings is in Lua, where it is no call of a helper. -/
inductive Inline where
  | concatenation
  | length
  | character
  | substring
  deriving DecidableEq, Repr

/-- What a bracketed list of items is. -/
inductive Group where
  | call (name : Text)
  | record (name : Text)
  | access (path : List Text)
  | array
  | list
  | paren
  | inline (form : Inline) (name : Text)
  deriving DecidableEq, Repr

/-- An expression as it is written: parentheses are groups of their own. -/
inductive Expression (α : Type) where
  | atom (operand : Atom α)
  | negation (operand : Expression α)
  | binary (operator : Operator) (left right : Expression α)
  | group (kind : Group) (items : List (Expression α))

/-- The words of a language that stand for truth values and operators. -/
@[ext] structure Words where
  truth : Bool → Text
  negation : Text
  operator : Operator → Text

/-- A connective with the blanks around it. -/
def Words.opening (words : Words) : Connective → Text
  | .negation => words.negation ++ [' ']
  | .operator operator => ' ' :: words.operator operator ++ [' ']

/-- An item of a group as it is written: whether it is a string literal, and whether it stands for
itself, as a word or a value that has been put aside does. -/
structure Item where
  text : Text
  isLiteral : Bool
  isBare : Bool
  deriving DecidableEq, Repr

/-- A way of writing expressions: the words, and the text of a group with given items. -/
structure Dialect extends Words where
  group : Group → List Item → Text

def Atom.write {α : Type} (words : Words) (quote : α → Text) : Atom α → Text
  | .path names => dotted names
  | .numeral digits => dotted digits
  | .truth value => words.truth value
  | .literal label => quote label

namespace Expression

variable {α : Type}

def isLiteral : Expression α → Bool
  | .atom (.literal _) => true
  | _ => false

/-- A word, or a value that is put aside while the expression is converted. -/
def isBare : Expression α → Bool
  | .atom (.path names) => names.length = 1
  | .atom (.truth _) => true
  | .atom (.literal _) => true
  | .group (.record _) _ => true
  | _ => false

/-- In parentheses of its own this would be a list of one item. -/
def isListItem : Expression α → Bool
  | .atom (.path names) => names.length = 1
  | .atom _ => true
  | .group (.record _) _ => true
  | .group .list _ => true
  | _ => false

mutual

/-- An expression written in a dialect, with single blanks around operators. -/
def write (dialect : Dialect) (quote : α → Text) : Expression α → Text
  | .atom operand => operand.write dialect.toWords quote
  | .negation operand => dialect.opening .negation ++ operand.write dialect quote
  | .binary operator left right =>
    left.write dialect quote ++ (dialect.opening (.operator operator) ++ right.write dialect quote)
  | .group kind items => dialect.group kind (writeItems dialect quote items)

def writeItems (dialect : Dialect) (quote : α → Text) : List (Expression α) → List Item
  | [] => []
  | item :: items =>
    { text := item.write dialect quote, isLiteral := item.isLiteral, isBare := item.isBare } ::
      writeItems dialect quote items

end

end Expression

/-- The words of the pseudo-code. -/
def Words.source : Words where
  truth value := if value then "vrai".toList else "faux".toList
  negation := "non".toList
  operator
    | .equal => "=".toList
    | .unequal => "≠".toList
    | .less => "<".toList
    | .greater => ">".toList
    | .atMost => "≤".toList
    | .atLeast => "≥".toList
    | .both => "et".toList
    | .either => "ou".toList
    | .remainder => "mod".toList
    | .quotient => "÷".toList
    | .plus => "+".toList
    | .minus => "-".toList
    | .times => "*".toList
    | .over => "/".toList

/-- The words of Lua. -/
def Words.lua : Words where
  truth value := if value then "true".toList else "false".toList
  negation := "not".toList
  operator
    | .equal => "==".toList
    | .unequal => "~=".toList
    | .less => "<".toList
    | .greater => ">".toList
    | .atMost => "<=".toList
    | .atLeast => ">=".toList
    | .both => "and".toList
    | .either => "or".toList
    | .remainder => "%".toList
    | .quotient => "//".toList
    | .plus => "+".toList
    | .minus => "-".toList
    | .times => "*".toList
    | .over => "/".toList

def itemTexts (items : List Item) : Text :=
  commaSeparated (items.map (·.text))

namespace Inline

def names : Inline → List Text
  | .concatenation => ["concat".toList]
  | .length => ["longueur".toList]
  | .character => ["ième".toList, "ieme".toList]
  | .substring => ["souschaîne".toList, "souschaine".toList]

def arity : Inline → Nat
  | .concatenation => 2
  | .length => 1
  | .character => 2
  | .substring => 3

/-- The operator of Lua that joins strings, with blanks around it. -/
def joint : Text :=
  [' ', '.', '.', ' ']

/-- The function of Lua that takes a part of a string. -/
def library : Text :=
  "string.sub".toList

/-- The operator or the library call. A single character is a part that ends where it starts. -/
def text : Inline → List Item → Text
  | .concatenation, [first, second] => first.text ++ (joint ++ second.text)
  | .length, [item] => '#' :: if item.isBare then item.text else '(' :: item.text ++ [')']
  | .character, [subject, place] =>
    library ++ '(' :: commaSeparated [subject.text, place.text, place.text] ++ [')']
  | .substring, items => library ++ '(' :: itemTexts items ++ [')']
  | _, _ => []

end Inline

/-- How far groups have been converted: whether lists have been built, whether built-ins on strings
are spelled out, what functions are called, and how a record with given values is written. -/
structure Shape where
  listed : Bool
  inlined : Bool
  rename : Text → Text
  record : Text → List Text → Text

/-- An index in brackets of its own. Numbers count from one, strings are keys. -/
def Item.index (item : Item) : Text :=
  if item.isLiteral then '[' :: item.text ++ [']']
  else "[(".toList ++ item.text ++ ") + 1]".toList

namespace Shape

variable (shape : Shape)

/-- A group as long as its square brackets are those of the pseudo-code. -/
def group : Group → List Item → Text
  | .call name, items => shape.rename name ++ '(' :: itemTexts items ++ [')']
  | .record name, items => shape.record name (items.map (·.text))
  | .access path, items => dotted path ++ '[' :: itemTexts items ++ [']']
  | .array, items => '[' :: itemTexts items ++ [']']
  | .list, items =>
    if shape.listed then ListLiteral.build (itemTexts items) else '(' :: itemTexts items ++ [')']
  | .paren, items => '(' :: itemTexts items ++ [')']
  | .inline form name, items =>
    if shape.inlined then form.text items else name ++ '(' :: itemTexts items ++ [')']

/-- A group with the brackets of Lua. -/
def indexed : Group → List Item → Text
  | .access path, items => dotted path ++ items.flatMap Item.index
  | .array, items => ListLiteral.braced (itemTexts items)
  | kind, items => shape.group kind items

def dialect (words : Words) : Dialect where
  toWords := words
  group := shape.group

def indexedDialect (words : Words) : Dialect where
  toWords := words
  group := shape.indexed

/-- The groups of the pseudo-code. -/
def source : Shape where
  listed := false
  inlined := false
  rename := id
  record name values := name ++ '(' :: commaSeparated values ++ [')']

end Shape

namespace Context

/-- The name under which a function is called in Lua. -/
def luaName (context : Context) (name : Text) : Text :=
  if context.declares name then name
  else match context.language.builtin? name with
    | some builtin => builtin.helper
    | none => name

/-- The table of a record of the named type. -/
def luaRecord (context : Context) (name : Text) (values : List Text) : Text :=
  match context.records.get? name with
  | some type => ListLiteral.braced (commaSeparated (fieldTexts type.fieldNames values))
  | none => []

end Context

/-- The groups of Lua. -/
def Shape.lua (context : Context) : Shape where
  listed := true
  inlined := true
  rename := context.luaName
  record := context.luaRecord

/-- The pseudo-code. -/
def Dialect.source : Dialect :=
  Shape.source.dialect .source

/-- Lua, as far as expressions become it. -/
def Dialect.lua (context : Context) : Dialect :=
  (Shape.lua context).indexedDialect .lua

/-- What expressions may be made of: the labels of literals, groups by the number of their items,
and the groups that may be operands. -/
structure Grammar (α : Type) where
  admits : α → Prop
  allows : Group → (count : Nat) → Prop
  operand : Group → Prop

def Atom.Proper {α : Type} (admits : α → Prop) : Atom α → Prop
  | .path names => names ≠ [] ∧ ∀ name ∈ names, isVariableName name = true
  | .numeral digits => isNumeral digits = true
  | .truth _ => True
  | .literal label => admits label

def Expression.MayOperate {α : Type} (grammar : Grammar α) : Expression α → Prop
  | .group kind _ => grammar.operand kind
  | _ => True

/-- Atoms, groups and operands are as they should be, and parentheses are not taken for a list. -/
inductive Expression.Proper {α : Type} (grammar : Grammar α) : Expression α → Prop
  | atom {operand : Atom α} : operand.Proper grammar.admits → Proper grammar (.atom operand)
  | negation {operand : Expression α} :
      Proper grammar operand → operand.MayOperate grammar → Proper grammar (.negation operand)
  | binary {operator : Operator} {left right : Expression α} :
      Proper grammar left → left.MayOperate grammar → Proper grammar right →
        right.MayOperate grammar → Proper grammar (.binary operator left right)
  | group {kind : Group} {items : List (Expression α)} :
      grammar.allows kind items.length → (∀ item ∈ items, Proper grammar item) →
        (kind = .paren → ∀ item ∈ items, item.isListItem = false) →
        Proper grammar (.group kind items)

/-- Atoms, groups and operands are as they should be, whatever parentheses are taken for. -/
inductive Expression.Formed {α : Type} (grammar : Grammar α) : Expression α → Prop
  | atom {operand : Atom α} : operand.Proper grammar.admits → Formed grammar (.atom operand)
  | negation {operand : Expression α} :
      Formed grammar operand → operand.MayOperate grammar → Formed grammar (.negation operand)
  | binary {operator : Operator} {left right : Expression α} :
      Formed grammar left → left.MayOperate grammar → Formed grammar right →
        right.MayOperate grammar → Formed grammar (.binary operator left right)
  | group {kind : Group} {items : List (Expression α)} :
      grammar.allows kind items.length → (∀ item ∈ items, Formed grammar item) →
        Formed grammar (.group kind items)

theorem Expression.Proper.formed {grammar : Grammar α} {expression : Expression α}
    (proper : expression.Proper grammar) : expression.Formed grammar := by
  induction proper with
  | atom proper => exact .atom proper
  | negation _ operates ih => exact .negation ih operates
  | binary _ onLeft _ onRight ihLeft ihRight => exact .binary ihLeft onLeft ihRight onRight
  | group allowed _ _ ih => exact .group allowed ih

namespace Context

/-- The name stands for a record type, whatever the letter case. -/
def namesRecord (context : Context) (name : Text) : Bool :=
  context.records.any fun pair => pair.2.name.map caseKey = name.map caseKey

/-- A function of the program, or a built-in that has a helper. Names that open a structure or
read the input are none, nor are those of record types. -/
def isFunctionName (context : Context) (name : Text) : Bool :=
  isAsciiName name && !isRespelled name && !preludeMark.isPrefixOf name &&
    !("lire".toList :: structureNames).contains (name.map caseKey) && !context.namesRecord name &&
    (context.declares name || !(context.language.builtin? name).any (·.inline))

/-- Groups that may stand in an expression, by the number of their items. -/
def Allows (context : Context) : Group → (count : Nat) → Prop
  | .call name, _ => context.isFunctionName name = true
  | .record name, _ => identifier? name = some (name, []) ∧
      ∃ type, context.records.get? name = some type ∧ name.map caseKey = type.name.map caseKey
  | .access path, count => (path ≠ [] ∧ ∀ name ∈ path, isVariableName name = true) ∧ 1 ≤ count
  | .array, count => 1 ≤ count
  | .list, count => 2 ≤ count
  | .paren, count => count = 1
  | .inline form name, count => name ∈ form.names ∧ context.declares name = false ∧
      context.namesRecord name = false ∧ count = form.arity

/-- Groups as they are written, by the number of their items: lists and groupings have any. -/
def Forms (context : Context) : Group → (count : Nat) → Prop
  | .list, count | .paren, count => 1 ≤ count
  | kind, count => context.Allows kind count

theorem Allows.forms {context : Context} {kind : Group} {count : Nat}
    (allowed : context.Allows kind count) : context.Forms kind count := by
  cases kind with
  | list => exact Nat.le_of_succ_le allowed
  | paren => exact Nat.le_of_eq (Eq.symm allowed)
  | call _ | record _ | access _ | array | inline _ _ => exact allowed

/-- The expressions of a program, whatever its parentheses are taken for. -/
def forms {α : Type} (context : Context) (admits : α → Prop) : Grammar α where
  admits
  allows := context.Forms
  operand _ := True

/-- The expressions of a program. Lists are no operands: a parenthesis after an operator groups. -/
def grammar {α : Type} (context : Context) (admits : α → Prop) : Grammar α where
  admits
  allows := context.Allows
  operand kind := kind ≠ .list

end Context

/-- One grammar has all that another has. -/
structure Grammar.Within {α : Type} (grammar other : Grammar α) : Prop where
  admits : ∀ label, grammar.admits label → other.admits label
  allows : ∀ kind count, grammar.allows kind count → other.allows kind count
  operand : ∀ kind, grammar.operand kind → other.operand kind

theorem Expression.MayOperate.mono {grammar other : Grammar α} (within : grammar.Within other)
    {expression : Expression α} (operates : expression.MayOperate grammar) :
    expression.MayOperate other := by
  cases expression with
  | group kind _ => exact within.operand kind operates
  | atom _ | negation _ | binary _ _ _ => trivial

theorem Expression.Proper.mono {grammar other : Grammar α} (within : grammar.Within other)
    {expression : Expression α} (proper : expression.Proper grammar) : expression.Proper other := by
  induction proper with
  | @atom operand proper =>
    refine .atom ?_
    cases operand with
    | literal label => exact within.admits label proper
    | path _ | numeral _ | truth _ => exact proper
  | negation _ operates ih => exact .negation ih (operates.mono within)
  | binary _ onLeft _ onRight ihLeft ihRight =>
    exact .binary ihLeft (onLeft.mono within) ihRight (onRight.mono within)
  | group allowed _ single ih => exact .group (within.allows _ _ allowed) ih single

theorem Expression.Formed.mono {grammar other : Grammar α} (within : grammar.Within other)
    {expression : Expression α} (formed : expression.Formed grammar) : expression.Formed other := by
  induction formed with
  | @atom operand proper =>
    refine .atom ?_
    cases operand with
    | literal label => exact within.admits label proper
    | path _ | numeral _ | truth _ => exact proper
  | negation _ operates ih => exact .negation ih (operates.mono within)
  | binary _ onLeft _ onRight ihLeft ihRight =>
    exact .binary ihLeft (onLeft.mono within) ihRight (onRight.mono within)
  | group allowed _ ih => exact .group (within.allows _ _ allowed) ih

theorem Context.grammar_forms (context : Context) (admits : α → Prop) :
    (context.grammar admits).Within (context.forms admits) :=
  ⟨fun _ => id, fun _ _ => Allows.forms, fun _ _ => trivial⟩

theorem Context.forms_within (context : Context) {admits others : α → Prop}
    (weaker : ∀ label, admits label → others label) :
    (context.forms admits).Within (context.forms others) :=
  ⟨weaker, fun _ _ allowed => allowed, fun _ operates => operates⟩

theorem Expression.writeItems_eq (dialect : Dialect) (quote : α → Text) (items : List (Expression α)) :
    writeItems dialect quote items = items.map fun item =>
      { text := item.write dialect quote, isLiteral := item.isLiteral, isBare := item.isBare } := by
  induction items with
  | nil => rfl
  | cons item items ih => rw [writeItems, ih, List.map_cons]

theorem Expression.itemTexts_writeItems (dialect : Dialect) (quote : α → Text) (items : List (Expression α)) :
    itemTexts (writeItems dialect quote items) =
      commaSeparated (items.map (·.write dialect quote)) := by
  simp [itemTexts, writeItems_eq, Function.comp_def]

theorem Expression.map_text_writeItems (dialect : Dialect) (quote : α → Text) (items : List (Expression α)) :
    (writeItems dialect quote items).map (·.text) = items.map (·.write dialect quote) := by
  simp [writeItems_eq, Function.comp_def]

namespace Operator

def all : List Operator :=
  [.equal, .unequal, .less, .greater, .atMost, .atLeast, .both, .either, .remainder, .quotient, .plus,
    .minus, .times, .over]

theorem mem_all (operator : Operator) : operator ∈ all := by
  cases operator <;> decide

end Operator

namespace Words

def lexemes (words : Words) : List Text :=
  words.truth true :: words.truth false :: words.negation :: Operator.all.map words.operator

/-- No word of these would be cut by a comma, a bracket or a blank. -/
def isFit (words : Words) : Bool :=
  words.lexemes.all isLexeme

variable (words : Words)

theorem truth_mem (value : Bool) : words.truth value ∈ words.lexemes := by
  cases value <;> simp [lexemes]

theorem negation_mem : words.negation ∈ words.lexemes := by
  simp [lexemes]

theorem operator_mem (operator : Operator) : words.operator operator ∈ words.lexemes := by
  simp [lexemes, List.mem_map_of_mem operator.mem_all]

theorem source_isFit : source.isFit = true := by
  decide

theorem lua_isFit : lua.isFit = true := by
  decide

variable {words}

theorem isFit_lexeme (fit : words.isFit = true) {word : Text} (member : word ∈ words.lexemes) :
    isLexeme word = true :=
  List.all_eq_true.mp fit _ member

end Words

/-- What is written in the dialect can be taken for one argument. -/
structure Dialect.Fits {α : Type} (dialect : Dialect) (grammar : Grammar α) : Prop where
  words : dialect.toWords.isFit = true
  group : ∀ kind items, grammar.allows kind items.length → (∀ item ∈ items, Whole item.text) →
    Whole (dialect.group kind items)

namespace Expression

variable {α : Type} {grammar : Grammar α} {dialect : Dialect} {quote : α → Text}
  {expression : Expression α}

theorem Formed.whole (fits : dialect.Fits grammar)
    (quoted : ∀ label, grammar.admits label → Whole (quote label))
    (formed : expression.Formed grammar) : Whole (expression.write dialect quote) := by
  induction formed with
  | @atom operand proper =>
    cases operand with
    | path names =>
      obtain ⟨first, rest, split, run⟩ := isRun_path proper.1 proper.2
      rw [write, Atom.write, split]
      exact run.whole
    | numeral digits =>
      obtain ⟨first, rest, split, run⟩ := isRun_numeral proper
      rw [write, Atom.write, split]
      exact run.whole
    | truth value => exact isLexeme_whole (Words.isFit_lexeme fits.words (dialect.truth_mem value))
    | literal label => exact quoted label proper
  | negation _ _ ih =>
    have word := isLexeme_whole (Words.isFit_lexeme fits.words dialect.negation_mem)
    simpa [write, Words.opening] using word.spaced ih
  | @binary operator _ _ _ _ _ _ ihLeft ihRight =>
    have word := isLexeme_whole (Words.isFit_lexeme fits.words (dialect.operator_mem operator))
    simpa [write, Words.opening] using (ihLeft.spaced word).spaced ihRight
  | group allowed _ ih =>
    refine fits.group _ _ (by simpa [writeItems_eq] using allowed) ?_
    simpa [writeItems_eq] using ih

end Expression

end Pseudocode
