import Pseudocode.Expression.Builtin
import Pseudocode.Expression.Index
import Pseudocode.Expression.Operator
import Pseudocode.Record.Convert

namespace Pseudocode

/-- How an expression is used. Where assignments are possible, not every equals sign compares; and
after a control keyword a leading parenthesis groups. -/
structure Usage where
  comparison : Bool := true
  afterKeyword : Bool := false
  deriving DecidableEq, Repr

namespace Context

/-- Everything but the rendering of tables. -/
def convertValue (context : Context) (usage : Usage) (text : Text) : Conversion Text := do
  let text ← context.records.convert text
  let text := ListLiteral.convert usage.afterKeyword text
  let text ← context.convertStructures text
  let text ← context.convertInline text
  let text ← context.convertBuiltins text
  let text := context.language.respell text
  let text := substitute (equality usage.comparison) text
  return substitute inputCall text

/-- A table with its values converted by `value`. -/
def renderTable (value : Text → Conversion Text) (entries : List Entry) : Conversion Text := do
  let fields ← entries.mapM fun entry => do
    let rendered ← value entry.value
    return match entry.name with
      | none => rendered
      | some name => name ++ " = ".toList ++ rendered
  return ListLiteral.braced (commaSeparated fields)

/-- An expression with its tables rendered, whose values are expressions again, at most `depth`
levels deep. -/
def valueWithin (context : Context) : (depth : Nat) → Usage → Text → Conversion Text
  | 0, _, _ => throw .endlessNesting
  | depth + 1, usage, text => do
    let converted ← context.convertValue usage text
    Conversion.expand (renderTable (context.valueWithin depth {})) converted

/-- More levels than tables can be nested: each takes a stored table or a bracket of the texts at
hand. -/
def depthLimit (store : Store) (text : Text) : Nat :=
  let size : Held → Nat
    | .literal _ => 0
    | .table entries => (entries.map (·.value.length)).foldr (· + ·) 0
  text.length + store.held.size + (store.held.toList.map size).foldr (· + ·) 0 + 1

/-- An expression in Lua, but for its brackets and literals. -/
def value (context : Context) (usage : Usage) (text : Text) : Conversion Text := do
  context.valueWithin (depthLimit (← get).store text) usage text

/-- Brackets and literals take their Lua form. -/
def finish (text : Text) : Conversion Text := do
  Conversion.restore (← Index.convert text)

/-- An expression in Lua. -/
def expression (context : Context) (usage : Usage) (text : Text) : Conversion Text := do
  finish (← context.value usage text)

end Context

end Pseudocode
