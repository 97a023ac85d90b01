import Pseudocode.Call
import Pseudocode.Context
import Pseudocode.Expression.List
import Pseudocode.Statement.Basic

namespace Pseudocode

namespace Context

/-- Arrows between keys and values, with the blanks around them. -/
def pairArrow : Replacer := fun _ text =>
  match trimLeft text with
  | '→' :: rest => some (text.length - (trimLeft rest).length, ", ".toList)
  | _ => none

/-- The call that builds a structure from the arguments of its constructor. -/
def structureCall (kind arguments : Text) : Text :=
  let helper (suffix : String) := "__psc_".toList ++ kind ++ suffix.toList
  let isEmpty := (trim arguments).isEmpty
  if kind = "liste".toList then ListLiteral.build arguments
  else if kind = "listesym".toList then
    helper "_from_table" ++ '(' :: ListLiteral.braced arguments ++ [')']
  else if kind = "table".toList then
    if isEmpty then helper "_vide()"
    else helper "_from_pairs(" ++ substitute pairArrow arguments ++ [')']
  else if isEmpty then helper "_vide()"
  else helper "_from_values" ++ '(' :: ListLiteral.braced arguments ++ [')']

/-- The structures that have a constructor of their own. -/
def structureNames : List Text :=
  ["liste", "listesym", "pile", "file", "table"].map (·.toList)

/-- Constructors of lists, stacks, queues and tables become calls that build them. -/
def convertStructures (context : Context) (text : Text) : Conversion Text :=
  convertCalls (namedCallee structureNames) .openCall
    (fun head arguments =>
      return if context.declares head.name then head.apply arguments
        else structureCall (lower head.name) arguments)
    none text

/-- The argument at a place. -/
def argumentAt (arguments : List Text) (place : Nat) : Conversion Text :=
  match arguments[place]? with
  | some argument => return argument
  | none => throw .missingArgument

/-- The Lua form of an inline built-in: an operator, or a library call. The place of a single
character is given twice. -/
def inlineForm (builtin : Builtin) (arguments : List Text) : Conversion Text := do
  if builtin.helper = ['#'] then
    let argument ← argumentAt arguments 0
    return if isIdentifier argument || Placeholder.isPlaceholder argument then '#' :: argument
      else "#(".toList ++ argument ++ [')']
  else if builtin.helper = ['.', '.'] then
    return (← argumentAt arguments 0) ++ " .. ".toList ++ (← argumentAt arguments 1)
  else if builtin.arity = 2 then
    let subject ← argumentAt arguments 0
    let place ← argumentAt arguments 1
    return builtin.helper ++ '(' :: commaSeparated [subject, place, place] ++ [')']
  else return builtin.helper ++ '(' :: commaSeparated arguments ++ [')']

/-- The length of a name as a pattern, where a character with a meaning of its own is escaped. -/
def patternLength (name : Text) : Nat :=
  name.length + name.countP ("()[]\x7b\x7d?*+-|^$\\.&~# \t\n\r\x0b\x0c".toList.contains ·)

/-- Names that are longer as patterns come first. -/
def inlineNames (language : Language) : List Text :=
  ((language.builtins.filter (·.inline)).map (·.name)).mergeSort fun a b =>
    patternLength b ≤ patternLength a

/-- An inline built-in takes its Lua form if it has the right number of arguments. -/
def inlineCall (context : Context) (head : CallHead) (arguments : Text) : Conversion Text := do
  if context.declares head.name then return head.apply arguments
  else match context.language.builtin? head.name with
    | none => throw .unlistedBuiltin
    | some builtin =>
      let split := splitArguments arguments
      if split.length ≠ builtin.arity then return head.apply arguments
      else inlineForm builtin split

def convertInline (context : Context) (text : Text) : Conversion Text :=
  let names := inlineNames context.language
  if names.isEmpty then return text
  else convertCalls (namedCallee names) .openCall context.inlineCall none text

/-- The call of a built-in becomes a call of its helper. -/
def helperCall (context : Context) (head : CallHead) (arguments : Text) : Text :=
  match context.language.builtin? head.name with
  | some builtin =>
    if builtin.inline || context.declares head.name then head.apply arguments
    else builtin.helper ++ '(' :: arguments ++ [')']
  | none => head.apply arguments

def convertBuiltins (context : Context) (text : Text) : Conversion Text :=
  convertCalls anyCallee .openCall (fun head arguments => return context.helperCall head arguments)
    none text

end Context

end Pseudocode
