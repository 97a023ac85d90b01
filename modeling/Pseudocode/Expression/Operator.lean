import Pseudocode.Statement.Basic

namespace Pseudocode

def Spelling.replacer (spelling : Spelling) : Replacer :=
  if spelling.isWord then wordReplacer spelling.source spelling.target
  else literally spelling.source spelling.target

/-- Keywords and symbols take their Lua spelling, one after the other. -/
def Language.respell (language : Language) (text : Text) : Text :=
  language.spellings.foldl (fun text spelling => substitute spelling.replacer text) text

/-- A lone equals sign compares. If assignments are possible, one between blanks assigns. -/
def equality (comparison : Bool) : Replacer
  | before, '=' :: rest =>
    if before.any (['<', '>', '=', '~'].contains ·) || rest.head? = some '=' then none
    else if !comparison && before.any isBlank && rest.head?.any isBlank then some (1, ['='])
    else some (1, ['=', '='])
  | _, _ => none

/-- The call that takes one value from the input. -/
def inputCall : Replacer := fun before text =>
  if atNameStart before then
    ((dropWord? "lire".toList text).bind Statement.dropEmptyCall?).map fun rest =>
      (text.length - rest.length, "__psc_lire()".toList)
  else none

end Pseudocode
