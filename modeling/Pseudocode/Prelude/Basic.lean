import Pseudocode.Prelude.Console
import Pseudocode.Prelude.Files
import Pseudocode.Prelude.LinkedList
import Pseudocode.Prelude.Queue
import Pseudocode.Prelude.Serialization
import Pseudocode.Prelude.Stack
import Pseudocode.Prelude.SymmetricList
import Pseudocode.Prelude.Table
import Pseudocode.Text.Lines
import Pseudocode.Text.Word

namespace Pseudocode

namespace Prelude

def openingLines : List String :=
  ["-- PSC runtime",
   "local __psc_file_handles = \x7b\x7d",
   "local __psc_file_current_handle = 1",
   ""]

def closingLines : List String :=
  ["-- End of PSC runtime"]

/-- The Lua lines that every program starts with. They define each helper before its first use. -/
def allLines : List String :=
  openingLines ++ fileLines ++ consoleLines ++ serializationLines ++ linkedListLines ++
    symmetricListLines ++ stackLines ++ queueLines ++ tableLines ++ closingLines

/-- The Lua text that every program starts with. -/
def text : Text :=
  unlines (allLines.map (·.toList))

/-- The function that a line of Lua starts to define for the rest of its chunk. -/
def definedHelper? (line : Text) : Option Text :=
  let start := "local function ".toList
  if start.isPrefixOf line then
    let rest := line.drop start.length
    let name := rest.takeWhile isWordChar
    if !name.isEmpty && (rest.dropWhile isWordChar).head? = some '(' then some name else none
  else none

/-- The helpers that a Lua text defines, line by line. -/
def definedHelpers (lua : Text) : List Text :=
  (splitAt '\n' lua).filterMap definedHelper?

end Prelude

end Pseudocode
