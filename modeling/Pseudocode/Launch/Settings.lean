import Pseudocode.Decimal.Reader
import Pseudocode.Failure
import Pseudocode.Path
import Pseudocode.Program.Assembly

namespace Pseudocode

/-- How Lua programs are run: the command of the interpreter, how long it may take, and whether
and where its script is kept. -/
structure Settings where
  command : Text := "lua".toList
  timeout : Option Seconds := none
  keepScript : Bool := false
  directory : Option Path := none
  deriving DecidableEq, Repr

/-- The variables that are set around a program. -/
abbrev Environment := List (Text × Text)

/-- The value of a variable, unless it is empty. -/
def Environment.value? (environment : Environment) (name : String) : Option Text :=
  (environment.lookup name.toList).filter (!·.isEmpty)

namespace Settings

def trueValues : List Text :=
  ["1", "true", "yes", "on"].map (·.toList)

/-- The settings that the environment asks for. A timeout that is no number is passed over. -/
def ofEnvironment (environment : Environment) : Outcome Settings :=
  let given := environment.value? "PSC_LUA_TIMEOUT"
  let timeout := given.bind Binary64.ofText?
  { result :=
      { command := (environment.value? "PSC_LUA_COMMAND").getD "lua".toList
        timeout := timeout.map .real
        keepScript :=
          (environment.value? "PSC_KEEP_SCRIPT").any fun value =>
            trueValues.contains (lower (trim value))
        directory := (environment.value? "PSC_TEMP_DIR").map Path.ofText }
    notices := match given, timeout with
      | some value, none => [.badTimeout (quoted value)]
      | _, _ => [] }

end Settings

end Pseudocode
