namespace Pseudocode.Prelude

/-- Input from the console. -/
def consoleLines : List String :=
  ["-- =============================================================================",
   "-- Console input",
   "-- =============================================================================",
   "",
   "local function __psc_lire()",
   "    local line = io.read()",
   "    if line == nil then return nil end",
   "    local number = tonumber(line)",
   "    if number ~= nil then return number end",
   "    return line",
   "end",
   "",
   "local function __psc_lire_chaine()",
   "    return io.read() or \"\"",
   "end",
   ""]

end Pseudocode.Prelude
