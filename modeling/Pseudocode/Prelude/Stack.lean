namespace Pseudocode.Prelude

/-- Stacks. -/
def stackLines : List String :=
  ["-- =============================================================================",
   "-- Stack",
   "-- =============================================================================",
   "",
   "local function __psc_pile_vide()",
   "    return \x7b __psc_type = \"pile\" \x7d",
   "end",
   "",
   "local function __psc_pile_sommet(p)",
   "    if type(p) ~= 'table' or #p == 0 then return nil end",
   "    return p[#p]",
   "end",
   "",
   "local function __psc_pile_est_vide(p)",
   "    return type(p) ~= 'table' or #p == 0",
   "end",
   "",
   "local function __psc_pile_empiler(p, v)",
   "    if type(p) == 'table' then",
   "        table.insert(p, v)",
   "    end",
   "end",
   "",
   "local function __psc_pile_depiler(p)",
   "    if type(p) == 'table' and #p > 0 then",
   "        return table.remove(p)",
   "    end",
   "    return nil",
   "end",
   "",
   "local function __psc_pile_from_values(t)",
   "    local p = __psc_pile_vide()",
   "    for i = 1, #t do",
   "        p[i] = t[i]",
   "    end",
   "    return p",
   "end",
   ""]

end Pseudocode.Prelude
