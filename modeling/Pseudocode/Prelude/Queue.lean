namespace Pseudocode.Prelude

/-- Queues. -/
def queueLines : List String :=
  ["-- =============================================================================",
   "-- Queue",
   "-- =============================================================================",
   "",
   "local function __psc_file_vide()",
   "    return \x7b __psc_type = \"file\" \x7d",
   "end",
   "",
   "local function __psc_file_est_vide(f)",
   "    return type(f) ~= 'table' or #f == 0",
   "end",
   "",
   "local function __psc_file_enfiler(f, v)",
   "    if type(f) == 'table' then",
   "        table.insert(f, v)",
   "    end",
   "end",
   "",
   "local function __psc_file_defiler(f)",
   "    if type(f) == 'table' and #f > 0 then",
   "        return table.remove(f, 1)",
   "    end",
   "    return nil",
   "end",
   "",
   "local function __psc_file_premier(f)",
   "    if type(f) == 'table' and #f > 0 then",
   "        return f[1]",
   "    end",
   "    return nil",
   "end",
   "",
   "local function __psc_file_from_values(t)",
   "    local f = __psc_file_vide()",
   "    for i = 1, #t do",
   "        f[i] = t[i]",
   "    end",
   "    return f",
   "end",
   "",
   "local function __psc_generic_tete(obj)",
   "    if obj == nil or __psc_is_liste(obj) then",
   "        return __psc_liste_tete(obj)",
   "    elseif type(obj) == 'table' then",
   "        return obj[1]",
   "    end",
   "    return nil",
   "end",
   ""]

end Pseudocode.Prelude
