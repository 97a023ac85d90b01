namespace Pseudocode.Prelude

/-- Tables from keys to values. -/
def tableLines : List String :=
  ["-- =============================================================================",
   "-- Associative table",
   "-- =============================================================================",
   "",
   "local function __psc_table_vide()",
   "    return \x7b __psc_type = \"table\", _data = \x7b\x7d \x7d",
   "end",
   "",
   "local function __psc_table_from_pairs(...)",
   "    local t = __psc_table_vide()",
   "    local n = select('#', ...)",
   "    local args = \x7b...\x7d",
   "    for i = 1, n - 1, 2 do",
   "        t._data[args[i]] = args[i + 1]",
   "    end",
   "    return t",
   "end",
   "",
   "local function __psc_table_domaine(t)",
   "    return __psc_sorted_keys(t._data)",
   "end",
   "",
   "local function __psc_table_acces(t, k)",
   "    return t._data[k]",
   "end",
   "",
   "local function __psc_table_ajout(t, k, v)",
   "    t._data[k] = v",
   "    return t",
   "end",
   "",
   "local function __psc_table_suppression(t, k)",
   "    t._data[k] = nil",
   "    return t",
   "end",
   "",
   "local function __psc_table_change(t, k, v)",
   "    if t._data[k] ~= nil then",
   "        t._data[k] = v",
   "    end",
   "    return t",
   "end",
   "",
   "-- estDans(x, E): x is an element of the collection E",
   "local function __psc_ensemble_estdans(x, e)",
   "    if type(e) ~= 'table' then return false end",
   "    local kind = rawget(e, '__psc_type')",
   "    if kind == 'table' then",
   "        return e._data[x] ~= nil",
   "    elseif kind == 'listesym' then",
   "        local node = e.head",
   "        while node ~= nil do",
   "            if node.val == x then return true end",
   "            node = node.suc",
   "        end",
   "        return false",
   "    elseif __psc_is_liste(e) then",
   "        local node = e",
   "        while node ~= nil do",
   "            if node.val == x then return true end",
   "            node = node.suc",
   "        end",
   "        return false",
   "    end",
   "    for i = 1, #e do",
   "        if e[i] == x then return true end",
   "    end",
   "    return false",
   "end",
   ""]

end Pseudocode.Prelude
