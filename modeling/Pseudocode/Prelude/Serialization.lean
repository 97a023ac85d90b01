namespace Pseudocode.Prelude

/-- The text of a value when it is written out. -/
def serializationLines : List String :=
  ["-- =============================================================================",
   "-- Serialization",
   "-- =============================================================================",
   "",
   "local function __psc_sorted_keys(t)",
   "    local keys = \x7b\x7d",
   "    for k in pairs(t) do",
   "        keys[#keys + 1] = k",
   "    end",
   "    table.sort(keys, function(a, b) return tostring(a) < tostring(b) end)",
   "    return keys",
   "end",
   "",
   "local function __psc_is_array(t)",
   "    local count = 0",
   "    for k in pairs(t) do",
   "        if type(k) ~= 'number' then return false end",
   "        count = count + 1",
   "    end",
   "    return count == #t",
   "end",
   "",
   "local function __psc_is_liste(t)",
   "    return type(t) == 'table' and rawget(t, '__psc_type') == nil",
   "        and (t.val ~= nil or t.suc ~= nil)",
   "end",
   "",
   "local function __psc_serialize(v)",
   "    if type(v) == 'table' then",
   "        local kind = rawget(v, '__psc_type')",
   "        local parts = \x7b\x7d",
   "        if kind == 'pile' or kind == 'file' then",
   "            for i = 1, #v do",
   "                parts[#parts + 1] = __psc_serialize(v[i])",
   "            end",
   "            local label = kind == 'pile' and 'Pile' or 'File'",
   "            return label .. '[' .. table.concat(parts, ', ') .. ']'",
   "        elseif kind == 'table' then",
   "            for _, k in ipairs(__psc_sorted_keys(v._data)) do",
   "                parts[#parts + 1] = __psc_serialize(k) .. ' → ' .. __psc_serialize(v._data[k])",
   "            end",
   "            return 'Table(' .. table.concat(parts, ', ') .. ')'",
   "        elseif kind == 'listesym' then",
   "            local node = v.head",
   "            while node ~= nil do",
   "                parts[#parts + 1] = __psc_serialize(node.val)",
   "                node = node.suc",
   "            end",
   "            return 'LS(' .. table.concat(parts, ', ') .. ')'",
   "        elseif __psc_is_liste(v) then",
   "            local node = v",
   "            while node ~= nil do",
   "                parts[#parts + 1] = __psc_serialize(node.val)",
   "                node = node.suc",
   "            end",
   "            return '(' .. table.concat(parts, ', ') .. ')'",
   "        elseif __psc_is_array(v) then",
   "            for i = 1, #v do",
   "                parts[#parts + 1] = __psc_serialize(v[i])",
   "            end",
   "            return '[' .. table.concat(parts, ', ') .. ']'",
   "        end",
   "        for _, k in ipairs(__psc_sorted_keys(v)) do",
   "            parts[#parts + 1] = tostring(k) .. ':' .. __psc_serialize(v[k])",
   "        end",
   "        return '\x7b' .. table.concat(parts, ', ') .. '\x7d'",
   "    elseif type(v) == 'boolean' then",
   "        return v and 'Vrai' or 'Faux'",
   "    end",
   "    return tostring(v)",
   "end",
   "",
   "local function __psc_write(...)",
   "    local n = select('#', ...)",
   "    local args = \x7b...\x7d",
   "    local parts = \x7b\x7d",
   "    for i = 1, n do",
   "        parts[i] = __psc_serialize(args[i])",
   "    end",
   "    print(table.concat(parts, ''))",
   "end",
   ""]

end Pseudocode.Prelude
