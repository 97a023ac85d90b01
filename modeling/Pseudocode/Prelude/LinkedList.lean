namespace Pseudocode.Prelude

/-- Lists of nodes, with places counted from zero. -/
def linkedListLines : List String :=
  ["-- =============================================================================",
   "-- Linked list (0-based integer places)",
   "-- =============================================================================",
   "",
   "local function __psc_liste_node(l, p)",
   "    local node = l",
   "    local i = p or 0",
   "    while node ~= nil and i > 0 do",
   "        node = node.suc",
   "        i = i - 1",
   "    end",
   "    return node",
   "end",
   "",
   "local function __psc_liste_tete(l)",
   "    return 0",
   "end",
   "",
   "local function __psc_liste_val(l, p)",
   "    local node = __psc_liste_node(l, p)",
   "    if node == nil then return nil end",
   "    return node.val",
   "end",
   "",
   "local function __psc_liste_suc(l, p)",
   "    return (p or 0) + 1",
   "end",
   "",
   "local function __psc_liste_fin(l, p)",
   "    return __psc_liste_node(l, p) == nil",
   "end",
   "",
   "local function __psc_liste_vide()",
   "    return nil",
   "end",
   "",
   "local function __psc_liste_ajout_tete(l, v)",
   "    return \x7b val = v, suc = l \x7d",
   "end",
   "",
   "local function __psc_liste_suppression_tete(l)",
   "    if l == nil then return nil end",
   "    return l.suc",
   "end",
   "",
   "local function __psc_liste_ajout_queue(l, v)",
   "    if l == nil then",
   "        return \x7b val = v, suc = nil \x7d",
   "    end",
   "    local node = l",
   "    while node.suc ~= nil do",
   "        node = node.suc",
   "    end",
   "    node.suc = \x7b val = v, suc = nil \x7d",
   "    return l",
   "end",
   "",
   "local function __psc_liste_suppression_queue(l)",
   "    if l == nil or l.suc == nil then return nil end",
   "    local node = l",
   "    while node.suc.suc ~= nil do",
   "        node = node.suc",
   "    end",
   "    node.suc = nil",
   "    return l",
   "end",
   "",
   "local function __psc_liste_ajout(l, p, v)",
   "    if l == nil then",
   "        return \x7b val = v, suc = nil \x7d",
   "    end",
   "    local node = __psc_liste_node(l, p)",
   "    if node ~= nil then",
   "        node.suc = \x7b val = v, suc = node.suc \x7d",
   "    end",
   "    return l",
   "end",
   "",
   "local function __psc_liste_suppression(l, p)",
   "    if l == nil then return nil end",
   "    local i = p or 0",
   "    if i <= 0 then",
   "        return l.suc",
   "    end",
   "    local prev = __psc_liste_node(l, i - 1)",
   "    if prev ~= nil and prev.suc ~= nil then",
   "        prev.suc = prev.suc.suc",
   "    end",
   "    return l",
   "end",
   "",
   "local function __psc_liste_change(l, p, v)",
   "    local node = __psc_liste_node(l, p)",
   "    if node ~= nil then",
   "        node.val = v",
   "    end",
   "    return l",
   "end",
   "",
   "local function __psc_liste_from_table(t)",
   "    local l = __psc_liste_vide()",
   "    if type(t) ~= 'table' then return l end",
   "    for i = #t, 1, -1 do",
   "        l = __psc_liste_ajout_tete(l, t[i])",
   "    end",
   "    return l",
   "end",
   ""]

end Pseudocode.Prelude
