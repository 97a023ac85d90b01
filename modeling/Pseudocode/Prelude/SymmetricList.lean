namespace Pseudocode.Prelude

/-- Lists that are walked both ways, with nodes as places. -/
def symmetricListLines : List String :=
  ["-- =============================================================================",
   "-- Symmetric list (node places)",
   "-- =============================================================================",
   "",
   "local function __psc_listesym_vide()",
   "    return \x7b __psc_type = \"listesym\", head = nil, tail = nil \x7d",
   "end",
   "",
   "local function __psc_listesym_tete(l)",
   "    return l.head",
   "end",
   "",
   "local function __psc_listesym_queue(l)",
   "    return l.tail",
   "end",
   "",
   "local function __psc_listesym_val(l, p)",
   "    if p then return p.val end",
   "    return nil",
   "end",
   "",
   "local function __psc_listesym_suc(l, p)",
   "    if p then return p.suc end",
   "    return nil",
   "end",
   "",
   "local function __psc_listesym_prec(l, p)",
   "    if p then return p.prec end",
   "    return nil",
   "end",
   "",
   "local function __psc_listesym_fin(l, p)",
   "    return p == nil",
   "end",
   "",
   "local function __psc_listesym_ajout_tete(l, v)",
   "    local node = \x7b val = v, suc = l.head, prec = nil \x7d",
   "    if l.head then",
   "        l.head.prec = node",
   "    else",
   "        l.tail = node",
   "    end",
   "    l.head = node",
   "end",
   "",
   "local function __psc_listesym_suppression_tete(l)",
   "    if l.head then",
   "        l.head = l.head.suc",
   "        if l.head then",
   "            l.head.prec = nil",
   "        else",
   "            l.tail = nil",
   "        end",
   "    end",
   "end",
   "",
   "local function __psc_listesym_ajout_queue(l, v)",
   "    local node = \x7b val = v, suc = nil, prec = l.tail \x7d",
   "    if l.tail then",
   "        l.tail.suc = node",
   "    else",
   "        l.head = node",
   "    end",
   "    l.tail = node",
   "end",
   "",
   "local function __psc_listesym_suppression_queue(l)",
   "    if l.tail then",
   "        l.tail = l.tail.prec",
   "        if l.tail then",
   "            l.tail.suc = nil",
   "        else",
   "            l.head = nil",
   "        end",
   "    end",
   "end",
   "",
   "local function __psc_listesym_ajout(l, p, v)",
   "    if p == nil then",
   "        __psc_listesym_ajout_queue(l, v)",
   "        return",
   "    end",
   "    local node = \x7b val = v, suc = p, prec = p.prec \x7d",
   "    if p.prec then",
   "        p.prec.suc = node",
   "    else",
   "        l.head = node",
   "    end",
   "    p.prec = node",
   "end",
   "",
   "local function __psc_listesym_suppression(l, p)",
   "    if p == nil then return end",
   "    if p.prec then",
   "        p.prec.suc = p.suc",
   "    else",
   "        l.head = p.suc",
   "    end",
   "    if p.suc then",
   "        p.suc.prec = p.prec",
   "    else",
   "        l.tail = p.prec",
   "    end",
   "end",
   "",
   "local function __psc_listesym_change(l, p, v)",
   "    if p then p.val = v end",
   "end",
   "",
   "local function __psc_listesym_from_table(t)",
   "    local l = __psc_listesym_vide()",
   "    if type(t) ~= 'table' then return l end",
   "    for i = 1, #t do",
   "        __psc_listesym_ajout_queue(l, t[i])",
   "    end",
   "    return l",
   "end",
   ""]

end Pseudocode.Prelude
