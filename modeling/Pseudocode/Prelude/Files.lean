namespace Pseudocode.Prelude

/-- Files behind integer handles. -/
def fileLines : List String :=
  ["-- =============================================================================",
   "-- Files",
   "-- =============================================================================",
   "",
   "local function __psc_fichierOuvrir(nomFichier, mode)",
   "    mode = mode or \"r\"",
   "    local file, err = io.open(nomFichier, mode)",
   "    if not file then",
   "        print(\"Erreur d'ouverture du fichier: \" .. tostring(err))",
   "        return nil",
   "    end",
   "    local handle = __psc_file_current_handle",
   "    __psc_file_handles[handle] = file",
   "    __psc_file_current_handle = __psc_file_current_handle + 1",
   "    return handle",
   "end",
   "",
   "local function __psc_fichierCreer(nomFichier)",
   "    return __psc_fichierOuvrir(nomFichier, \"w\")",
   "end",
   "",
   "local function __psc_fichierEcrire(handle, value)",
   "    if __psc_file_handles[handle] then",
   "        __psc_file_handles[handle]:write(tostring(value))",
   "    end",
   "end",
   "",
   "local function __psc_fichierFermer(handle)",
   "    if __psc_file_handles[handle] then",
   "        __psc_file_handles[handle]:close()",
   "        __psc_file_handles[handle] = nil",
   "    end",
   "end",
   "",
   "local function __psc_fichierLire(handle)",
   "    if __psc_file_handles[handle] then",
   "        return __psc_file_handles[handle]:read()",
   "    end",
   "    return nil",
   "end",
   "",
   "local function __psc_fichierFin(handle)",
   "    local file = __psc_file_handles[handle]",
   "    if file then",
   "        local pos = file:seek()",
   "        local probe = file:read(0)",
   "        file:seek(\"set\", pos)",
   "        return probe == nil",
   "    end",
   "    return true",
   "end",
   "",
   "local function __psc_chaineVersEntier(chaine)",
   "    return tonumber(chaine) or 0",
   "end",
   ""]

end Pseudocode.Prelude
