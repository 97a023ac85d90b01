import Pseudocode.Language.Basic

namespace Pseudocode

namespace Standard

def typeName (name : String) (spellings : List String) (zero : Option String) : TypeName where
  name := name.toList
  spellings := spellings.map (·.toList)
  zero := zero.map (·.toList)

def keyword (kind : KeywordKind) (name : String) (lua : Option String) : Keyword where
  name := name.toList
  kind := kind
  lua := lua.map (·.toList)

def builtin (name : String) (arity : Nat) (helper : String) : Builtin where
  name := name.toList
  arity := arity
  helper := helper.toList

def mutator (name : String) (arity : Nat) (helper : String) : Builtin :=
  { builtin name arity helper with mutates := true }

def inline (name : String) (arity : Nat) (helper description : String) : Builtin :=
  { builtin name arity helper with inline := true, description := description.toList }

def word (source target : String) : Spelling where
  source := source.toList
  target := target.toList

def symbol (source target : String) : Spelling :=
  { word source target with isWord := false }

def types : List TypeName :=
  [typeName "entier" ["entier"] (some "0"),
   typeName "réel" ["réel", "reel"] (some "0"),
   typeName "booléen" ["booléen", "booleen"] (some "false"),
   typeName "chaîne" ["chaîne", "chaine"] (some "\"\""),
   typeName "caractère" ["caractère", "caractere"] (some "\"\""),
   typeName "tableau" ["tableau"] none,
   typeName "liste" ["liste"] none,
   typeName "pile" ["pile"] none,
   typeName "file" ["file"] none,
   typeName "listesym" ["listesym"] none,
   typeName "table" ["table"] none]

/-- Keywords of one kind, each with its Lua counterpart. -/
def family (kind : KeywordKind) (members : List (String × Option String)) : List Keyword :=
  members.map fun (name, lua) => keyword kind name lua

def keywords : List Keyword :=
  family .control [
    ("si", some "if"), ("alors", some "then"), ("sinon", some "else"), ("fsi", some "end"),
    ("tant", some "while"), ("que", none), ("ftq", some "end"), ("ftant", some "end"),
    ("pour", some "for"), ("allant", none), ("de", none), ("à", none), ("faire", some "do"),
    ("fpour", some "end"), ("décroissant", none), ("decroissant", none),
    ("retourner", some "return"), ("retourne", some "return")] ++
  family .block [
    ("début", none), ("debut", none), ("fin", none), ("algorithme", none), ("fonction", none),
    ("lexique", none)] ++
  family .boolean [
    ("vrai", some "true"), ("faux", some "false")] ++
  family .operator [
    ("et", some "and"), ("ou", some "or"), ("non", some "not"), ("mod", some "%")] ++
  family .io [
    ("écrire", some "__psc_write"), ("ecrire", some "__psc_write"), ("lire", some "__psc_lire")] ++
  family .modifier [
    ("inout", none)]

/-- Strings. -/
def stringBuiltins : List Builtin :=
  [inline "longueur" 1 "#" "Longueur de la chaîne",
   inline "concat" 2 ".." "Concaténation",
   inline "souschaîne" 3 "string.sub" "Sous-chaîne",
   inline "souschaine" 3 "string.sub" "Sous-chaîne",
   inline "ième" 2 "string.sub" "Caractère à la position i",
   inline "ieme" 2 "string.sub" "Caractère à la position i"]

/-- Files. -/
def fileBuiltins : List Builtin :=
  [builtin "fichierouvrir" 2 "__psc_fichierOuvrir",
   builtin "fichierfermer" 1 "__psc_fichierFermer",
   builtin "fichierlire" 1 "__psc_fichierLire",
   builtin "fichierfin" 1 "__psc_fichierFin",
   builtin "chaineversentier" 1 "__psc_chaineVersEntier",
   builtin "fichiercreer" 1 "__psc_fichierCreer",
   builtin "fichierecrire" 2 "__psc_fichierEcrire"]

/-- Lists with integer places. -/
def listBuiltins : List Builtin :=
  [builtin "tete" 1 "__psc_generic_tete",
   builtin "val" 2 "__psc_liste_val",
   builtin "suc" 2 "__psc_liste_suc",
   builtin "finliste" 2 "__psc_liste_fin",
   builtin "listevide" 0 "__psc_liste_vide",
   mutator "ajoutteteliste" 2 "__psc_liste_ajout_tete",
   mutator "suppressionteteliste" 1 "__psc_liste_suppression_tete",
   mutator "ajoutqueueliste" 2 "__psc_liste_ajout_queue",
   mutator "suppressionqueueliste" 1 "__psc_liste_suppression_queue",
   mutator "ajoutliste" 3 "__psc_liste_ajout",
   mutator "suppressionliste" 2 "__psc_liste_suppression",
   mutator "changeliste" 3 "__psc_liste_change"]

/-- Lists that are walked both ways and changed in place. -/
def symmetricListBuiltins : List Builtin :=
  [builtin "tetels" 1 "__psc_listesym_tete",
   builtin "queuels" 1 "__psc_listesym_queue",
   builtin "valls" 2 "__psc_listesym_val",
   builtin "sucls" 2 "__psc_listesym_suc",
   builtin "precls" 2 "__psc_listesym_prec",
   builtin "finls" 2 "__psc_listesym_fin",
   builtin "videls" 0 "__psc_listesym_vide",
   builtin "ajouttetels" 2 "__psc_listesym_ajout_tete",
   builtin "suppressiontetels" 1 "__psc_listesym_suppression_tete",
   builtin "ajoutqueuels" 2 "__psc_listesym_ajout_queue",
   builtin "suppressionqueuels" 1 "__psc_listesym_suppression_queue",
   builtin "ajoutls" 3 "__psc_listesym_ajout",
   builtin "suppressionls" 2 "__psc_listesym_suppression",
   builtin "changels" 3 "__psc_listesym_change"]

/-- Stacks. -/
def stackBuiltins : List Builtin :=
  [builtin "pilevide" 0 "__psc_pile_vide",
   builtin "sommet" 1 "__psc_pile_sommet",
   builtin "estvidepile" 1 "__psc_pile_est_vide",
   builtin "empiler" 2 "__psc_pile_empiler",
   builtin "depiler" 1 "__psc_pile_depiler"]

/-- Queues. -/
def queueBuiltins : List Builtin :=
  [builtin "filevide" 0 "__psc_file_vide",
   builtin "estvidefile" 1 "__psc_file_est_vide",
   builtin "enfiler" 2 "__psc_file_enfiler",
   builtin "defiler" 1 "__psc_file_defiler",
   builtin "premier" 1 "__psc_file_premier",
   builtin "ajoutfile" 2 "__psc_file_enfiler",
   builtin "suppressionfile" 1 "__psc_file_defiler",
   builtin "estfilevide" 1 "__psc_file_est_vide"]

/-- Tables from keys to values. -/
def tableBuiltins : List Builtin :=
  [builtin "tablevide" 0 "__psc_table_vide",
   builtin "domaine" 1 "__psc_table_domaine",
   builtin "accestable" 2 "__psc_table_acces",
   mutator "ajouttable" 3 "__psc_table_ajout",
   mutator "suppressiontable" 2 "__psc_table_suppression",
   mutator "changetable" 3 "__psc_table_change",
   builtin "estdans" 2 "__psc_ensemble_estdans"]

def builtins : List Builtin :=
  stringBuiltins ++ fileBuiltins ++ listBuiltins ++ symmetricListBuiltins ++ stackBuiltins ++
    queueBuiltins ++ tableBuiltins

def spellings : List Spelling :=
  [word "vrai" "true",
   word "faux" "false",
   word "non" "not",
   word "ou" "or",
   word "et" "and",
   word "mod" "%",
   symbol "≠" "~=",
   symbol "≤" "<=",
   symbol "≥" ">=",
   symbol "÷" "//",
   word "fin_ligne" "'\\n'"]

end Standard

/-- The language as it is taught. -/
def standardLanguage : Language where
  types := Standard.types
  keywords := Standard.keywords
  builtins := Standard.builtins
  spellings := Standard.spellings
  extraNames := ["fin_ligne".toList, "listesym".toList]

end Pseudocode
