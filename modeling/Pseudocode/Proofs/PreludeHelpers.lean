import Pseudocode.Proofs.Vouched

namespace Pseudocode

theorem splitAt_line {mark : Char} {line : Text} (unbroken : mark ∉ line) (rest : Text) :
    splitAt mark (line ++ mark :: rest) = line :: splitAt mark rest := by
  induction line with
  | nil => simp [splitAt]
  | cons c line ih =>
    rw [List.cons_append, splitAt, if_neg (Ne.symm (List.ne_of_not_mem_cons unbroken)),
      ih (List.not_mem_of_not_mem_cons unbroken)]
    rfl

namespace Prelude

/-- The helpers that the prelude defines, in the order of their definitions. -/
def helperNames : List String :=
  ["__psc_fichierOuvrir", "__psc_fichierCreer", "__psc_fichierEcrire", "__psc_fichierFermer",
   "__psc_fichierLire", "__psc_fichierFin", "__psc_chaineVersEntier", "__psc_lire", "__psc_lire_chaine",
   "__psc_sorted_keys", "__psc_is_array", "__psc_is_liste", "__psc_serialize", "__psc_write",
   "__psc_liste_node", "__psc_liste_tete", "__psc_liste_val", "__psc_liste_suc", "__psc_liste_fin",
   "__psc_liste_vide", "__psc_liste_ajout_tete", "__psc_liste_suppression_tete", "__psc_liste_ajout_queue",
   "__psc_liste_suppression_queue", "__psc_liste_ajout", "__psc_liste_suppression", "__psc_liste_change",
   "__psc_liste_from_table", "__psc_listesym_vide", "__psc_listesym_tete", "__psc_listesym_queue",
   "__psc_listesym_val", "__psc_listesym_suc", "__psc_listesym_prec", "__psc_listesym_fin",
   "__psc_listesym_ajout_tete", "__psc_listesym_suppression_tete", "__psc_listesym_ajout_queue",
   "__psc_listesym_suppression_queue", "__psc_listesym_ajout", "__psc_listesym_suppression",
   "__psc_listesym_change", "__psc_listesym_from_table", "__psc_pile_vide", "__psc_pile_sommet",
   "__psc_pile_est_vide", "__psc_pile_empiler", "__psc_pile_depiler", "__psc_pile_from_values",
   "__psc_file_vide", "__psc_file_est_vide", "__psc_file_enfiler", "__psc_file_defiler", "__psc_file_premier",
   "__psc_file_from_values", "__psc_generic_tete", "__psc_table_vide", "__psc_table_from_pairs",
   "__psc_table_domaine", "__psc_table_acces", "__psc_table_ajout", "__psc_table_suppression",
   "__psc_table_change", "__psc_ensemble_estdans"]

/-- Neither the end of a line nor a character that stands for a literal. -/
def isOrdinary (c : Char) : Bool :=
  c ≠ '\n' && !Placeholder.isReserved c

/-- Lines of Lua, and the helpers that they start to define. -/
inductive Defines : List String → List String → Prop
  | nil : Defines [] []
  | other {line : String} {ls names : List String} : line.toList.all isOrdinary = true →
      definedHelper? line.toList = none → Defines ls names → Defines (line :: ls) names
  | header {line name : String} {ls names : List String} : line.toList.all isOrdinary = true →
      definedHelper? line.toList = some name.toList → Defines ls names → Defines (line :: ls) (name :: names)

theorem Defines.definedHelpers {ls names : List String} (defines : Defines ls names) :
    definedHelpers (unlines (ls.map (·.toList))) = names.map (·.toList) := by
  have first {line : Text} (ordinary : line.all isOrdinary = true) (ls : List Text) :
      Prelude.definedHelpers (unlines (line :: ls)) =
        (definedHelper? line).toList ++ Prelude.definedHelpers (unlines ls) := by
    have unbroken : '\n' ∉ line := fun member => by
      simpa [isOrdinary] using List.all_eq_true.mp ordinary '\n' member
    have split : unlines (line :: ls) = line ++ '\n' :: unlines ls := by simp [unlines]
    rw [Prelude.definedHelpers, split, splitAt_line unbroken, List.filterMap_cons]
    cases definedHelper? line <;> rfl
  induction defines with
  | nil => rfl
  | other ordinary none _ ih => rw [List.map_cons, first ordinary, none, ih]; rfl
  | header ordinary named _ ih => rw [List.map_cons, first ordinary, named, ih]; rfl

theorem Defines.unreserved {ls names : List String} (defines : Defines ls names) :
    ∀ c ∈ unlines (ls.map (·.toList)), Placeholder.isReserved c = false := by
  have first {line : Text} (ordinary : line.all isOrdinary = true) {ls : List Text}
      (later : ∀ c ∈ unlines ls, Placeholder.isReserved c = false) :
      ∀ c ∈ unlines (line :: ls), Placeholder.isReserved c = false := by
    intro c member
    have split : unlines (line :: ls) = line ++ '\n' :: unlines ls := by simp [unlines]
    rw [split, List.mem_append, List.mem_cons] at member
    rcases member with inside | rfl | after
    · have plain := List.all_eq_true.mp ordinary c inside
      simp only [isOrdinary, Bool.and_eq_true, Bool.not_eq_true'] at plain
      exact plain.2
    · decide
    · exact later c after
  induction defines with
  | nil => simp [unlines]
  | other ordinary _ _ ih | header ordinary _ _ ih => exact first ordinary ih

theorem definedHelper?_other {c : Char} (other : c ≠ 'l') (rest : Text) : definedHelper? (c :: rest) = none := by
  simp [definedHelper?, List.isPrefixOf, other.symm]

set_option maxRecDepth 8000 in
theorem allLines_define : Defines allLines helperNames := by
  simp only [helperNames, allLines, openingLines, fileLines, consoleLines, serializationLines, linkedListLines,
    symmetricListLines, stackLines, queueLines, tableLines, closingLines, List.cons_append, List.nil_append]
  -- The characters of a line are read off from it, which is faster than to decode them.
  repeat first
    | exact .nil
    | refine .other (by rw [String.toList_ofList]; decide)
        (by rw [String.toList_ofList]; exact definedHelper?_other (by decide) _) ?_
    | refine .header (by rw [String.toList_ofList]; decide)
        (by rw [String.toList_ofList, String.toList_ofList]; decide) ?_
    | refine .other (by decide) (by decide) ?_

theorem definedHelpers_text : definedHelpers text = helperNames.map (·.toList) :=
  allLines_define.definedHelpers

theorem text_unreserved : ∀ c ∈ text, Placeholder.isReserved c = false :=
  allLines_define.unreserved

/-- Where the helpers that are emitted stand among those that the prelude defines. -/
def emittedPlaces : List Nat :=
  [13, 7, 8, 27, 42, 56, 57, 43, 48, 49, 54, 0, 3, 4, 5, 6, 1, 2, 55, 16, 17, 18, 19, 20, 21, 22, 23, 24, 25, 26,
   29, 30, 31, 32, 33, 34, 28, 35, 36, 37, 38, 39, 40, 41, 43, 44, 45, 46, 47, 49, 50, 51, 52, 53, 51, 52, 50, 56,
   58, 59, 60, 61, 62, 63]

theorem subset_of_places {names known : List Text} {places : List Nat}
    (within : ∀ place ∈ places, place < known.length)
    (same : names = places.map fun place => known.getD place []) : names ⊆ known := by
  intro name member
  rw [same] at member
  obtain ⟨place, listed, rfl⟩ := List.mem_map.mp member
  rw [List.getD_eq_getElem _ _ (within place listed)]
  exact List.getElem_mem _

set_option maxRecDepth 4000 in
/-- The helpers of built-ins, and those that are emitted besides them, are words that the prelude defines. -/
theorem emitted_mem_definedHelpers :
    ∀ name ∈ Context.emittedHelpers ++ (standardLanguage.builtins.filter (!·.inline)).map (·.helper),
      isPlainWord name = true ∧ name ∈ definedHelpers text := by
  have words : ∀ name ∈ helperNames.map (·.toList), isPlainWord name = true := by
    simp only [helperNames, List.map_cons, List.map_nil]
    repeat rw [String.toList_ofList]
    decide
  have listed : Context.emittedHelpers ++ (standardLanguage.builtins.filter (!·.inline)).map (·.helper) ⊆
      helperNames.map (·.toList) := by
    refine subset_of_places (show ∀ place ∈ emittedPlaces, _ by decide) ?_
    simp only [helperNames, List.map_cons, List.map_nil]
    repeat rw [String.toList_ofList]
    decide
  rw [definedHelpers_text]
  exact fun name member => ⟨words name (listed member), listed member⟩

end Prelude

end Pseudocode
