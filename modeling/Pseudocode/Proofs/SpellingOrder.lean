import Pseudocode.Proofs.LetterCase
import Pseudocode.Proofs.Respelling

namespace Pseudocode

open List Option

/-- The word that a text starts with, or its first sign. -/
def firstToken (text : Text) : Text :=
  if (text.takeWhile isWordChar).isEmpty then text.take 1 else text.takeWhile isWordChar

/-- The text is a whole word or a sign, before what follows it. -/
inductive IsToken : (token after : Text) → Prop
  | word {token after : Text} :
      token ≠ [] → (∀ c ∈ token, isWordChar c = true) → atWordEnd after = true → IsToken token after
  | sign {c : Char} {after : Text} : isWordChar c = false → IsToken [c] after

namespace IsToken

variable {token after rest : Text}

theorem firstToken_eq (leads : IsToken token after) : firstToken (token ++ after) = token := by
  cases leads with
  | @word c rest some letters ends =>
    have stop : after.takeWhile isWordChar = [] := by
      cases after with
      | nil => rfl
      | cons c after => exact takeWhile_cons_of_neg (by simpa [atWordEnd] using ends)
    have run : (token ++ after).takeWhile isWordChar = token := by
      rw [takeWhile_append_of_pos letters, stop, append_nil]
    rw [firstToken, run, if_neg (by simpa using some)]
  | sign outside => simp [firstToken, outside]

theorem ne_nil (leads : IsToken token after) : token ≠ [] := by
  cases leads with
  | word some _ _ => exact some
  | sign _ => simp

theorem exists_of_ne_nil {text : Text} (some : text ≠ []) :
    ∃ token after, text = token ++ after ∧ IsToken token after := by
  obtain ⟨c, rest, rfl⟩ := exists_cons_of_ne_nil some
  cases letter : isWordChar c with
  | false => exact ⟨[c], rest, rfl, .sign letter⟩
  | true =>
    refine ⟨c :: rest.takeWhile isWordChar, rest.dropWhile isWordChar, by simp, .word (by simp) ?_ ?_⟩
    · exact forall_mem_cons.mpr ⟨letter, fun _ => mem_takeWhile_imp⟩
    · have head := head?_dropWhile_not isWordChar rest
      cases shape : rest.dropWhile isWordChar with
      | nil => rfl
      | cons d later => simpa [shape, atWordEnd] using head

theorem ends (leads : IsToken token after) (letters : ∀ c ∈ token, isWordChar c = true) :
    atWordEnd after = true := by
  cases leads with
  | word _ _ ends => exact ends
  | sign outside => simp [letters] at outside

theorem mono (leads : IsToken token after) (stop : atWordEnd after = true → atWordEnd rest = true) :
    IsToken token rest := by
  cases leads with
  | word some letters ends => exact .word some letters (stop ends)
  | sign outside => exact .sign outside

end IsToken

namespace Spelling

/-- The spelling is this word in whatever letter case, where it is no field name, or this sign. -/
def isAt (spelling : Spelling) (before : Option Char) (token : Text) : Bool :=
  if spelling.isWord then atNameStart before && token.map caseKey = spelling.source.map caseKey
  else token = spelling.source

/-- Puts in the target of whichever spelling stands at a place. -/
def together (spellings : List Spelling) : Replacer := fun before text =>
  (spellings.find? (·.isAt before (firstToken text))).map fun spelling =>
    ((firstToken text).length, spelling.target)

/-- What becomes of a word or sign. -/
def piece (spellings : List Spelling) (before : Option Char) (token : Text) : Text :=
  ((spellings.find? (·.isAt before token)).map (·.target)).getD token

/-- No two spellings are the same, and the targets hold none of them, wherever one could stand there. No
letter of a word is written as a subscript too, and the target of a symbol is a sign at both ends. -/
theorem standard_apart :
    (∀ spelling ∈ Standard.spellings, spelling.target ≠ [] ∧
      (spelling.isWord = true → spelling.source.all (caseKey '\u0345' ≠ caseKey ·) = true) ∧
      (spelling.isWord = false →
        atWordEnd spelling.target = true ∧ atNameStart spelling.target.getLast? = true)) ∧
    ∀ spelling ∈ Standard.spellings, ∀ other ∈ Standard.spellings,
      (spelling.source.map caseKey = other.source.map caseKey → spelling = other) ∧
      ∀ place < other.target.length,
        (spelling.isWord = true → atNameStart (other.target.take place).getLast? = true) →
          ¬(other.target.drop place).map caseKey <+: spelling.source.map caseKey ∧
            ¬spelling.source.map caseKey <+: (other.target.drop place).map caseKey := by
  decide

variable {spelling other : Spelling} {before next : Option Char} {text token after : Text}
  {done : List Spelling}

theorem key_of_isAt (found : spelling.isAt before token = true) :
    token.map caseKey = spelling.source.map caseKey ∧ (spelling.isWord = true → atNameStart before = true) := by
  unfold isAt at found
  split at found
  · rw [Bool.and_eq_true, decide_eq_true_eq] at found
    exact ⟨found.2, fun _ => found.1⟩
  · rename_i isSign
    exact ⟨by rw [of_decide_eq_true found], fun isWord => absurd isWord isSign⟩

section Listed

variable (listed : spelling ∈ Standard.spellings)
include listed

theorem letters_of_key (isWord : spelling.isWord = true)
    (key : token.map caseKey = spelling.source.map caseKey) :
    token ≠ [] ∧ ∀ c ∈ token, isWordChar c = true := by
  obtain ⟨some, letters⟩ := isRegular_word (standard_spellings_regular spelling listed) isWord
  have plain := all_eq_true.mp ((standard_apart.1 spelling listed).2.1 isWord)
  refine ⟨?_, letters_of_caseKey (fun d inside => ⟨letters d inside, by simpa using plain d inside⟩) key⟩
  rintro rfl
  exact some (map_eq_nil_iff.mp key.symm)

theorem sign_of_isAt (isSign : spelling.isWord = false) (found : spelling.isAt before token = true) :
    ∃ sign, token = [sign] ∧ isRunChar sign = false := by
  obtain ⟨sign, single, outside, -⟩ := isRegular_sign (standard_spellings_regular spelling listed) isSign
  rw [isAt, if_neg (by simp [isSign]), single, decide_eq_true_eq] at found
  exact ⟨sign, found, outside⟩

theorem isAt_nil (before : Option Char) : spelling.isAt before [] = false := by
  rw [← Bool.not_eq_true]
  intro found
  cases isWord : spelling.isWord with
  | true => exact (letters_of_key listed isWord (key_of_isAt found).1).1 rfl
  | false =>
    obtain ⟨sign, single, -⟩ := sign_of_isAt listed isWord found
    cases single

/-- A spelling is replaced where the text starts with it. -/
theorem replacer_eq : spelling.replacer = together [spelling] := by
  funext before text
  have single : together [spelling] before text = if spelling.isAt before (firstToken text) then
      some ((firstToken text).length, spelling.target) else none := by
    cases found : spelling.isAt before (firstToken text) <;> simp [together, found]
  rw [single]
  by_cases some : text = []
  · rw [some, (quiet (standard_spellings_regular spelling listed)).nil]
    simp [firstToken, isAt_nil listed]
  obtain ⟨token, after, rfl, leads⟩ := IsToken.exists_of_ne_nil some
  rw [leads.firstToken_eq]
  cases isWord : spelling.isWord with
  | true =>
    rw [replacer_word isWord, wordReplacer, isAt, if_pos isWord]
    by_cases fresh : atNameStart before = true
    · rw [if_pos fresh, fresh, Bool.true_and]
      by_cases key : token.map caseKey = spelling.source.map caseKey
      · have ends := leads.ends (letters_of_key listed isWord key).2
        have length := congrArg List.length key
        rw [length_map, length_map] at length
        simp [dropWord?_append key, ends, key, length]
      · rw [if_neg (by simpa using key), map_eq_none_iff, filter_eq_none_iff]
        intro rest found ends
        obtain ⟨split, same⟩ := dropWord?_eq_some found
        obtain ⟨some, letters⟩ := letters_of_key listed isWord same
        have own := (IsToken.word some letters ends).firstToken_eq
        rw [← split, leads.firstToken_eq] at own
        exact key (own ▸ same)
    · simp [fresh]
  | false =>
    obtain ⟨sign, symbol, outside, -⟩ := isRegular_sign (standard_spellings_regular spelling listed) isWord
    have matched : spelling.isAt before token = decide (token = [sign]) := by
      rw [isAt, if_neg (by simp [isWord]), symbol]
    rw [replacer_sign isWord, literally, matched, symbol]
    cases leads with
    | word some letters _ =>
      obtain ⟨c, word, rfl⟩ := exists_cons_of_ne_nil some
      have other : sign ≠ c := by
        rintro rfl
        simp [isRunChar, letters sign (.head _)] at outside
      simp [other, other.symm]
    | @sign c _ _ => simp [@eq_comm _ sign c]

/-- Only where a word begins it matters what stands before. -/
theorem isAt_next (start : atWordEnd (token ++ after) = false → atNameStart next = atNameStart before) :
    spelling.isAt next token = spelling.isAt before token := by
  unfold isAt
  split
  · rename_i isWord
    by_cases key : token.map caseKey = spelling.source.map caseKey
    · obtain ⟨some, letters⟩ := letters_of_key listed isWord key
      obtain ⟨c, word, rfl⟩ := exists_cons_of_ne_nil some
      rw [start (by simp [atWordEnd, letters])]
    · simp [key]
  · rfl

/-- No spelling stands in a target, whatever is around it. -/
theorem substituteFrom_target (among : other ∈ Standard.spellings) (before : Option Char) (after : Text) :
    substituteFrom spelling.replacer before 0 (other.target ++ after) =
      other.target ++ substituteFrom spelling.replacer other.target.getLast? 0 after := by
  have copied := @substituteFrom_copied spelling.replacer before.toList other.target after ?_
  · have same : before.toList.getLast? = before := by cases before <;> rfl
    rw [same, getLast?_append_of_ne_nil _ (standard_apart.1 other among).1] at copied
    exact copied.1
  · intro first last split some
    have place : first.length < other.target.length := by
      simpa [split] using length_pos_iff.mpr some
    have apart := (standard_apart.2 spelling listed other among).2 _ place
    rw [split, take_left, drop_left] at apart
    rw [replacer_eq listed, together, map_eq_none_iff, find?_eq_none]
    intro same member found
    obtain rfl := mem_singleton.mp member
    obtain ⟨token, after', whole, leads⟩ := @IsToken.exists_of_ne_nil (last ++ after) (by simp [some])
    rw [whole, leads.firstToken_eq] at found
    obtain ⟨key, start⟩ := key_of_isAt found
    obtain ⟨short, long⟩ := apart fun isWord => by
      cases first with
      | nil => rfl
      | cons c first => rw [← start isWord, getLast?_append_of_ne_nil _ (by simp)]
    rw [← key] at short long
    rcases append_eq_append_iff.mp whole with ⟨more, rfl, -⟩ | ⟨more, rfl, -⟩
    · exact short (by simp)
    · exact long (by simp)

end Listed

section Done

variable (among : ∀ other ∈ done, other ∈ Standard.spellings)
include among

theorem together_nil (before : Option Char) : together done before [] = none := by
  rw [together, map_eq_none_iff, find?_eq_none]
  intro other member
  simp [firstToken, isAt_nil (among other member)]

/-- Within a word no spelling stands. -/
theorem together_inside {c : Char} {word : Text} (letter : isWordChar c = true) (leads : IsToken word after)
    (letters : ∀ d ∈ word, isWordChar d = true) : together done (some c) (word ++ after) = none := by
  rw [together, map_eq_none_iff, find?_eq_none, leads.firstToken_eq]
  intro other member found
  cases isWord : other.isWord with
  | true =>
    have start := (key_of_isAt found).2 isWord
    simp [atNameStart, atWordStart, letter] at start
  | false =>
    obtain ⟨sign, rfl, outside⟩ := sign_of_isAt (among other member) isWord found
    simp [isRunChar, letters sign (.head _)] at outside

/-- A substitution goes from one word or sign to the next. -/
theorem substituteFrom_token (leads : IsToken token after) (before : Option Char) :
    substituteFrom (together done) before 0 (token ++ after) =
      piece done before token ++ substituteFrom (together done) token.getLast? 0 after := by
  have found : together done before (token ++ after) =
      (done.find? (·.isAt before token)).map fun spelling => (token.length, spelling.target) := by
    rw [together, leads.firstToken_eq]
  unfold piece
  cases seen : done.find? (·.isAt before token) with
  | some spelling =>
    rw [seen] at found
    exact substituteFrom_fire leads.ne_nil found
  | none =>
    rw [seen, map_none] at found
    have own : before.toList.getLast? = before := by cases before <;> rfl
    have copied := @substituteFrom_copied (together done) before.toList token after ?_
    · rw [own, getLast?_append_of_ne_nil _ leads.ne_nil] at copied
      exact copied.1
    · intro first rest split some
      rcases eq_nil_or_concat' first with rfl | ⟨front, c, rfl⟩
      · rw [append_nil, own, ← nil_append rest, ← split]
        exact found
      · cases leads with
        | word _ letters ends =>
          obtain ⟨inside, rest⟩ := forall_mem_append.mp (split ▸ letters)
          rw [← append_assoc, getLast?_concat]
          exact together_inside among (inside c (by simp)) (.word some rest ends) rest
        | sign _ =>
          have length := congrArg List.length split
          have positive := length_pos_iff.mpr some
          simp at length
          omega

/-- No word begins where none began. -/
theorem wordEnd_together (before : Option Char) (ends : atWordEnd text = true) :
    atWordEnd (substituteFrom (together done) before 0 text) = true := by
  by_cases some : text = []
  · rw [some, substituteFrom, together_nil among]
    rfl
  · obtain ⟨token, after, rfl, leads⟩ := IsToken.exists_of_ne_nil some
    rw [substituteFrom_token among leads]
    cases leads with
    | word some letters _ =>
      obtain ⟨c, word, rfl⟩ := exists_cons_of_ne_nil some
      simp [atWordEnd, letters c (.head _)] at ends
    | @sign c _ outside =>
      unfold piece
      cases seen : done.find? (·.isAt before [c]) with
      | none => exact ends
      | some spelling =>
        have listed := among spelling (mem_of_find?_eq_some seen)
        have found : spelling.isAt before [c] = true := by simpa using find?_some seen
        have isSign : spelling.isWord = false := by
          rw [← Bool.not_eq_true]
          intro isWord
          rw [(letters_of_key listed isWord (key_of_isAt found).1).2 c (.head _)] at outside
          cases outside
        obtain ⟨solid, -, sign⟩ := standard_apart.1 spelling listed
        obtain ⟨d, target, shape⟩ := exists_cons_of_ne_nil solid
        have first := (sign isSign).1
        rw [shape] at first
        rw [map_some, getD_some, shape]
        exact first

/-- Where a text is substituted together, one more spelling substituted after that is as if it had been
among them. -/
theorem substituteFrom_together (listed : spelling ∈ Standard.spellings)
    (start : atWordEnd text = false → atNameStart next = atNameStart before) :
    substituteFrom spelling.replacer next 0 (substituteFrom (together done) before 0 text) =
      substituteFrom (together (spelling :: done)) before 0 text := by
  have all : ∀ other ∈ spelling :: done, other ∈ Standard.spellings := forall_mem_cons.mpr ⟨listed, among⟩
  induction size : text.length using Nat.strong_induction_on generalizing text before next with
  | _ size ih =>
    subst size
    by_cases some : text = []
    · have none := (quiet (standard_spellings_regular spelling listed)).nil next
      simp only [some, substituteFrom, together_nil among, together_nil all, none]
    obtain ⟨token, after, rfl, leads⟩ := IsToken.exists_of_ne_nil some
    have shorter : after.length < (token ++ after).length := by
      simpa using length_pos_iff.mpr leads.ne_nil
    rw [substituteFrom_token among leads, substituteFrom_token all leads]
    cases seen : done.find? (·.isAt before token) with
    | some other =>
      have member := among other (mem_of_find?_eq_some seen)
      have found : other.isAt before token = true := by simpa using find?_some seen
      have same : piece (spelling :: done) before token = other.target := by
        rw [piece, find?_cons]
        split
        · rename_i own
          rw [(standard_apart.2 spelling listed other member).1
            ((key_of_isAt own).1.symm.trans (key_of_isAt found).1)]
          rfl
        · rw [seen]
          rfl
      rw [same, piece, seen, map_some, getD_some, substituteFrom_target listed member]
      refine congrArg (other.target ++ ·) (ih _ shorter (fun begins => ?_) rfl)
      -- A word has ended where it stood, and a symbol is no part of a name on either side.
      cases isWord : other.isWord with
      | true =>
        rw [leads.ends (letters_of_key member isWord (key_of_isAt found).1).2] at begins
        cases begins
      | false =>
        obtain ⟨sign, rfl, outside⟩ := sign_of_isAt member isWord found
        rw [((standard_apart.1 other member).2.2 isWord).2]
        simp only [isRunChar, Bool.or_eq_false_iff, decide_eq_false_iff_not] at outside
        simp [atNameStart, atWordStart, outside]
    | none =>
      have kept := leads.mono (wordEnd_together among token.getLast?)
      have step := substituteFrom_token (forall_mem_singleton.mpr listed) kept next
      have same : piece [spelling] next token = piece (spelling :: done) before token := by
        rw [piece, piece, find?_cons, find?_cons, isAt_next listed start, seen]
        rfl
      rw [← replacer_eq listed, same] at step
      rw [piece, seen, map_none, getD_none, step]
      exact congrArg (_ ++ ·) (ih _ shorter (fun _ => rfl) rfl)

omit among in
/-- Spellings substituted one after the other come to a substitution of all together. -/
theorem foldl_substitute {order : List Spelling} (listed : ∀ spelling ∈ order, spelling ∈ Standard.spellings)
    (among : ∀ other ∈ done, other ∈ Standard.spellings) (text : Text) :
    order.foldl (fun text spelling => substitute spelling.replacer text) (substitute (together done) text) =
      substitute (together (order.reverse ++ done)) text := by
  induction order generalizing done with
  | nil => rfl
  | cons spelling order ih =>
    obtain ⟨here, later⟩ := forall_mem_cons.mp listed
    have step : substitute spelling.replacer (substitute (together done) text) =
        substitute (together (spelling :: done)) text :=
      substituteFrom_together among here fun _ => rfl
    rw [foldl_cons, step, ih later (forall_mem_cons.mpr ⟨here, among⟩), reverse_cons,
      append_assoc, singleton_append]

end Done

end Spelling

/-- Respelling does not look into what it has put in: in whatever order the words and symbols are taken, the
outcome is that of one walk through the text in which each word or sign gives way to the target of the
spelling that it is, if it is one. -/
theorem Language.respell_any_order {order : List Spelling} (same : order.Perm Standard.spellings) (text : Text) :
    ({ standardLanguage with spellings := order } : Language).respell text =
      substitute (Spelling.together Standard.spellings) text := by
  have idle : substitute (Spelling.together []) text = text := substituteFrom_idle (fun _ _ _ => rfl) none
  have folded := Spelling.foldl_substitute (fun spelling => same.mem_iff.mp) (forall_mem_nil _) text
  have back := (reverse_perm order).trans same
  have unordered : Spelling.together order.reverse = Spelling.together Standard.spellings := by
    funext before text
    rw [Spelling.together, find?_eq_find?_of_perm back fun first one second two => ?_]
    · rfl
    · exact (Spelling.standard_apart.2 first (back.mem_iff.mp one.1) second (back.mem_iff.mp two.1)).1
        ((Spelling.key_of_isAt one.2).1.symm.trans (Spelling.key_of_isAt two.2).1)
  rw [idle, append_nil, unordered] at folded
  exact folded

set_option maxRecDepth 4000 in
theorem Language.respell_any_order_reversed :
    Standard.spellings.reverse.Perm Standard.spellings ∧
      ({ standardLanguage with spellings := Standard.spellings.reverse } : Language).respell
        "p.et ET nonvrai≠ÉT 3mod x÷Fin_Ligne non".toList =
          "p.et and nonvrai~=ÉT 3mod x//'\\n' not".toList := by
  have same := reverse_perm Standard.spellings
  exact ⟨same, (Language.respell_any_order same _).trans (by decide)⟩

end Pseudocode
