import Pseudocode.Expression.Basic
import Pseudocode.Proofs.Seam

namespace Pseudocode

open List Placeholder

variable {strict : Bool}
variable {holds : Text → Prop} {callee : Callee} {passed rest text word : Text} {onOpen : Text → Notice}
  {before : Option Char} {c : Char} {head : CallHead} {names : List Text} {ok : Nat → Prop}
  {avoided : Char → Bool} {language : Language}

theorem Conversion.notify_settles {notice : Notice} {desk : Desk} :
    Settles strict (Conversion.notify notice) desk fun _ reached => reached.store = desk.store :=
  rfl

theorem Settles.notify {notice : Notice} {desk : Desk} {holds : Unit → Desk → Prop}
    (here : ∀ notices, holds () { desk with notices }) :
    Settles strict (Conversion.notify notice) desk holds :=
  here _

/-- What the conversion of calls needs to know of its parts. `holds` relates a text to what it
becomes, at a desk that `grows` from `start` while the work goes on. -/
structure CallPass (strict : Bool) (legal : Text → Prop) (callee : Callee)
    (build : CallHead → Text → Conversion Text) (start : Desk) (grows : Desk → Desk → Prop)
    (holds : Desk → Text → Text → Prop) : Prop where
  seamless : Seamless strict legal
  inert : ∀ c rest, isMark c = true → callee (c :: rest) = none
  written : ∀ text head, callee text = some head → text = head.written ++ text.drop head.length
  trans : ∀ {first second third}, grows first second → grows second third → grows first third
  noticed : ∀ desk notices, grows desk { desk with notices }
  mono : ∀ {desk reached text out}, grows desk reached → holds desk text out →
    holds reached text out
  same : ∀ {desk text}, grows start desk → legal text → holds desk text text
  append : ∀ {desk first second firstOut secondOut}, holds desk first firstOut →
    holds desk second secondOut → holds desk (first ++ second) (firstOut ++ secondOut)
  call : ∀ {desk head inside arguments text}, grows start desk → callee text = some head →
    legal text → legal head.written → holds desk inside arguments →
    Settles strict (build head arguments) desk fun out reached =>
      grows desk reached ∧ holds reached (head.written ++ inside ++ [')']) out

theorem convertCalls_passes (onOpen : Text → Notice) (build : CallHead → Text → Conversion Text)
    (inert : ∀ c ∈ passed, ∀ rest, callee (c :: rest) = none) (before : Option Char) (rest : Text) :
    ∃ next, convertCalls callee onOpen build before (passed ++ rest) = do
      return passed ++ (← convertCalls callee onOpen build next rest) := by
  induction passed generalizing before with
  | nil => exact ⟨before, by simp⟩
  | cons c passed ih =>
    obtain ⟨next, same⟩ := ih (fun d member => inert d (.tail _ member)) (some c)
    have none : callAt? callee before (c :: (passed ++ rest)) = none := by
      simp [callAt?, inert c (.head _)]
    refine ⟨next, ?_⟩
    rw [cons_append, convertCalls, none]
    simp only [same, bind_assoc, pure_bind, cons_append]

theorem convertCalls_plain {build : CallHead → Text → Conversion Text}
    (none : callAt? callee before (c :: rest) = none) :
    convertCalls callee onOpen build before (c :: rest) = do
      return c :: (← convertCalls callee onOpen build (some c) rest) := by
  rw [convertCalls, none]

theorem convertCalls_call {build : CallHead → Text → Conversion Text} {inside after : Text}
    (found : callAt? callee before (c :: rest) = some head)
    (closed : splitParen? ((c :: rest).drop head.length) = some (inside, after)) :
    convertCalls callee onOpen build before (c :: rest) = do
      let arguments ← convertCalls callee onOpen build none inside
      let replacement ← build head arguments
      return replacement ++ (← convertCalls callee onOpen build (some ')') after) := by
  rw [convertCalls, found]
  simp only
  split
  · simp_all
  · rename_i again
    obtain ⟨rfl, rfl⟩ := Prod.mk.inj (Option.some.inj (again.symm.trans closed))
    split
    rfl

theorem callAt?_eq_some
    (found : callAt? callee before text = some head) : atNameStart before = true ∧ callee text = some head := by
  simpa only [callAt?, Option.ite_none_right_eq_some] using found

/-- Without parentheses there is no call. -/
theorem callAt?_plain
    (written : ∀ text head, callee text = some head → text = head.written ++ text.drop head.length)
    (plain : '(' ∉ text) (before : Option Char) : callAt? callee before text = none := by
  refine Option.eq_none_iff_forall_ne_some.mpr fun head found => plain ?_
  rw [written _ _ (callAt?_eq_some found).2]
  simp [CallHead.written]

theorem convertCalls_idle {build : CallHead → Text → Conversion Text}
    (written : ∀ text head, callee text = some head → text = head.written ++ text.drop head.length)
    (plain : '(' ∉ text) (before : Option Char) :
    convertCalls callee onOpen build before text = pure text := by
  induction text generalizing before with
  | nil => rw [convertCalls]
  | cons c rest ih =>
    rw [convertCalls_plain (callAt?_plain written plain before), ih (not_mem_of_not_mem_cons plain), pure_bind]

/-- Every pass over the calls of a legal text settles, and what it gives is related to the text. -/
theorem CallPass.settles {legal : Text → Prop}
    {build : CallHead → Text → Conversion Text} {start : Desk} {grows : Desk → Desk → Prop}
    {holds : Desk → Text → Text → Prop} (pass : CallPass strict legal callee build start grows holds)
    (here : legal text) (before : Option Char) :
    Settles strict (convertCalls callee onOpen build before text) start fun out reached =>
      grows start reached ∧ holds reached text out := by
  -- Before the first call the text is passed over as a whole: between marks there is no place to cut it.
  suffices all : ∀ (passed : Text) desk, grows start desk → legal (passed ++ text) →
      Settles strict (convertCalls callee onOpen build before text) desk
        fun out reached => grows desk reached ∧ holds reached (passed ++ text) (passed ++ out) from
    all [] start (pass.noticed start _) here
  clear here
  fun_induction convertCalls callee onOpen build before text with
  | case1 =>
    intro passed desk started whole
    exact .pure ⟨pass.noticed desk _, pass.same started whole⟩
  | case2 before c rest none ih =>
    intro passed desk started whole
    rw [append_cons] at whole ⊢
    exact (ih _ desk started whole).bind fun out reached ⟨grown, holds⟩ => .pure ⟨grown, by simpa using holds⟩
  | case3 before c rest head found unclosed =>
    intro passed desk started whole
    exact .bind (.notify fun notices => pass.noticed desk notices) fun _ reached grown =>
      .pure ⟨grown, pass.same (pass.trans started grown) whole⟩
  | case4 before c rest head found inside after closed _ _ ihInside ihAfter =>
    intro passed desk started whole
    split
    have recognized := (callAt?_eq_some found).2
    have written := pass.written _ _ recognized
    have split := splitParen?_eq_some closed
    have plain : isMark c = false := by
      rw [← Bool.not_eq_true]
      exact fun mark => absurd recognized (by simp [pass.inert c rest mark])
    have shape : c :: rest = (head.name ++ head.gap) ++ '(' :: (c :: rest).drop head.length := by
      rw [CallHead.written, append_assoc _ ['('], singleton_append] at written
      exact written
    obtain ⟨legalPassed, legalText⟩ := pass.seamless.split_before whole plain
    obtain ⟨legalName, legalTail⟩ := pass.seamless.cut_at legalText shape (isMark_ascii (by decide))
    obtain ⟨legalInside, legalAfter⟩ := pass.seamless.cut_at legalTail split (isMark_ascii (by decide))
    have legalHead : legal head.written :=
      pass.seamless.append legalName (pass.seamless.ascii (by decide))
    refine (ihInside [] desk started legalInside).bind
      fun arguments reached ⟨insideGrown, insideHolds⟩ => ?_
    have insideStarted := pass.trans started insideGrown
    refine (pass.call insideStarted recognized legalText legalHead insideHolds).bind
      fun replacement later ⟨callGrown, callHolds⟩ => ?_
    have callStarted := pass.trans insideStarted callGrown
    refine (ihAfter [] later callStarted legalAfter).bind fun out final ⟨afterGrown, afterHolds⟩ => ?_
    refine .pure ⟨pass.trans insideGrown (pass.trans callGrown afterGrown), ?_⟩
    have text : c :: rest = (head.written ++ inside ++ [')']) ++ after := by
      rw [written, split]
      simp
    rw [text]
    exact pass.append (pass.same (pass.trans callStarted afterGrown) legalPassed)
      (pass.append (pass.mono afterGrown callHolds) afterHolds)

theorem headAt?_eq_some {length : Nat} (found : headAt? length text = some head) :
    head.name = text.take length ∧ text = head.written ++ text.drop head.length := by
  unfold headAt? at found
  simp only at found
  split at found
  · rename_i after opened
    obtain rfl := Option.some.inj found
    have rest : text.drop length = indentation (text.drop length) ++ '(' :: after := by
      rw [← opened, indentation, trimLeft, takeWhile_append_dropWhile]
    have split : text =
        text.take length ++ indentation (text.drop length) ++ ['('] ++ after := by
      conv_lhs => rw [← take_append_drop length text, rest]
      simp
    refine ⟨rfl, ?_⟩
    have dropped := congrArg (List.drop (CallHead.length
      { name := text.take length, gap := indentation (text.drop length) })) split
    rw [drop_left' (by simp [CallHead.length, Nat.add_assoc])] at dropped
    rw [dropped]
    exact split
  · simp at found

theorem dropWord?_eq_some (found : dropWord? word text = some rest) :
    text = text.take word.length ++ rest ∧
      (text.take word.length).map caseKey = word.map caseKey := by
  induction word generalizing text with
  | nil =>
    rw [dropWord?, Option.some.injEq] at found
    simp [found]
  | cons w word ih =>
    cases text with
    | nil => simp [dropWord?] at found
    | cons c text =>
      rw [dropWord?] at found
      split at found
      · rename_i same
        obtain ⟨split, letters⟩ := ih found
        refine ⟨?_, ?_⟩
        · simpa using split
        · simp [letters, same]
      · simp at found

theorem dropWord?_mark (nonempty : word ≠ [])
    (unmarked : ∀ w ∈ word, isMark w = false) (mark : isMark c = true) (rest : Text) :
    dropWord? word (c :: rest) = none := by
  cases word with
  | nil => exact absurd rfl nonempty
  | cons w word =>
    have other : caseKey w ≠ caseKey c := by
      intro same
      have marked := unmarked w (.head _)
      rw [eq_of_caseKey_mark mark same, mark] at marked
      simp at marked
    rw [dropWord?, if_neg other]

/-- In a text of plain case, small letters are what is compared in any letter case. -/
theorem lower_eq_map_caseKey (plain : ∀ c ∈ text, isPlainCase c = true) :
    lower text = text.map caseKey := by
  suffices all : ∀ before, lowerAfter before text = text.map caseKey from all []
  induction text with
  | nil => intro before; rfl
  | cons c rest ih =>
    intro before
    have here := plain c (.head _)
    simp only [isPlainCase, Bool.and_eq_true, decide_eq_true_eq, ne_eq] at here
    have sigma : c ≠ 'Σ' := by
      rintro rfl
      exact absurd here.1 (by decide)
    rw [lowerAfter, if_neg here.2, if_neg sigma, singleton_append,
      ih fun d member => plain d (.tail _ member), map_cons, here.1]

theorem namedCallee_eq_some (found : namedCallee names text = some head) :
    text = head.written ++ text.drop head.length ∧
      ∃ name ∈ names, head.name.map caseKey = name.map caseKey := by
  obtain ⟨name, member, found⟩ := exists_of_findSome?_eq_some found
  obtain ⟨rest, word, found⟩ := Option.bind_eq_some_iff.mp found
  obtain ⟨named, split⟩ := headAt?_eq_some found
  exact ⟨split, name, member, named ▸ (dropWord?_eq_some word).2⟩

theorem namedCallee_mark
    (unmarked : ∀ name ∈ names, name ≠ [] ∧ ∀ w ∈ name, isMark w = false) (c : Char) (rest : Text)
    (mark : isMark c = true) : namedCallee names (c :: rest) = none := by
  rw [namedCallee, findSome?_eq_none_iff]
  intro name member
  obtain ⟨nonempty, plain⟩ := unmarked name member
  rw [dropWord?_mark nonempty plain mark, Option.bind_none]

theorem anyCallee_eq_some (found : anyCallee text = some head) :
    text = head.written ++ text.drop head.length := by
  obtain ⟨⟨name, rest⟩, word, found⟩ := Option.bind_eq_some_iff.mp found
  exact (headAt?_eq_some found).2

theorem anyCallee_mark (c : Char) (rest : Text) (mark : isMark c = true) :
    anyCallee (c :: rest) = none := by
  simp [anyCallee, identifier?, isMark_not_startsIdentifier mark]

/-- Plain case throughout, and no character of a placeholder. -/
def isTame (text : Text) : Bool :=
  text.all fun c => isPlainCase c && !isMark c

theorem isTame_eq :
    isTame text = text.all fun c => c.toNat < 128 || (isPlainCase c && !isMark c) := by
  unfold isTame
  congr 1
  funext c
  by_cases ascii : c.toNat < 128
  · simp [ascii, isPlainCase_ascii ascii, isMark_ascii ascii]
  · simp [ascii]

theorem isTame_iff :
    isTame text = true ↔ ∀ c ∈ text, isPlainCase c = true ∧ isMark c = false := by
  simp [isTame]

/-- No character of a placeholder, and in a strict reading plain case throughout. -/
def IsClean (strict : Bool) (text : Text) : Prop :=
  ∀ c ∈ text, isMark c = false ∧ (strict = true → isPlainCase c = true)

theorem IsClean.of_tame (tame : isTame text = true) : IsClean strict text := by
  intro c member
  obtain ⟨plainCase, unmarked⟩ := isTame_iff.mp tame c member
  exact ⟨unmarked, fun _ => plainCase⟩

theorem Legible.of_clean (clean : IsClean strict text) :
    Legible strict ok text :=
  .of_plain fun c member => by
    obtain ⟨unmarked, plainCase⟩ := clean c member
    exact ⟨by rintro rfl; exact absurd unmarked (by decide), plainCase⟩

theorem Legible.of_tame (tame : isTame text = true) :
    Legible strict ok text :=
  .of_clean (.of_tame tame)

/-- Small letters never are reserved characters. -/
theorem lower_avoids (reserved : ∀ c, avoided c = true → isReserved c = true)
    (free : ∀ c ∈ text, avoided c = false) : ∀ c ∈ lower text, avoided c = false := by
  have small {c : Char} (letter : isReserved c = false) : avoided c = false :=
    Bool.eq_false_iff.mpr fun found => by simp [reserved c found] at letter
  suffices all : ∀ before, ∀ c ∈ lowerAfter before text, avoided c = false from all []
  induction text with
  | nil => simp [lowerAfter]
  | cons d rest ih =>
    intro before c member
    rw [lowerAfter] at member
    rcases mem_append.mp member with here | later
    · split at here
      · rcases mem_pair.mp here with rfl | rfl <;> exact small (by decide)
      · split at here
        · rw [mem_singleton.mp here]
          split <;> exact small (by decide)
        · by_contra found
          rw [mem_singleton] at here
          have avoids : avoided (smallLetter d) = true := here ▸ by simpa using found
          have within := reserved _ avoids
          have same : caseKey d = caseKey (smallLetter d) := by
            simp only [caseKey, smallLetter_reserved within]
          have other := free d (.head _)
          rw [eq_of_caseKey_reserved within same, avoids] at other
          simp at other
    · exact ih (fun other inside => free other (.tail _ inside)) _ c later

/-- A word with the letters of another one in any case holds the same reserved characters. -/
theorem avoids_of_caseKey (reserved : ∀ c, avoided c = true → isReserved c = true)
    (free : ∀ c ∈ word, avoided c = false) (same : text.map caseKey = word.map caseKey) :
    ∀ c ∈ text, avoided c = false := by
  intro c member
  by_contra found
  have avoids : avoided c = true := by simpa using found
  have key : caseKey c ∈ word.map caseKey := same ▸ mem_map_of_mem member
  obtain ⟨w, inside, equal⟩ := mem_map.mp key
  have other := free w inside
  rw [eq_of_caseKey_reserved (reserved c avoids) equal, avoids] at other
  simp at other

theorem unmarked_of_caseKey (unmarked : ∀ c ∈ word, isMark c = false)
    (same : text.map caseKey = word.map caseKey) : ∀ c ∈ text, isMark c = false :=
  avoids_of_caseKey (fun _ => isMark_reserved) unmarked same

/-- What conversion needs of the texts of a language: they spoil no placeholder, and a built-in
that becomes an operator has its operands. -/
structure Language.Regular (language : Language) : Prop where
  names : ∀ builtin ∈ language.builtins, builtin.name ≠ [] ∧ isTame builtin.name = true
  helpers : ∀ builtin ∈ language.builtins, isTame builtin.helper = true
  operands : ∀ builtin ∈ language.builtins,
    (builtin.helper = ['#'] → 1 ≤ builtin.arity) ∧ (builtin.helper = ['.', '.'] → 2 ≤ builtin.arity)
  sources : ∀ spelling ∈ language.spellings, spelling.source ≠ [] ∧ isTame spelling.source = true
  targets : ∀ spelling ∈ language.spellings, isTame spelling.target = true

theorem standardLanguage_regular : standardLanguage.Regular := by
  have builtins : ∀ builtin ∈ standardLanguage.builtins,
      (builtin.name ≠ [] ∧ isTame builtin.name = true) ∧ isTame builtin.helper = true ∧
        (builtin.helper = ['#'] → 1 ≤ builtin.arity) ∧
        (builtin.helper = ['.', '.'] → 2 ≤ builtin.arity) := by
    -- Table by table: one evaluation over all of them takes a lot of memory.
    simp only [isTame_eq, standardLanguage, Standard.builtins, forall_mem_append]
    refine ⟨⟨⟨⟨⟨⟨?_, ?_⟩, ?_⟩, ?_⟩, ?_⟩, ?_⟩, ?_⟩
    all_goals decide +kernel
  have spellings : ∀ spelling ∈ standardLanguage.spellings,
      (spelling.source ≠ [] ∧ isTame spelling.source = true) ∧ isTame spelling.target = true := by
    decide +kernel
  exact ⟨fun b member => (builtins b member).1, fun b member => (builtins b member).2.1,
    fun b member => (builtins b member).2.2, fun s member => (spellings s member).1,
    fun s member => (spellings s member).2⟩

/-- The structures that have a constructor of their own are named in plain small letters. -/
theorem structureNames_tame : ∀ name ∈ Context.structureNames,
    name ≠ [] ∧ isTame name = true ∧ name.map caseKey = name := by
  decide

/-- A property that every pass over a text keeps: what the language puts into a text has it too. -/
structure Language.Carries (language : Language) (strict : Bool) (holds : Text → Prop) : Prop
    extends Seamless strict holds where
  helpers : ∀ builtin ∈ language.builtins, holds builtin.helper
  targets : ∀ spelling ∈ language.spellings, holds spelling.target
  kinds : ∀ {name : Text}, name.map caseKey ∈ Context.structureNames → holds name → holds (lower name)

theorem Legible.carries (regular : language.Regular) (ok : Nat → Prop) :
    language.Carries strict (Legible strict ok) where
  toSeamless := Legible.seamless
  helpers builtin member := .of_tame (regular.helpers builtin member)
  targets spelling member := .of_tame (regular.targets spelling member)
  kinds := by
    intro name member legible
    obtain ⟨-, tame, small⟩ := structureNames_tame _ member
    have unmarked := lower_avoids (fun _ => isMark_reserved) (unmarked_of_caseKey
      (fun w inside => (isTame_iff.mp tame w inside).2) small.symm)
    refine .of_clean fun c inside => ⟨unmarked c inside, fun isStrict => ?_⟩
    rw [lower_eq_map_caseKey (legible.plainCase isStrict)] at inside
    exact (isTame_iff.mp tame c inside).1

section Passes

variable {holds : Text → Prop} {language : Language} {text : Text}
variable {context : Context} {builtin : Builtin}

/-- A pass over calls that leaves the store alone. -/
theorem CallPass.keeping {build : CallHead → Text → Conversion Text} {start : Desk}
    (seamless : Seamless strict holds) (inert : ∀ c rest, isMark c = true → callee (c :: rest) = none)
    (written : ∀ text head, callee text = some head → text = head.written ++ text.drop head.length)
    (call : ∀ {desk head arguments text}, callee text = some head → holds head.written →
      holds arguments → Settles strict (build head arguments) desk fun out reached =>
        reached.store = desk.store ∧ holds out) :
    CallPass strict holds callee build start (fun desk reached => reached.store = desk.store)
      (fun _ _ out => holds out) where
  seamless := seamless
  inert := inert
  written := written
  trans first second := second.trans first
  noticed _ _ := rfl
  mono _ := id
  same _ := id
  append := seamless.append
  call _ found _ := call found

namespace Joinable

variable {arguments : Text}

theorem called (joins : Joinable holds) {function : Text} (name : holds function) (here : holds arguments) :
    holds (function ++ '(' :: arguments ++ [')']) := by
  have opened : holds (function ++ ['('] ++ arguments) := joins.between name (by decide) here
  simpa using joins.trail opened (show isTrail [')'] = true by decide)

theorem braced (joins : Joinable holds) (here : holds arguments) : holds (ListLiteral.braced arguments) :=
  joins.enclosed (show isLead ['\x7b'] = true by decide) here (by decide)

theorem apply (joins : Joinable holds) (written : holds head.written)
    (here : holds arguments) : holds (head.apply arguments) := by
  have opened : Joint head.written arguments := .inl (by simp [CallHead.written]; decide)
  exact joins.trail (joins.fit opened written here) (by decide)

end Joinable

theorem take_length_sub (split : text = passed ++ rest) :
    text.take (text.length - rest.length) = passed := by
  rw [split, length_append, Nat.add_sub_cancel, take_left]

theorem trimLeft_split (text : Text) : ∃ passed, text = passed ++ trimLeft text ∧
    ∀ c ∈ passed, isMark c = false :=
  ⟨indentation text, takeWhile_append_dropWhile.symm,
    fun _ member => blank_unmarked (mem_takeWhile_imp member)⟩

theorem pairArrow_neat (seamless : Seamless strict holds) : Context.pairArrow.Neat holds := by
  intro before text n new found
  unfold Context.pairArrow at found
  split at found
  · rename_i rest shape
    obtain ⟨rfl, rfl⟩ := Prod.mk.inj (Option.some.inj found)
    obtain ⟨left, leftSplit, leftUnmarked⟩ := trimLeft_split text
    obtain ⟨right, rightSplit, rightUnmarked⟩ := trimLeft_split rest
    have whole : text = (left ++ '→' :: right) ++ trimLeft rest := by
      rw [append_assoc, cons_append, ← rightSplit, ← shape, ← leftSplit]
    rw [take_length_sub whole]
    refine ⟨by simp, fun c member => ?_, seamless.ascii (by decide)⟩
    rcases mem_append.mp member with inLeft | inRight
    · exact leftUnmarked c inLeft
    · rcases mem_cons.mp inRight with rfl | later
      · decide
      · exact rightUnmarked c later
  · simp at found

theorem Seamless.structureCall (seamless : Seamless strict holds) {kind arguments : Text}
    (name : holds kind) (here : holds arguments) : holds (Context.structureCall kind arguments) := by
  have helper (suffix : Text) (ascii : suffix.all (·.toNat < 128) = true) :
      holds ("__psc_".toList ++ kind ++ suffix) :=
    seamless.append (seamless.append (seamless.ascii (by decide)) name) (seamless.ascii ascii)
  unfold Context.structureCall
  simp only
  split
  · exact seamless.fitting.called (seamless.ascii (by decide)) (seamless.fitting.braced here)
  · split
    · exact seamless.fitting.called (helper _ (by decide)) (seamless.fitting.braced here)
    · split
      · split
        · exact helper _ (by decide)
        · exact seamless.append (seamless.append (helper _ (by decide))
            (seamless.substitute (pairArrow_neat seamless) here)) (seamless.ascii (by decide))
      · split
        · exact helper _ (by decide)
        · exact seamless.fitting.called (helper _ (by decide)) (seamless.fitting.braced here)

theorem convertStructures_settles (carries : context.language.Carries strict holds)
    (here : holds text) (desk : Desk) :
    Settles strict (context.convertStructures text) desk fun out reached =>
      reached.store = desk.store ∧ holds out := by
  have seamless := carries.toSeamless
  refine (CallPass.keeping seamless (namedCallee_mark fun name member => ?_)
    (fun text head found => (namedCallee_eq_some found).1) ?_).settles here none
  · obtain ⟨nonempty, tame, -⟩ := structureNames_tame name member
    exact ⟨nonempty, fun w inside => (isTame_iff.mp tame w inside).2⟩
  · intro desk head arguments text found written here
    refine .pure ⟨rfl, ?_⟩
    split
    · exact seamless.fitting.apply written here
    · obtain ⟨split, name, member, letters⟩ := namedCallee_eq_some found
      obtain ⟨-, tame, small⟩ := structureNames_tame name member
      rw [small] at letters
      have unmarked := unmarked_of_caseKey (fun w inside => (isTame_iff.mp tame w inside).2)
        (letters.trans small.symm)
      rw [CallHead.written, append_assoc] at written
      exact seamless.structureCall
        (carries.kinds (letters ▸ member) (seamless.split_free written unmarked).1) here

theorem argumentAt_settles {arguments : List Text} {place : Nat}
    (within : strict = true → place < arguments.length) (each : ∀ argument ∈ arguments, holds argument)
    (desk : Desk) :
    Settles strict (Context.argumentAt arguments place) desk fun out reached =>
      reached = desk ∧ holds out := by
  unfold Context.argumentAt
  split
  · rename_i argument found
    exact .pure ⟨rfl, each argument (mem_of_getElem? found)⟩
  · rename_i none
    refine .throw (Bool.eq_false_iff.mpr fun isStrict => ?_)
    exact absurd (getElem?_eq_none_iff.mp none) (Nat.not_le.mpr (within isStrict))

theorem inlineForm_settles (joins : Joinable holds) {arguments : List Text} (helper : holds builtin.helper)
    (operands : strict = true → (builtin.helper = ['#'] → 1 ≤ builtin.arity) ∧
      (builtin.helper = ['.', '.'] → 2 ≤ builtin.arity))
    (count : arguments.length = builtin.arity) (each : ∀ argument ∈ arguments, holds argument)
    (desk : Desk) :
    Settles strict (Context.inlineForm builtin arguments) desk fun out reached =>
      reached.store = desk.store ∧ holds out := by
  have argument (place : Nat) (desk : Desk) (within : strict = true → place < builtin.arity) :=
    @argumentAt_settles strict holds arguments place (count ▸ within) each desk
  unfold Context.inlineForm
  split
  · rename_i isLength
    refine (argument 0 desk fun isStrict => (operands isStrict).1 isLength).bind ?_
    rintro argument _ ⟨rfl, here⟩
    refine .pure ⟨rfl, ?_⟩
    split
    · exact joins.lead (show isLead ['#'] = true by decide) here
    · exact joins.enclosed (by decide) here (by decide)
  · split
    · rename_i isConcat
      have two (isStrict : strict = true) := (operands isStrict).2 isConcat
      refine (argument 0 desk fun isStrict => Nat.lt_of_succ_lt (two isStrict)).bind ?_
      rintro first _ ⟨rfl, firstHolds⟩
      refine (argument 1 _ two).bind ?_
      rintro second _ ⟨rfl, secondHolds⟩
      exact .pure ⟨rfl, joins.between firstHolds (by decide) secondHolds⟩
    · split
      · rename_i two
        refine (argument 0 desk fun _ => by omega).bind ?_
        rintro subject _ ⟨rfl, subjectHolds⟩
        refine (argument 1 _ fun _ => by omega).bind ?_
        rintro place _ ⟨rfl, placeHolds⟩
        refine .pure ⟨rfl, joins.called helper (joins.commaSeparated ?_)⟩
        simp [subjectHolds, placeHolds]
      · exact .pure ⟨rfl, joins.called helper (joins.commaSeparated each)⟩

namespace Context

variable {context : Context} {head : CallHead} {arguments : Text}

theorem inlineCall_settles (joins : Joinable holds)
    (helpers : ∀ builtin ∈ context.language.builtins, holds builtin.helper)
    (regular : strict = true → context.language.Regular)
    (listed : strict = true → ∃ meant, context.language.builtin? head.name = some meant)
    (written : holds head.written) (here : holds arguments)
    (each : ∀ argument ∈ splitArguments arguments, holds argument) (desk : Desk) :
    Settles strict (context.inlineCall head arguments) desk fun out reached =>
      reached.store = desk.store ∧ holds out := by
  unfold inlineCall
  split
  · exact .pure ⟨rfl, joins.apply written here⟩
  · cases lookup : context.language.builtin? head.name with
    | none =>
      refine .throw (Bool.eq_false_iff.mpr fun isStrict => ?_)
      obtain ⟨_, known⟩ := listed isStrict
      simp [known] at lookup
    | some meant =>
      have member := mem_reverse.mp (mem_of_find?_eq_some lookup)
      simp only
      split
      · exact .pure ⟨rfl, joins.apply written here⟩
      · rename_i count
        exact inlineForm_settles joins (helpers meant member)
          (fun isStrict => (regular isStrict).operands meant member) (by simpa using count) each desk

theorem helperCall_holds (joins : Joinable holds)
    (helpers : ∀ builtin ∈ context.language.builtins, holds builtin.helper) (written : holds head.written)
    (here : holds arguments) : holds (context.helperCall head arguments) := by
  unfold helperCall
  split
  · rename_i builtin lookup
    split
    · exact joins.apply written here
    · exact joins.called (helpers builtin (mem_reverse.mp (mem_of_find?_eq_some lookup))) here
  · exact joins.apply written here

end Context

/-- A name that matches that of a built-in in any letter case is looked up. -/
theorem Language.builtin?_isSome (regular : language.Regular) {name : Text}
    (plain : ∀ c ∈ name, isPlainCase c = true)
    (member : builtin ∈ language.builtins)
    (letters : name.map caseKey = builtin.name.map caseKey) :
    ∃ found ∈ language.builtins, language.builtin? name = some found := by
  have same : lower builtin.name = lower name := by
    rw [lower_eq_map_caseKey plain, letters, lower_eq_map_caseKey fun c inside =>
      (isTame_iff.mp (regular.names builtin member).2 c inside).1]
  cases found : language.builtin? name with
  | none =>
    have none := find?_eq_none.mp found builtin (mem_reverse.mpr member)
    simp [same] at none
  | some meant =>
    exact ⟨meant, mem_reverse.mp (mem_of_find?_eq_some found), rfl⟩

theorem convertInline_settles (regular : context.language.Regular)
    (carries : context.language.Carries strict holds) (here : holds text) (desk : Desk) :
    Settles strict (context.convertInline text) desk fun out reached =>
      reached.store = desk.store ∧ holds out := by
  have seamless := carries.toSeamless
  have inline {name : Text} (member : name ∈ Context.inlineNames context.language) :
      ∃ builtin ∈ context.language.builtins, builtin.name = name := by
    obtain ⟨builtin, inside, named⟩ := mem_map.mp (mem_mergeSort.mp member)
    exact ⟨builtin, (mem_filter.mp inside).1, named⟩
  unfold Context.convertInline
  simp only
  split
  · exact .pure ⟨rfl, here⟩
  · refine (CallPass.keeping seamless (namedCallee_mark fun name member => ?_)
      (fun text head found => (namedCallee_eq_some found).1) ?_).settles here none
    · obtain ⟨builtin, inside, rfl⟩ := inline member
      obtain ⟨nonempty, tame⟩ := regular.names builtin inside
      exact ⟨nonempty, fun w member => (isTame_iff.mp tame w member).2⟩
    · intro desk head arguments text found written here
      refine Context.inlineCall_settles seamless.fitting.toJoinable carries.helpers (fun _ => regular)
        (fun isStrict => ?_) written here (seamless.splitArguments here) desk
      obtain ⟨-, name, member, letters⟩ := namedCallee_eq_some found
      obtain ⟨builtin, inside, rfl⟩ := inline member
      have plain : ∀ c ∈ head.name, isPlainCase c = true := fun c inside =>
        seamless.cased isStrict written c (by simp [CallHead.written, inside])
      obtain ⟨meant, -, known⟩ := Language.builtin?_isSome regular plain inside letters
      exact ⟨meant, known⟩

theorem convertBuiltins_settles (carries : context.language.Carries strict holds)
    (here : holds text) (desk : Desk) :
    Settles strict (context.convertBuiltins text) desk fun out reached =>
      reached.store = desk.store ∧ holds out := by
  have seamless := carries.toSeamless
  refine (CallPass.keeping seamless anyCallee_mark (fun text head => anyCallee_eq_some) ?_).settles
    here none
  exact fun _ written here =>
    .pure ⟨rfl, Context.helperCall_holds seamless.fitting.toJoinable carries.helpers written here⟩

theorem dropWord?_unmarked (tame : isTame word = true)
    (found : dropWord? word text = some rest) : ∀ c ∈ text.take word.length, isMark c = false :=
  unmarked_of_caseKey (fun w inside => (isTame_iff.mp tame w inside).2) (dropWord?_eq_some found).2

theorem dropWord?_length (found : dropWord? word text = some rest) :
    text.length = word.length + rest.length := by
  obtain ⟨split, letters⟩ := dropWord?_eq_some found
  have taken := congrArg List.length letters
  simp only [length_map] at taken
  have whole := congrArg List.length split
  rw [length_append] at whole
  omega

theorem Spelling.replacer_neat {spelling : Spelling}
    (source : spelling.source ≠ [] ∧ isTame spelling.source = true) (target : holds spelling.target) :
    spelling.replacer.Neat holds := by
  intro before text n new found
  obtain ⟨nonempty, tame⟩ := source
  unfold Spelling.replacer at found
  split at found
  · unfold wordReplacer at found
    split at found
    · obtain ⟨rest, whole, same⟩ := Option.map_eq_some_iff.mp found
      obtain ⟨rfl, rfl⟩ := Prod.mk.inj same
      have word := (Option.filter_eq_some_iff.mp whole).1
      refine ⟨fun empty => nonempty ?_, dropWord?_unmarked tame word, target⟩
      have letters := (dropWord?_eq_some word).2
      rw [empty] at letters
      simpa using letters.symm
    · simp at found
  · unfold literally at found
    split at found
    · rename_i starts
      obtain ⟨rfl, rfl⟩ := Prod.mk.inj (Option.some.inj found)
      obtain ⟨rest, rfl⟩ := isPrefixOf_iff_prefix.mp starts
      rw [take_left]
      exact ⟨nonempty, fun w inside => (isTame_iff.mp tame w inside).2, target⟩
    · simp at found

theorem Language.Carries.respell (carries : language.Carries strict holds)
    (regular : language.Regular) (here : holds text) : holds (language.respell text) := by
  unfold Language.respell
  have sources := regular.sources
  have targets := carries.targets
  generalize language.spellings = spellings at sources targets
  induction spellings generalizing text with
  | nil => exact here
  | cons spelling spellings ih =>
    refine ih (carries.substitute (Spelling.replacer_neat (sources _ (.head _))
      (targets _ (.head _))) here) (fun other member => ?_) fun other member => ?_
    · exact sources other (.tail _ member)
    · exact targets other (.tail _ member)

theorem equality_neat (seamless : Seamless strict holds) (comparison : Bool) :
    Replacer.Neat (equality comparison) holds := by
  intro before text n new found
  unfold equality at found
  split at found
  · split at found
    · simp at found
    · split at found
      all_goals
        obtain ⟨rfl, rfl⟩ := Prod.mk.inj (Option.some.inj found)
        exact ⟨by simp, by simpa using by decide, seamless.ascii (by decide)⟩
  · simp at found

theorem dropEmptyCall?_split (found : Statement.dropEmptyCall? text = some rest) :
    ∃ passed, text = passed ++ [')'] ++ rest ∧ ∀ c ∈ passed ++ [')'], isMark c = false := by
  unfold Statement.dropEmptyCall? at found
  split at found
  · rename_i opened shape
    split at found
    · rename_i closed inner
      obtain rfl := Option.some.inj found
      obtain ⟨left, leftSplit, leftUnmarked⟩ := trimLeft_split text
      obtain ⟨middle, middleSplit, middleUnmarked⟩ := trimLeft_split opened
      refine ⟨left ++ '(' :: middle, ?_, ?_⟩
      · conv_lhs => rw [leftSplit, shape, middleSplit, inner]
        simp
      · simp only [mem_append, mem_cons, not_mem_nil, or_false]
        rintro c ((inLeft | rfl | inMiddle) | rfl)
        · exact leftUnmarked c inLeft
        · decide
        · exact middleUnmarked c inMiddle
        · decide
    · simp at found
  · simp at found

theorem inputCall_neat (seamless : Seamless strict holds) : inputCall.Neat holds := by
  intro before text n new found
  unfold inputCall at found
  split at found
  · obtain ⟨rest, called, same⟩ := Option.map_eq_some_iff.mp found
    obtain ⟨rfl, rfl⟩ := Prod.mk.inj same
    obtain ⟨afterWord, word, call⟩ := Option.bind_eq_some_iff.mp called
    obtain ⟨passed, callSplit, unmarked⟩ := dropEmptyCall?_split call
    have length := dropWord?_length word
    have whole : text = (text.take 4 ++ (passed ++ [')'])) ++ rest := by
      rw [append_assoc, ← callSplit]
      exact (dropWord?_eq_some word).1
    have wordUnmarked := dropWord?_unmarked (by decide) word
    rw [take_length_sub whole]
    refine ⟨fun empty => ?_, fun c member => ?_, seamless.ascii (by decide)⟩
    · have short := congrArg List.length (append_eq_nil_iff.mp empty).1
      rw [length_take, length_nil] at short
      have four : "lire".toList.length = 4 := by decide
      omega
    · exact (mem_append.mp member).elim (wordUnmarked c) (unmarked c)
  · simp at found

end Passes

namespace ListLiteral

variable {afterKeyword : Bool} {last : Option Char} {rest inside after : Text}

theorem convertFrom_cons (plain : c ≠ '(') :
    convertFrom afterKeyword last (c :: rest) =
      c :: convertFrom afterKeyword (if isBlank c then last else some c) rest := by
  rw [convertFrom, if_neg plain]

theorem convertFrom_group (closed : splitParen? rest = some (inside, after)) :
    convertFrom afterKeyword last ('(' :: rest) =
      (if mayOpen afterKeyword last && isContent (convertFrom false none inside) then
        build (commaSeparated (splitArguments (convertFrom false none inside)))
      else '(' :: convertFrom false none inside ++ [')']) ++
        convertFrom afterKeyword (some ')') after := by
  rw [convertFrom, if_pos rfl]
  split
  · simp_all
  · rename_i again
    obtain ⟨rfl, rfl⟩ := Prod.mk.inj (Option.some.inj (again.symm.trans closed))
    split
    rfl

/-- Without parentheses there is no list. -/
theorem convertFrom_idle (plain : '(' ∉ text) (afterKeyword : Bool)
    (last : Option Char) : convertFrom afterKeyword last text = text := by
  induction text generalizing last with
  | nil => rw [convertFrom]
  | cons c rest ih =>
    rw [convertFrom_cons (Ne.symm (ne_of_not_mem_cons plain)),
      ih (not_mem_of_not_mem_cons plain)]

theorem convertFrom_seamless (seamless : Seamless strict holds)
    (here : holds text) : holds (convertFrom afterKeyword last text) := by
  suffices all : ∀ passed : Text, holds (passed ++ text) →
      holds (passed ++ convertFrom afterKeyword last text) from all [] here
  clear here
  fun_induction convertFrom afterKeyword last text with
  | case1 => exact fun _ here => here
  | case2 => exact fun _ here => here
  | case3 afterKeyword last rest inside after closed _ _ ihInside ihAfter =>
    intro passed here
    obtain ⟨first, -, tail⟩ := seamless.cut here (isMark_ascii (by decide))
    obtain ⟨insideHolds, afterHolds⟩ := seamless.cut_at tail (splitParen?_eq_some closed) (isMark_ascii (by decide))
    have contentHolds := ihInside [] insideHolds
    split
    refine seamless.append first (seamless.append ?_ (ihAfter [] afterHolds))
    split
    · exact seamless.fitting.called (seamless.ascii (by decide))
        (seamless.fitting.braced (seamless.fitting.commaSeparated (seamless.splitArguments contentHolds)))
    · exact seamless.fitting.called seamless.nil contentHolds
  | case4 afterKeyword last c rest plain ih =>
    intro passed here
    rw [append_cons] at here ⊢
    exact ih _ here

end ListLiteral

namespace Index

variable {written rest inside after : Text}

theorem convertFrom_cons (plain : c ≠ '[') :
    convertFrom written (c :: rest) = do return c :: (← convertFrom (c :: written) rest) := by
  rw [convertFrom, if_neg plain]

/-- What brackets with a converted inside become. -/
def group (store : Store) (written inside : Text) : Text :=
  if isPosition written then access store inside else ListLiteral.braced inside

theorem convertFrom_group (closed : splitClose? '[' ']' 0 rest = some (inside, after)) :
    convertFrom written ('[' :: rest) = do
      let inside ← convertFrom [] inside
      let store := (← get).store
      return group store written inside ++
        (← convertFrom ((group store written inside).reverse ++ written) after) := by
  rw [convertFrom, if_pos rfl]
  split
  · simp_all
  · rename_i again
    obtain ⟨rfl, rfl⟩ := Prod.mk.inj (Option.some.inj (again.symm.trans closed))
    rfl

theorem convertFrom_passes (inert : ∀ c ∈ passed, c ≠ '[') :
    convertFrom written (passed ++ rest) = do
      return passed ++ (← convertFrom (passed.reverse ++ written) rest) := by
  induction passed generalizing written with
  | nil => simp
  | cons c passed ih =>
    rw [cons_append, convertFrom_cons (inert c (.head _)),
      ih fun d member => inert d (.tail _ member)]
    simp

theorem convert_idle (plain : '[' ∉ text) : Index.convert text = pure text := by
  have passed : convertFrom [] (text ++ []) = do
      return text ++ (← convertFrom (text.reverse ++ []) []) :=
    convertFrom_passes fun c member => ne_of_mem_of_not_mem member plain
  rw [append_nil] at passed
  rw [convert, passed, convertFrom]
  simp

theorem access_seamless (seamless : Seamless strict holds) (store : Store)
    (here : holds inside) : holds (access store inside) := by
  have each : ∀ index ∈ splitArguments inside, holds (bracketed store index) := by
    intro index member
    have argument := seamless.splitArguments here index member
    unfold bracketed
    split
    · exact seamless.cons_ascii (by decide) (seamless.append argument (seamless.ascii (by decide)))
    · exact seamless.append (seamless.append (seamless.ascii (by decide)) argument)
        (seamless.ascii (by decide))
  unfold access
  split
  · exact seamless.ascii (by decide)
  · generalize splitArguments inside = indices at each
    induction indices with
    | nil => exact seamless.nil
    | cons index indices ih =>
      rw [flatMap_cons]
      exact seamless.append (each index (.head _))
        (ih fun other member => each other (.tail _ member))

theorem convertFrom_settles (seamless : Seamless strict holds)
    (here : holds text) (written : Text) (desk : Desk) :
    Settles strict (convertFrom written text) desk fun out reached =>
      reached.store = desk.store ∧ holds out := by
  suffices all : ∀ (passed : Text) desk, holds (passed ++ text) →
      Settles strict (convertFrom written text) desk fun out reached =>
        reached.store = desk.store ∧ holds (passed ++ out) from all [] desk here
  clear here
  fun_induction convertFrom written text with
  | case1 => exact fun _ _ here => .pure ⟨rfl, here⟩
  | case2 => exact fun _ _ here => Conversion.notify_settles.bind fun _ _ kept => .pure ⟨kept, here⟩
  | case3 written rest inside after closed _ ihInside ihAfter =>
    intro passed desk here
    obtain ⟨first, -, tail⟩ := seamless.cut here (isMark_ascii (by decide))
    obtain ⟨insideHolds, afterHolds⟩ := seamless.cut_at tail (splitClose?_eq_some closed) (isMark_ascii (by decide))
    refine (ihInside [] desk insideHolds).bind fun content reached ⟨kept, contentHolds⟩ => .get_bind ?_
    refine (ihAfter content reached [] reached afterHolds).bind fun out final ⟨keptLater, outHolds⟩ =>
      .pure ⟨keptLater.trans kept, seamless.append first (seamless.append ?_ outHolds)⟩
    split
    · exact access_seamless seamless _ contentHolds
    · exact seamless.fitting.braced contentHolds
  | case4 written c rest plain ih =>
    intro passed desk here
    rw [append_cons] at here
    exact (ih _ desk here).bind fun out reached ⟨kept, outHolds⟩ => .pure ⟨kept, by simpa using outHolds⟩

end Index

end Pseudocode
