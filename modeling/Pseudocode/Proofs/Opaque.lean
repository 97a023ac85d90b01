import Pseudocode.Proofs.Total

namespace Pseudocode

open List Placeholder
variable {text : Text} {store : Store}

/-- What is held, with a literal in other words. -/
def Held.reword (change : Text → Text) : Held → Held
  | .literal text => .literal (change text)
  | .table entries => .table entries

/-- The store with every literal in other words, which may depend on its index. -/
def Store.reword (change : Nat → Text → Text) (store : Store) : Store where
  held := store.held.mapIdx fun index part => part.reword (change index)

def Desk.reword (change : Nat → Text → Text) (desk : Desk) : Desk :=
  { desk with store := desk.store.reword change }

/-- The desk with every literal in other words and more notices before its own. -/
def Desk.recast (change : Nat → Text → Text) (earlier : Array Notice) (desk : Desk) : Desk where
  store := desk.store.reword change
  notices := earlier ++ desk.notices

namespace Store

variable (change : Nat → Text → Text) (store : Store)

@[simp] theorem reword_getElem? (index : Nat) :
    (store.reword change).held[index]? = store.held[index]?.map (·.reword (change index)) := by
  simp [reword]

@[simp] theorem reword_size : (store.reword change).held.size = store.held.size := by
  simp [reword]

@[simp] theorem reword_hold_table (entries : List Entry) :
    (store.reword change).hold (.table entries) =
      ((store.hold (.table entries)).1.reword change, (store.hold (.table entries)).2) := by
  simp [hold, reword, Held.reword]

@[simp] theorem reword_startsWithLiteral (text : Text) :
    (store.reword change).startsWithLiteral text = store.startsWithLiteral text := by
  unfold startsWithLiteral
  split
  · rename_i digits _
    rw [reword_getElem?]
    rcases store.held[decode digits]? with _ | _ | _ <;> rfl
  · rfl

@[simp] theorem reword_roundLimit (text : Text) :
    (store.reword change).roundLimit text = store.roundLimit text := by
  simp [roundLimit]

@[simp] theorem reword_depthLimit (text : Text) :
    Context.depthLimit (store.reword change) text = Context.depthLimit store text := by
  unfold Context.depthLimit
  simp only [reword_size]
  congr 3
  refine ext_getElem? fun index => ?_
  simp only [reword, Array.toList_mapIdx, getElem?_mapIdx, getElem?_map]
  rcases store.held.toList[index]? with _ | _ | _ <;> rfl

end Store

/-- Work that does not read literals: with others in their places it ends in the same way. -/
def Blind {α : Type} (work : Conversion α) : Prop :=
  ∀ (change : Nat → Text → Text) (desk : Desk),
    outcome work (desk.reword change) =
      ((outcome work desk).1, (outcome work desk).2.reword change)

/-- Work that reads neither literals nor notices: with others in their places it ends in the same
way. -/
def Unread {α : Type} (work : Conversion α) : Prop :=
  ∀ (change : Nat → Text → Text) (earlier : Array Notice) (desk : Desk),
    outcome work (desk.recast change earlier) =
      ((outcome work desk).1, (outcome work desk).2.recast change earlier)

namespace Unread

variable {α β : Type} {work : Conversion α}

theorem pure (value : α) : Unread (Pure.pure value) :=
  fun _ _ _ => rfl

theorem throw (fault : Fault) : Unread (throw fault : Conversion α) :=
  fun _ _ _ => rfl

theorem bind {next : α → Conversion β} (first : Unread work) (second : ∀ value, Unread (next value)) :
    Unread (work >>= next) := by
  intro change earlier desk
  rw [outcome_bind, outcome_bind, first change earlier desk]
  rcases outcome work desk with ⟨fault | value, reached⟩
  · rfl
  · exact second value change earlier reached

/-- What is read of the desk must not differ if literals and notices do. -/
theorem get_bind {next : Desk → Conversion α}
    (same : ∀ change earlier desk, next (desk.recast change earlier) = next desk)
    (second : ∀ desk, Unread (next desk)) : Unread (get >>= next) := by
  intro change earlier desk
  simp only [outcome_bind, outcome_get, same]
  exact second desk change earlier desk

theorem notify (notice : Notice) : Unread (Conversion.notify notice) := by
  intro change earlier desk
  simp [Conversion.notify, Desk.recast]

theorem hold_table (entries : List Entry) : Unread (Conversion.hold (.table entries)) := by
  intro change earlier desk
  simp [Conversion.hold, Desk.recast]

theorem modular : Modular (fun _ => True) Unread where
  pure := pure
  bind := bind
  throw _ := throw _
  notify := notify
  hold := hold_table

theorem mapM {items : List α} {work : α → Conversion β} (each : ∀ item, Unread (work item)) :
    Unread (items.mapM work) := by
  induction items with
  | nil => exact pure []
  | cons item items ih =>
    rw [mapM_cons]
    exact (each item).bind fun _ => ih.bind fun _ => pure _

theorem blind (unread : Unread work) : Blind work := by
  intro change desk
  have run := unread change #[] desk
  simpa [Desk.recast, Desk.reword] using run

end Unread

namespace Blind

variable {α : Type} {work : Conversion α}

/-- A literal that blind work leaves behind was there before: new words for it alone would be
noticed. -/
theorem old_literal (blind : Blind work) {desk reached : Desk} {value : α}
    (gives : Gives work desk value reached) {index : Nat}
    (held : reached.store.held[index]? = some (.literal text)) : index < desk.store.held.size := by
  by_contra new
  have same : desk.reword (fun i text => if i < desk.store.held.size then text else 'x' :: text) =
      desk := by
    have stores : desk.store.reword
        (fun i text => if i < desk.store.held.size then text else 'x' :: text) = desk.store := by
      unfold Store.reword
      congr 1
      refine Array.ext_getElem? fun i => ?_
      rw [Array.getElem?_mapIdx]
      cases old : desk.store.held[i]? with
      | none => rfl
      | some part =>
        obtain ⟨within, -⟩ := Array.getElem?_eq_some_iff.mp old
        simp only [Option.map_some, within, if_true]
        cases part <;> rfl
    simp [Desk.reword, stores]
  have run := blind (fun i text => if i < desk.store.held.size then text else 'x' :: text) desk
  rw [same, show outcome work desk = _ from gives] at run
  have kept := congrArg (fun ended => ended.2.store.held[index]?) run
  simp [Desk.reword, held, Held.reword, new] at kept

end Blind

namespace Records

variable (records : Records)

theorem firstLiteral?_reword (change : Nat → Text → Text) (store : Store) (before text : Text) :
    firstLiteral? (store.reword change) before text = firstLiteral? store before text := by
  have structural (content : Text) :
      looksStructural (store.reword change) content = looksStructural store content := by
    cases content with
    | nil => rfl
    | cons c rest => simp only [looksStructural, Store.reword_startsWithLiteral]
  induction text generalizing before with
  | nil => rfl
  | cons c rest ih => simp only [firstLiteral?, structural, ih]

theorem convertLiteralsWithin_unread (rounds : Nat) (text : Text) :
    Unread (records.convertLiteralsWithin rounds text) := by
  induction rounds generalizing text with
  | zero => exact .pure text
  | succ rounds ih =>
    rw [convertLiteralsWithin]
    refine .get_bind (fun change earlier desk => ?_) fun desk => ?_
    · simp only [Desk.recast, firstLiteral?_reword]
    · split
      · exact .pure text
      · exact (Unread.hold_table _).bind fun _ => ih _

end Records

namespace Index

theorem access_reword (change : Nat → Text → Text) (store : Store) (inside : Text) :
    access (store.reword change) inside = access store inside := by
  have same : bracketed (store.reword change) = bracketed store := by
    funext index
    simp only [bracketed, Store.reword_startsWithLiteral]
  simp only [access, same]

theorem convertFrom_unread (written text : Text) : Unread (convertFrom written text) := by
  fun_induction convertFrom written text with
  | case1 => exact .pure []
  | case2 => exact (Unread.notify _).bind fun _ => .pure _
  | case3 written rest inside after closed _ ihInside ihAfter =>
    refine ihInside.bind fun content => .get_bind (fun change earlier desk => ?_) fun desk => ?_
    · simp only [Desk.recast, access_reword]
    · exact (ihAfter content desk).bind fun _ => .pure _
  | case4 written c rest plain ih => exact ih.bind fun _ => .pure _

end Index

namespace Context

variable (context : Context)

theorem convertValue_unread (usage : Usage) (text : Text) : Unread (context.convertValue usage text) :=
  Unread.modular.convertValue (fun _ _ => trivial)
    (fun _ => context.records.convertLiteralsWithin_unread _ _) usage text

theorem renderTable_unread {value : Text → Conversion Text} (values : ∀ text, Unread (value text))
    (entries : List Entry) : Unread (renderTable value entries) := by
  refine Unread.bind (.mapM fun entry => ?_) fun _ => .pure _
  exact (values entry.value).bind fun _ => .pure _

end Context

namespace Conversion

variable {render : List Entry → Conversion Text} (renders : ∀ entries, Unread (render entries))

include renders

theorem expandPiece_unread (piece : Piece) : Unread (expandPiece render piece) := by
  cases piece with
  | plain c => exact .pure [c]
  | placeholder index written =>
    refine .get_bind (fun change earlier desk => ?_) fun desk => ?_
    · simp only [Desk.recast, Store.reword_getElem?]
      rcases desk.store.held[index]? with _ | _ | _ <;> rfl
    · split
      · exact renders _
      · exact .pure written
      · exact .throw _

theorem expand_unread (text : Text) : Unread (expand render text) := by
  have within (rounds : Nat) (text : Text) : Unread (expandWithin render rounds text) := by
    induction rounds generalizing text with
    | zero => exact .throw _
    | succ rounds ih =>
      refine ((Unread.mapM (expandPiece_unread renders)).bind fun _ => .pure _).bind fun expanded => ?_
      split
      · exact .pure text
      · exact ih expanded
  refine .get_bind (fun change earlier desk => ?_) fun desk => within _ text
  simp only [Desk.recast, Store.reword_roundLimit]

end Conversion

namespace Context

variable (context : Context)

theorem valueWithin_unread (depth : Nat) (usage : Usage) (text : Text) :
    Unread (context.valueWithin depth usage text) := by
  induction depth generalizing usage text with
  | zero => exact .throw _
  | succ depth ih =>
    exact (context.convertValue_unread usage text).bind fun converted =>
      Conversion.expand_unread (renderTable_unread fun text => ih {} text) converted

/-- An expression in Lua, but for its literals. -/
def rewritten (usage : Usage) (text : Text) : Conversion Text := do
  Index.convert (← context.value usage text)

theorem expression_eq (usage : Usage) (text : Text) :
    context.expression usage text = context.rewritten usage text >>= Conversion.restore := by
  simp only [expression, finish, rewritten, bind_assoc]

theorem value_unread (usage : Usage) (text : Text) : Unread (context.value usage text) := by
  refine .get_bind (fun change earlier desk => ?_) fun desk => context.valueWithin_unread _ usage text
  simp only [Desk.recast, Store.reword_depthLimit]

theorem value_blind (usage : Usage) (text : Text) : Blind (context.value usage text) :=
  (context.value_unread usage text).blind

theorem rewritten_unread (usage : Usage) (text : Text) : Unread (context.rewritten usage text) :=
  (context.value_unread usage text).bind fun _ => Index.convertFrom_unread [] _

/-- No step that rewrites an expression reads a literal. -/
theorem rewritten_blind (usage : Usage) (text : Text) : Blind (context.rewritten usage text) :=
  (context.rewritten_unread usage text).blind

theorem rewritten_settles {context : Context} {strict : Bool} (regular : context.Regular strict)
    (usage : Usage) {desk : Desk}
    (legible : Legible strict (Readable strict desk.store 0) text) :
    Settles strict (context.rewritten usage text) desk fun out reached =>
      desk.store.Extends reached.store ∧ Legible strict (Readable strict reached.store 0) out := by
  refine (value_settles regular usage legible).bind fun out reached ⟨grown, outLegible⟩ => ?_
  refine (Index.convertFrom_settles Legible.seamless outLegible [] reached).mono fun _ final ⟨same, legible⟩ => ?_
  rw [same]
  exact ⟨grown, legible⟩

end Context

/-- The literals of a text in order, its first `skip` characters left out. -/
def quotationsFrom : (skip : Nat) → Text → List Text
  | _, [] => []
  | skip + 1, _ :: rest => quotationsFrom skip rest
  | 0, c :: rest =>
    match literal? (c :: rest) with
    | some literal => literal :: quotationsFrom (literal.length - 1) rest
    | none => quotationsFrom 0 rest

/-- The literals of a text in order. -/
def quotations (text : Text) : List Text :=
  quotationsFrom 0 text

namespace Store

/-- The parts of masking a text that starts with a literal. -/
theorem maskFrom_literal {c : Char} {rest literal : Text} (found : literal? (c :: rest) = some literal) :
    store.maskFrom 0 (c :: rest) =
      (((store.hold (.literal literal)).1.maskFrom (literal.length - 1) rest).1,
        write store.held.size ++
          ((store.hold (.literal literal)).1.maskFrom (literal.length - 1) rest).2) := by
  rw [maskFrom, found]
  rfl

theorem maskFrom_code {c : Char} {rest : Text} (found : literal? (c :: rest) = none) :
    store.maskFrom 0 (c :: rest) = ((store.maskFrom 0 rest).1, c :: (store.maskFrom 0 rest).2) := by
  rw [maskFrom, found]

theorem maskFrom_held (store : Store) (skip : Nat) (text : Text) :
    (store.maskFrom skip text).1.held.toList =
      store.held.toList ++ (quotationsFrom skip text).map .literal := by
  induction text generalizing store skip with
  | nil => simp [maskFrom, quotationsFrom]
  | cons c rest ih =>
    cases skip with
    | succ skip => exact ih store skip
    | zero =>
      cases found : literal? (c :: rest) with
      | none => simpa [maskFrom_code found, quotationsFrom, found] using ih store 0
      | some literal => simp [maskFrom_literal found, quotationsFrom, found, ih, hold]

/-- Masking a text on its own holds back its literals and nothing else. -/
theorem mask_held (text : Text) :
    (mask {} text).1.held = ((quotations text).map .literal).toArray :=
  Array.toList_inj.mp (by simpa [mask, quotations] using maskFrom_held {} 0 text)

theorem count_opening_maskFrom (plain : opening ∉ text) (store : Store) (skip : Nat) :
    (store.maskFrom skip text).2.count opening = (quotationsFrom skip text).length := by
  have once (index : Nat) : (write index).count opening = 1 := by
    have digits : opening ∉ encode index := fun member =>
      absurd (encode_isDigit opening member) (by decide)
    simp [write_eq, count_eq_zero.mpr digits, show closing ≠ opening by decide]
  induction text generalizing store skip with
  | nil => simp [maskFrom, quotationsFrom]
  | cons c rest ih =>
    have ne := ne_of_not_mem_cons plain
    replace plain := not_mem_of_not_mem_cons plain
    cases skip with
    | succ skip => exact ih plain store skip
    | zero =>
      cases found : literal? (c :: rest) with
      | none => simp [maskFrom_code found, quotationsFrom, found, ih plain, Ne.symm ne]
      | some literal =>
        simp [maskFrom_literal found, quotationsFrom, found, ih plain, once, Nat.add_comm]

end Store

namespace Context

variable (context : Context)

/-- An expression that stands on its own in Lua. -/
def translate (usage : Usage) (text : Text) : Except Fault Text :=
  (outcome (Conversion.mask text >>= context.expression usage) {}).1

theorem translate_eq (usage : Usage) (text : Text) :
    context.translate usage text =
      match outcome (context.rewritten usage (Store.mask {} text).2)
        { store := (Store.mask {} text).1 } with
      | (.ok template, reached) => reached.store.restore template
      | (.error fault, _) => .error fault := by
  have masked : Gives (Conversion.mask text) {} (Store.mask {} text).2
      { store := (Store.mask {} text).1 } := rfl
  rw [translate, outcome_bind, show outcome _ _ = _ from masked]
  simp only [expression_eq, outcome_bind]
  rcases outcome (context.rewritten usage (Store.mask {} text).2) _ with ⟨fault | template, reached⟩
  · rfl
  · simp only [outcome_restore]

/-- One template gives the translations of both texts: its placeholders are those of the literals,
and each text has its own literals in their places. -/
def ShareTemplate (usage : Usage) (first second : Text) : Prop :=
  ∃ template, Legible false (· < (quotations first).length) template ∧
    context.translate usage first = .ok (fill (quotations first) template) ∧
    context.translate usage second = .ok (fill (quotations second) template)

variable {context} {usage : Usage} {first second : Text}

/-- Whether a text can be read strictly depends on what stands outside its literals. -/
theorem mask_legible {strict : Bool} (plain : opening ∉ text)
    (cased : strict = true → ∀ c ∈ (Store.mask {} text).2, isPlainCase c = true) :
    Legible strict (Readable strict (Store.mask {} text).1 0) (Store.mask {} text).2 := by
  have masked : Legible false (Readable false (Store.mask {} text).1 0) (Store.mask {} text).2 :=
    (Store.maskFrom_legible (fun c member => ⟨by rintro rfl; exact plain member, by simp⟩) {} 0).2
  revert cased
  generalize (Store.mask {} text).2 = code at masked
  induction masked with
  | nil => exact fun _ => .nil
  | plain ne _ _ ih =>
    intro cased
    exact .plain ne (fun isStrict => cased isStrict _ (.head _))
      (ih fun isStrict c member => cased isStrict c (.tail _ member))
  | placeholder readable _ ih =>
    intro cased
    obtain ⟨literal, held, unmarked⟩ := readable.zero
    exact .placeholder (.literal held unmarked)
      (ih fun isStrict c member => cased isStrict c (mem_append_right _ member))

/-- Two texts that are masked alike start from stores that differ in their literals only. -/
theorem mask_reword (firstPlain : opening ∉ first) (secondPlain : opening ∉ second)
    (alike : (Store.mask {} first).2 = (Store.mask {} second).2) :
    (quotations first).length = (quotations second).length ∧
      (Store.mask {} second).1 =
        (Store.mask {} first).1.reword fun index _ => (quotations second)[index]?.getD [] := by
  have lengths : (quotations first).length = (quotations second).length := by
    rw [quotations, quotations, ← Store.count_opening_maskFrom firstPlain {} 0,
      ← Store.count_opening_maskFrom secondPlain {} 0]
    exact congrArg (List.count opening) alike
  refine ⟨lengths, ?_⟩
  suffices held : (Store.mask {} second).1.held = ((Store.mask {} first).1.reword
      fun index _ => (quotations second)[index]?.getD []).held from congrArg Store.mk held
  refine Array.ext_getElem? fun index => ?_
  simp only [Store.reword_getElem?, Store.mask_held, getElem?_toArray, getElem?_map]
  by_cases within : index < (quotations first).length
  · rw [List.getElem?_eq_getElem within, List.getElem?_eq_getElem (lengths ▸ within)]
    rfl
  · rw [getElem?_eq_none (by omega), getElem?_eq_none (by omega)]
    rfl

theorem quotationsFrom_subset {literal : Text} {skip : Nat}
    (member : literal ∈ quotationsFrom skip text) : literal ⊆ text := by
  induction text generalizing skip with
  | nil => simp [quotationsFrom] at member
  | cons c rest ih =>
    cases skip with
    | succ skip => exact subset_cons_of_subset c (ih member)
    | zero =>
      rw [quotationsFrom] at member
      split at member
      · rename_i found
        rcases mem_cons.mp member with rfl | later
        · exact (literal?_starts found).1.subset
        · exact subset_cons_of_subset c (ih later)
      · exact subset_cons_of_subset c (ih member)

theorem restore_fill {literals : List Text} {template : Text}
    (legible : Legible false (fun index => ∃ literal, store.held[index]? = some (.literal literal) ∧
      literals[index]? = some literal ∧ opening ∉ literal) template) :
    store.restore template = .ok (fill literals template) := by
  have readable : Legible false (Readable false store 0) template :=
    legible.mono fun index ⟨_, held, _, unmarked⟩ => .literal held unmarked
  rw [Store.restore_literals readable]
  refine congrArg Except.ok (fill_congr legible fun index ⟨literal, held, listed, _⟩ => ?_)
  rw [Store.literals_getElem? held, listed]

/-- What a rewritten text has placeholders of are literals that were masked, each under the index
it had. -/
theorem rewritten_template (regular : context.Regular false) {template : Text} {reached : Desk}
    (plain : opening ∉ text)
    (run : Gives (context.rewritten usage (Store.mask {} text).2)
      { store := (Store.mask {} text).1 } template reached) :
    Legible false (fun index => ∃ literal, reached.store.held[index]? = some (.literal literal) ∧
      (quotations text)[index]? = some literal) template := by
  obtain ⟨grown, legible⟩ :=
    (rewritten_settles regular usage (mask_legible plain (by simp))).of_gives run
  refine legible.mono fun index readable => ?_
  obtain ⟨literal, held, -⟩ := readable.zero
  have within : index < (quotations text).length := by
    have old := (context.rewritten_blind usage _).old_literal run held
    simpa only [Store.mask_held, size_toArray, length_map] using old
  have before : (Store.mask {} text).1.held[index]? =
      some (.literal ((quotations text)[index])) := by
    simp [Store.mask_held, within]
  have same := (grown _ _ before).symm.trans held
  simp only [Option.some.injEq, Held.literal.injEq] at same
  exact ⟨literal, held, by rw [List.getElem?_eq_getElem within, same]⟩

/-- What two texts that are masked alike become: one template with the literals of each, or one
fault. -/
theorem shareTemplate_or_fault (regular : context.Regular false) (firstPlain : opening ∉ first)
    (secondPlain : opening ∉ second) (alike : (Store.mask {} first).2 = (Store.mask {} second).2) :
    context.ShareTemplate usage first second ∨ ∃ fault,
      context.translate usage first = .error fault ∧
        context.translate usage second = .error fault := by
  obtain ⟨lengths, stores⟩ := mask_reword firstPlain secondPlain alike
  have rerun := context.rewritten_blind usage (Store.mask {} first).2
    (fun index _ => (quotations second)[index]?.getD []) { store := (Store.mask {} first).1 }
  simp only [Desk.reword, ← stores] at rerun
  unfold ShareTemplate
  rw [translate_eq, translate_eq, ← alike, rerun]
  rcases run : outcome (context.rewritten usage (Store.mask {} first).2)
    { store := (Store.mask {} first).1 } with ⟨fault | template, reached⟩
  · exact .inr ⟨fault, rfl, rfl⟩
  have legible := rewritten_template regular firstPlain run
  have listed : Legible false (· < (quotations first).length) template :=
    legible.mono fun index ⟨_, _, quoted⟩ => (List.getElem?_eq_some_iff.mp quoted).1
  refine .inl ⟨template, listed, restore_fill ?_, restore_fill ?_⟩
  · refine legible.mono fun index ⟨literal, held, quoted⟩ => ⟨literal, held, quoted, fun marked => ?_⟩
    exact firstPlain (quotationsFrom_subset (mem_of_getElem? quoted) marked)
  · refine legible.mono fun index ⟨literal, held, quoted⟩ => ?_
    have within := (List.getElem?_eq_some_iff.mp quoted).1
    have other := List.getElem?_eq_getElem (lengths ▸ within)
    refine ⟨_, ?_, other, fun marked => ?_⟩
    · rw [Store.reword_getElem?, held, Option.map_some, Held.reword, other, Option.getD_some]
    · exact secondPlain (quotationsFrom_subset (mem_of_getElem? other) marked)

/-- Letters whose case is not in doubt never stop an expression. -/
theorem translate_plainCase (regular : context.Regular true) (plain : opening ∉ text)
    (cased : ∀ c ∈ (Store.mask {} text).2, isPlainCase c = true) :
    ∃ lua, context.translate usage text = .ok lua := by
  have settled : Settles true (context.rewritten usage (Store.mask {} text).2)
      { store := (Store.mask {} text).1 } _ :=
    rewritten_settles regular usage (mask_legible plain fun _ => cased)
  obtain ⟨template, reached, run, -, legible⟩ := settled.yields
  refine ⟨fill reached.store.literals template, ?_⟩
  rw [translate_eq, show outcome _ _ = _ from run]
  exact Store.restore_literals legible

/-- What stands inside a literal changes nothing but itself. Two texts that differ in the contents
of their literals share a template exactly if there is a translation at all, and there is one
unless letters outside the literals, or in a declaration, have a case that is in doubt. -/
theorem shareTemplate_iff {declarations : Text} (standard : context.language = standardLanguage)
    (collected : context.records = Records.collect standardLanguage declarations) (usage : Usage)
    (firstPlain : opening ∉ first) (secondPlain : opening ∉ second)
    (alike : (Store.mask {} first).2 = (Store.mask {} second).2) :
    (quotations first).length = (quotations second).length ∧
      (context.ShareTemplate usage first second ↔ ∃ lua, context.translate usage first = .ok lua) ∧
      (∀ fault, context.translate usage first = .error fault ↔
        context.translate usage second = .error fault) ∧
      ((∀ c ∈ declarations, isPlainCase c = true) →
        (∀ c ∈ (Store.mask {} first).2, isPlainCase c = true) →
          context.ShareTemplate usage first second) := by
  have regular {strict : Bool} (cased : strict = true → ∀ c ∈ declarations, isPlainCase c = true) :
      context.Regular strict :=
    ⟨standard ▸ standardLanguage_regular, collected ▸ Records.collect_regular cased _⟩
  have shared : context.ShareTemplate usage first second ↔
      ∃ lua, context.translate usage first = .ok lua := by
    constructor
    · rintro ⟨template, -, translated, -⟩
      exact ⟨_, translated⟩
    · rintro ⟨lua, translated⟩
      rcases shareTemplate_or_fault (regular (by simp)) firstPlain secondPlain alike with
        share | ⟨fault, failed, -⟩
      · exact share
      · simp [translated] at failed
  refine ⟨(mask_reword firstPlain secondPlain alike).1, shared, fun fault => ?_, fun declared cased => ?_⟩
  · rcases shareTemplate_or_fault (regular (by simp)) firstPlain secondPlain alike with
      ⟨template, -, left, right⟩ | ⟨other, left, right⟩
    all_goals rw [left, right]
    simp
  · exact shared.mpr (translate_plainCase (regular fun _ => declared) firstPlain cased)

theorem shareTemplate_iff_record :
    ShareTemplate
      { records := Records.collect standardLanguage "P = <x : chaîne, y : entier>".toList } {}
      "P(\"a, b\", 1)".toList "P(\"((\", 1)".toList := by
  have plain {text : Text} (ascii : text.all (·.toNat < 128) = true) : opening ∉ text := by
    intro member
    exact absurd (all_eq_true.mp ascii _ member) (by decide)
  exact (shareTemplate_iff rfl rfl {} (plain (by decide)) (plain (by decide))
    (by decide +kernel)).2.2.2 (all_eq_true.mp (by decide +kernel))
      (all_eq_true.mp (by decide +kernel))

theorem translate_throw {fault : Fault}
    (thrown : context.convertValue usage (Store.mask {} text).2 = throw fault) :
    context.translate usage text = .error fault := by
  have depth : depthLimit (Store.mask {} text).1 (Store.mask {} text).2 = _ + 1 := rfl
  simp only [translate_eq, rewritten, value, outcome_bind, outcome_get, depth, valueWithin, thrown,
    outcome_throw]

theorem inlineNames_standard : inlineNames standardLanguage =
    ["souschaîne", "souschaine", "longueur", "concat", "ième", "ieme"].map (·.toList) := by
  have listed : (standardLanguage.builtins.filter (·.inline)).map (·.name) =
      ["longueur", "concat", "souschaîne", "souschaine", "ième", "ieme"].map (·.toList) := by
    decide
  have lengths : ["longueur", "concat", "souschaîne", "souschaine", "ième", "ieme"].map
      (fun name => patternLength name.toList) = [8, 6, 10, 10, 4, 4] := by
    decide
  rw [inlineNames, listed]
  simp only [map_cons, map_nil, String.reduceToList, List.cons.injEq, and_true] at lengths
  simp [List.mergeSort, MergeSort.Internal.splitInTwo, lengths]

set_option maxRecDepth 4000 in
/-- A dotless i is an i where names are compared in any letter case, but not where they are
looked up. -/
theorem convertValue_dotless {code inside : Text}
    (shape : code = 'ı' :: 'e' :: 'm' :: 'e' :: '(' :: (inside ++ [')']))
    (closed : splitParen? (inside ++ [')']) = some (inside, [])) (call : '(' ∉ inside)
    (angle : '<' ∉ inside) : convertValue {} {} code = throw .unlistedBuiltin := by
  have records : Records.convert [] code = pure code := by
    simp [Records.convert, Records.convertConstructors, Records.convertLiterals, shape,
      count_eq_zero.mpr angle, Records.convertLiteralsWithin]
  have listed : ListLiteral.convert false code = code := by
    rw [shape, ListLiteral.convert]
    iterate 4 rw [ListLiteral.convertFrom_cons (by decide)]
    rw [ListLiteral.convertFrom_group closed, ListLiteral.convertFrom_idle call,
      ListLiteral.convertFrom]
    simp [show isBlank 'e' = false by decide, ListLiteral.mayOpen, ListLiteral.isOpening]
  have structures : convertStructures {} code = pure code := by
    rw [shape, convertStructures]
    iterate 5 rw [convertCalls_plain (by cbv)]
    rw [convertCalls_idle (fun text head found => (namedCallee_eq_some found).1)
      (by simpa using call)]
    rfl
  have inline : convertInline {} code = throw .unlistedBuiltin := by
    have found : callAt? (namedCallee (inlineNames standardLanguage)) none
        ('ı' :: 'e' :: 'm' :: 'e' :: '(' :: (inside ++ [')'])) =
          some { name := ['ı', 'e', 'm', 'e'], gap := [] } := by
      rw [inlineNames_standard]
      cbv
    have unlisted : standardLanguage.builtin? ['ı', 'e', 'm', 'e'] = none := by decide
    rw [shape, convertInline]
    simp only
    rw [if_neg (by rw [inlineNames_standard]; decide), convertCalls_call found closed,
      convertCalls_idle (fun text head found => (namedCallee_eq_some found).1) call, pure_bind,
      inlineCall]
    simp only [unlisted]
    rfl
  simp only [convertValue, records, pure_bind, listed, structures, inline]
  rfl

/-- There is no template where the name of a built-in is matched but not found. -/
theorem not_shareTemplate_dotless :
    ¬ShareTemplate {} {} "ıeme(\"ab\", 0)".toList "ıeme(\"cd\", 0)".toList := by
  rintro ⟨template, -, translated, -⟩
  have code : (Store.mask {} "ıeme(\"ab\", 0)".toList).2 =
      'ı' :: 'e' :: 'm' :: 'e' :: '(' :: ((write 0 ++ [',', ' ', '0']) ++ [')']) := by
    decide +kernel
  have thrown := convertValue_dotless code (by decide +kernel) (by decide +kernel)
    (by decide +kernel)
  rw [translate_throw thrown] at translated
  simp at translated

end Context

end Pseudocode
