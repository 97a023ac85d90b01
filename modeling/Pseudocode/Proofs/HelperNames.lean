import Pseudocode.Proofs.Blocks
import Pseudocode.Proofs.Sealed
import Pseudocode.Proofs.Vouched

namespace Pseudocode

open List Option Placeholder

/-- No helper is held but known ones. A literal is kept apart from the words around it by its quotes. -/
def Held.Vouched (known : Text → Prop) : Held → Prop
  | .literal text => Stemless text ∧ Fenced text
  | .table entries => ∀ entry ∈ entries,
      (∀ name ∈ entry.name, Pseudocode.Vouched known name) ∧ Pseudocode.Vouched known entry.value

def Store.Vouched (known : Text → Prop) (store : Store) : Prop :=
  ∀ (index : Nat) (part : Held), store.held[index]? = some part → part.Vouched known

variable {known : Text → Prop}

theorem Store.Vouched.hold {store : Store} (here : store.Vouched known) {part : Held}
    (more : part.Vouched known) : (store.hold part).1.Vouched known := by
  intro index other found
  rw [Store.hold, Array.getElem?_push] at found
  split at found
  · obtain rfl := Option.some.inj found
    exact more
  · exact here index other found

section Placeholders

variable {text : Text}

theorem wordless_of_marks (marks : ∀ c ∈ text, isMark c = true) : ∀ c ∈ text, isWordChar c = false :=
  fun c member => isMark_not_wordChar (marks c member)

theorem isVariant_mark {c : Char} (mark : isMark c = true) : isVariant c = false := by
  have range := isMark_range mark
  simp only [isVariant, variantCodes, contains_eq_mem, decide_eq_false_iff_not, mem_cons,
    not_mem_nil, or_false]
  omega

theorem Vouched.of_marks (marks : ∀ c ∈ text, isMark c = true) : Vouched known text where
  clean := (Stemless.of_wordless (wordless_of_marks marks)).clean
  parted := .of_open fun member => isMark_ne (marks _ member) (by decide) rfl
  cased c member := isVariant_mark (marks c member)

theorem Fenced.of_marks (marks : ∀ c ∈ text, isMark c = true) (nonempty : text ≠ []) : Fenced text := by
  obtain ⟨ends, starts⟩ := wordless_ends (wordless_of_marks marks)
  refine ⟨nonempty, ends, Bool.and_eq_true_iff.mpr ⟨starts, ?_⟩⟩
  obtain ⟨c, last⟩ := ne_none_iff_exists'.mp (mt getLast?_eq_none_iff.mp nonempty)
  have other : c ≠ ')' := isMark_ne (marks c (mem_of_getLast? last)) (by decide)
  simp [last, other]

theorem write_ne_nil (index : Nat) : write index ≠ [] := by
  simp [write_eq]

/-- The first piece of a text is a character or a placeholder, and the others are those of the rest. -/
theorem pieces_cons (c : Char) (rest : Text) :
    pieces (c :: rest) = .plain c :: pieces rest ∨
      ∃ index written after, c :: rest = written ++ after ∧ written ≠ [] ∧ (∀ d ∈ written, isMark d = true) ∧
        pieces (c :: rest) = .placeholder index written :: pieces after := by
  rw [pieces, piecesFrom]
  cases found : digits? (c :: rest) with
  | none => exact .inl rfl
  | some digits =>
    right
    obtain ⟨rfl, isDigits, after, rfl⟩ := digits?_eq_some found
    refine ⟨decode digits, opening :: digits ++ [closing], after, by simp, by simp, ?_, ?_⟩
    · intro d member
      simp only [cons_append, mem_cons, mem_append, not_mem_nil, or_false] at member
      rcases member with rfl | inside | rfl
      · rfl
      · simp [isMark, isDigits d inside]
      · rfl
    · have dropped : (digits ++ closing :: after).drop (digits.length + 1) = after := by
        rw [append_cons, drop_left' (by simp)]
      simp only [piecesFrom_drop, dropped]

end Placeholders

theorem Conversion.hold_vouched {desk : Desk} (here : desk.store.Vouched known) {part : Held}
    (more : part.Vouched known) :
    Settles false (Conversion.hold part) desk fun out reached =>
      reached.store.Vouched known ∧ Vouched known out ∧ Fenced out :=
  Gives.settles (show Gives _ desk _ _ from rfl)
    ⟨here.hold more, .of_marks isMark_of_mem_write, .of_marks isMark_of_mem_write (write_ne_nil _)⟩

namespace Records

variable {records : Records} {text : Text} {desk : Desk}

/-- The names of the fields name no helper. -/
def Vouched (known : Text → Prop) (records : Records) : Prop :=
  ∀ pair ∈ records, ∀ name ∈ pair.2.fieldNames, Pseudocode.Vouched known name

theorem convertConstructors_vouched (vouched : records.Vouched known) (stored : desk.store.Vouched known)
    (here : Pseudocode.Vouched known text) :
    Settles false (records.convertConstructors text) desk fun out reached =>
      reached.store.Vouched known ∧ Pseudocode.Vouched known out := by
  have jointed : Jointed (Pseudocode.Vouched known) := Vouched.jointed
  unfold convertConstructors
  split
  · exact .pure ⟨stored, here⟩
  · refine convertCalls_vouched (fun text head found => (namedCallee_eq_some found).1) ?_ stored here
    intro desk head arguments text kept found written here
    cases lookup : records.get? head.name with
    | none => exact .throw rfl
    | some meant =>
      refine (Conversion.hold_vouched kept fun entry member => ?_).mono
        fun out reached ⟨later, built, fenced⟩ => ⟨later, built, .inr fenced.2.1⟩
      obtain ⟨value, names⟩ := constructed_values lookup member
      refine ⟨named_of_fields vouched names, ?_⟩
      rcases value with absent | among
      · exact absent ▸ jointed.fixed (by decide)
      · exact jointed.splitArguments here _ among

theorem convertLiteralsWithin_vouched (vouched : records.Vouched known) (rounds : Nat)
    (stored : desk.store.Vouched known) (here : Pseudocode.Vouched known text) :
    Settles false (records.convertLiteralsWithin rounds text) desk fun out reached =>
      reached.store.Vouched known ∧ Pseudocode.Vouched known out := by
  have jointed : Jointed (Pseudocode.Vouched known) := Vouched.jointed
  induction rounds generalizing text desk with
  | zero => exact .pure ⟨stored, here⟩
  | succ rounds ih =>
    rw [convertLiteralsWithin]
    refine .get_bind ?_
    cases found : firstLiteral? desk.store [] text with
    | none => exact .pure ⟨stored, here⟩
    | some parts =>
      obtain ⟨before, content, after⟩ := parts
      obtain ⟨inner, split, rfl⟩ := firstLiteral?_eq_some found
      have old : text = before ++ (('<' :: inner ++ ['>']) ++ after) := by simpa using split
      obtain ⟨-, rest⟩ := jointed.cut_at here split (show isWordChar '<' = false by decide)
      obtain ⟨innerVouched, -⟩ := jointed.cut_at rest rfl (show isWordChar '>' = false by decide)
      have fenced : Fenced ('<' :: inner ++ ['>']) :=
        .enclosed (show ['<'] ≠ [] ∧ atWordEnd ['<'] = true by decide) (by decide) inner
      refine (Conversion.hold_vouched stored fun entry member => ?_).bind fun placeholder reached held =>
        ih held.1 (jointed.replace_fenced (old ▸ here) (.inr rfl) (fenced.apart after) held.2.1 held.2.2)
      obtain ⟨value, names⟩ := literalTable_values member
      exact ⟨named_of_fields vouched names, jointed.splitArguments (jointed.trim innerVouched) _ value⟩

theorem convert_vouched (vouched : records.Vouched known) (stored : desk.store.Vouched known)
    (here : Pseudocode.Vouched known text) :
    Settles false (records.convert text) desk fun out reached =>
      reached.store.Vouched known ∧ Pseudocode.Vouched known out :=
  (convertConstructors_vouched vouched stored here).bind fun _ _ ⟨kept, middle⟩ =>
    convertLiteralsWithin_vouched vouched _ kept middle

end Records

namespace Conversion

variable {render : List Entry → Conversion Text} {desk : Desk} {text : Text}

/-- Tables are rendered as texts that name known helpers only. -/
def Vouches (known : Text → Prop) (render : List Entry → Conversion Text) : Prop :=
  ∀ (desk : Desk) (entries : List Entry), desk.store.Vouched known → (Held.table entries).Vouched known →
    Settles false (render entries) desk fun out reached =>
      reached.store.Vouched known ∧ Vouched known out ∧ Fenced out

theorem expandOnce_of_pieces {text rest : Text} {first : Piece} (shape : pieces text = first :: pieces rest) :
    expandOnce render text = do
      let piece ← expandPiece render first
      return piece ++ (← expandOnce render rest) := by
  simp [expandOnce, shape]

theorem expandOnce_vouched (vouches : Vouches known render) (stored : desk.store.Vouched known)
    (here : Vouched known text) :
    Settles false (expandOnce render text) desk fun out reached =>
      reached.store.Vouched known ∧ Vouched known out := by
  have jointed : Jointed (Vouched known) := Vouched.jointed
  suffices all : ∀ length (text : Text), text.length = length → ∀ (passed : Text) (desk : Desk),
      desk.store.Vouched known → Vouched known (passed ++ text) →
        Settles false (expandOnce render text) desk fun out reached =>
          reached.store.Vouched known ∧ Vouched known (passed ++ out) from
    all _ text rfl [] desk stored here
  clear stored here
  intro length
  induction length using Nat.strong_induction_on with
  | _ length ih =>
    intro text sized passed desk stored here
    cases text with
    | nil => exact .pure ⟨stored, here⟩
    | cons c rest =>
      simp only [length_cons] at sized
      rcases pieces_cons c rest with first | ⟨index, written, after, split, nonempty, marks, first⟩
      · rw [expandOnce_of_pieces first]
        refine Settles.bind (.pure ⟨rfl, rfl⟩ : Settles false (expandPiece render (.plain c)) desk
          fun piece reached => piece = [c] ∧ reached = desk) ?_
        rintro _ _ ⟨rfl, rfl⟩
        exact (ih _ (by omega) rest rfl (passed ++ [c]) _ stored (by simpa using here)).bind
          fun out final kept => .pure ⟨kept.1, by simpa using kept.2⟩
      · have fenced : Fenced written := .of_marks marks nonempty
        have rendered : Settles false (expandPiece render (.placeholder index written)) desk
            fun out reached => reached.store.Vouched known ∧ Vouched known out ∧ Fenced out := by
          rw [expandPiece]
          refine .get_bind ?_
          cases held : desk.store.held[index]? with
          | none => exact .throw rfl
          | some part =>
            cases part with
            | literal text => exact .pure ⟨stored, .of_marks marks, fenced⟩
            | table entries => exact vouches desk entries stored (stored _ _ held)
        have shorter : after.length < length := by
          have positive := length_pos_of_ne_nil nonempty
          have whole := congrArg List.length split
          rw [length_append, length_cons] at whole
          omega
        rw [split] at here
        have opens : Apart passed (written ++ after) :=
          .inr ((atWordEnd_append nonempty _).trans fenced.2.1)
        rw [expandOnce_of_pieces first]
        refine rendered.bind fun piece reached expanded => ?_
        obtain ⟨kept, built, apart⟩ := expanded
        have joined := jointed.replace_fenced here opens (fenced.apart after) built apart
        exact (ih _ shorter after rfl _ reached kept joined).bind
          fun out final still => .pure ⟨still.1, by simpa using still.2⟩

theorem expand_vouched (vouches : Vouches known render) (stored : desk.store.Vouched known)
    (here : Vouched known text) :
    Settles false (expand render text) desk fun out reached =>
      reached.store.Vouched known ∧ Vouched known out := by
  have within (rounds : Nat) : ∀ {text : Text} {desk : Desk}, desk.store.Vouched known →
      Vouched known text → Settles false (expandWithin render rounds text) desk
        fun out reached => reached.store.Vouched known ∧ Vouched known out := by
    induction rounds with
    | zero => exact fun _ _ => .throw rfl
    | succ rounds ih =>
      intro text desk stored here
      rw [expandWithin]
      refine (expandOnce_vouched vouches stored here).bind fun out reached kept => ?_
      split
      · exact .pure ⟨kept.1, here⟩
      · exact ih kept.1 kept.2
  exact .get_bind (within _ stored here)

end Conversion

/-- What a context adds to the emitted code names known helpers only. -/
structure Context.Vouched (context : Context) (known : Text → Prop) : Prop where
  emitted : ∀ name ∈ emittedHelpers, known name
  language : context.language.Vouched known
  records : context.records.Vouched known
  indent : ∀ c ∈ context.layout.indent, isWordChar c = false
  commentMark : ∀ c ∈ context.layout.commentMark, isWordChar c = false
  signatures : ∀ pair ∈ context.signatures, pair.2.Each (Clean known)

namespace Context

variable {context : Context} {desk : Desk} {text : Text}

theorem renderTable_vouches {value : Text → Conversion Text}
    (values : ∀ (desk : Desk) (text : Text), desk.store.Vouched known → Pseudocode.Vouched known text →
      Settles false (value text) desk fun out reached =>
        reached.store.Vouched known ∧ Pseudocode.Vouched known out) :
    Conversion.Vouches known (renderTable value) := by
  have jointed : Jointed (Pseudocode.Vouched known) := Vouched.jointed
  intro desk entries stored table
  refine (Settles.mapM (fun reached : Desk => reached.store.Vouched known) (Pseudocode.Vouched known)
      stored ?_).bind
    fun outs reached ⟨kept, each⟩ =>
      .pure ⟨kept, jointed.braced (jointed.commaSeparated each), braced_fenced _⟩
  intro entry member reached kept
  obtain ⟨names, valueVouched⟩ := table entry member
  refine (values reached entry.value kept valueVouched).bind fun out final ⟨still, outVouched⟩ =>
    .pure ⟨still, ?_⟩
  cases named : entry.name with
  | none => exact outVouched
  | some name => exact jointed.between (names name (by simp [named])) (by decide) outVouched

theorem convertValue_vouched (vouched : context.Vouched known) (usage : Usage)
    (stored : desk.store.Vouched known) (here : Pseudocode.Vouched known text) :
    Settles false (context.convertValue usage text) desk fun out reached =>
      reached.store.Vouched known ∧ Pseudocode.Vouched known out := by
  refine (Records.convert_vouched vouched.records stored here).bind fun tabled _ ⟨kept, tabledVouched⟩ => ?_
  have listed := ListLiteral.convert_vouched (vouched.emitted _ (by decide)) usage.afterKeyword tabledVouched
  refine (convertStructures_vouched vouched.emitted kept listed).bind fun _ _ ⟨kept, built⟩ => ?_
  refine (convertInline_vouched vouched.language kept built).bind fun _ _ ⟨kept, inlined⟩ => ?_
  refine (convertBuiltins_vouched vouched.language kept inlined).bind fun _ _ ⟨kept, called⟩ => ?_
  have jointed : Jointed (Pseudocode.Vouched known) := Vouched.jointed
  refine .pure ⟨kept, jointed.substitute (inputCall_fitting (vouched.emitted _ (by decide)))
    (jointed.substitute (equality_fitting _) (vouched.language.respell called))⟩

theorem valueWithin_vouched (vouched : context.Vouched known) (depth : Nat) (usage : Usage)
    (stored : desk.store.Vouched known) (here : Pseudocode.Vouched known text) :
    Settles false (context.valueWithin depth usage text) desk fun out reached =>
      reached.store.Vouched known ∧ Pseudocode.Vouched known out := by
  induction depth generalizing usage text desk with
  | zero => exact .throw rfl
  | succ depth ih =>
    refine (convertValue_vouched vouched usage stored here).bind fun out reached ⟨kept, outVouched⟩ => ?_
    exact Conversion.expand_vouched (renderTable_vouches fun desk text => ih {}) kept outVouched

end Context

/-- Literals come back between their quotes, so that they make no word with what is around them. -/
theorem Store.Vouched.fill {store : Store} (stored : store.Vouched known) {passed text : Text}
    (legible : Legible false (Readable false store 0) text) (here : Clean known (passed ++ text)) :
    Clean known (passed ++ Pseudocode.fill store.literals text) := by
  induction legible generalizing passed with
  | nil => exact here
  | @plain c rest ne _ _ ih =>
    rw [fill_cons _ ne]
    have next := ih (show Clean known ((passed ++ [c]) ++ rest) by simpa using here)
    simpa using next
  | @placeholder index rest readable _ ih =>
    obtain ⟨literal, held, -⟩ := readable.zero
    obtain ⟨stemless, fenced⟩ : Stemless literal ∧ Fenced literal := stored _ _ held
    have token : Fenced (write index) := .of_marks isMark_of_mem_write (write_ne_nil index)
    have opens : Apart passed (write index ++ rest) :=
      .inr ((atWordEnd_append (write_ne_nil index) _).trans token.2.1)
    rw [fill_write, literals_getElem? held, getD_some]
    have next := ih (Clean.jointed.replace_fenced here opens (token.apart rest) stemless.clean fenced)
    simpa using next

theorem Conversion.restore_clean {passed text : Text} {desk : Desk} (stored : desk.store.Vouched known)
    (legible : Legible false (Readable false desk.store 0) text) (here : Clean known (passed ++ text)) :
    Settles false (Conversion.restore text) desk fun out reached =>
      reached = desk ∧ Clean known (passed ++ out) := by
  have run : Gives (Conversion.restore text) desk (fill desk.store.literals text) desk := by
    rw [Gives, outcome_restore, Store.restore_literals legible]
  exact run.settles ⟨rfl, stored.fill legible here⟩

/-- A part of a line that names no helper yet, with its literals held back. -/
structure Readied (known : Text → Prop) (store : Store) (text : Text) : Prop where
  stored : store.Vouched known
  free : Free text
  legible : Legible false (Readable false store 0) text

theorem Readied.fitting {store : Store} (stored : store.Vouched known) :
    Fitting false (Readied known store) where
  nil := ⟨stored, Free.jointed.nil, .nil⟩
  split whole place :=
    have legible := Legible.seamless.split whole.legible place
    ⟨⟨stored, whole.free.of_infix (prefix_append _ _).isInfix, legible.1⟩,
      ⟨stored, whole.free.of_infix (suffix_append _ _).isInfix, legible.2⟩⟩
  cased := by simp
  fixed here := ⟨stored, Free.jointed.fixed here, Legible.seamless.fitting.fixed here⟩
  fit joint first second := ⟨stored, first.free.append second.free joint, first.legible.append second.legible⟩

theorem CountedLoop.downward_fitting : CountedLoop.downward.Fitting Free := by
  intro before written text n new here found
  unfold downward at found
  simp only at found
  split at found
  · rename_i rest whole
    split at found
    · rename_i starts
      obtain ⟨rfl, rfl⟩ := Prod.mk.inj (Option.some.inj found)
      obtain ⟨_, word, _, listed, whole, -⟩ := findSome?_eq_some_iff.mp whole
      obtain ⟨dropped, ends⟩ := filter_eq_some_iff.mp whole
      obtain ⟨wordSplit, letters⟩ := dropWord?_eq_some dropped
      have split : text = (indentation text ++ (trimLeft text).take word.toList.length) ++ rest := by
        rw [append_assoc, ← wordSplit, indentation, trimLeft, takeWhile_append_dropWhile]
      have filled : (trimLeft text).take word.toList.length ≠ [] := by
        have words : ∀ word ∈ ["décroissant", "decroissant"], word.toList ≠ [] := by decide
        intro empty
        rw [empty] at letters
        exact words word (listed ▸ by simp) (by simpa using letters.symm)
      have blanks : ∀ c ∈ indentation text, isWordChar c = false := fun c member =>
        isBlank_not_wordChar (mem_takeWhile_imp member)
      refine ⟨_, _, split, ?_, by simp [filled], Free.jointed.nil, ?_, .inr ends, .inl rfl, .inr ends⟩
      · have length := congrArg List.length split
        rw [length_append] at length
        omega
      · refine (Bool.or_eq_true_iff.mp starts).symm.imp_right fun gap => ?_
        have nonempty : indentation text ≠ [] := by simpa using gap
        rw [atWordEnd_append nonempty]
        exact (wordless_ends blanks).1
    · simp at found
  · simp at found

namespace Context

variable {context : Context} {desk : Desk} {text : Text}

theorem finish_clean (stored : desk.store.Vouched known) (here : Pseudocode.Vouched known text)
    (legible : Legible false (Readable false desk.store 0) text) :
    Settles false (finish text) desk fun out reached => reached.store = desk.store ∧ Clean known out := by
  refine ((Index.convertFrom_settles Legible.seamless legible [] desk).and
    (Index.convert_vouched stored here)).bind fun out reached ⟨⟨same, outLegible⟩, kept, outVouched⟩ => ?_
  rw [← same] at outLegible
  exact (Conversion.restore_clean kept outLegible (show Clean known ([] ++ out) from outVouched.clean)).mono
    fun _ _ ⟨unmoved, clean⟩ => ⟨unmoved ▸ same, clean⟩

theorem emittedCalls_clean (emitted : ∀ name ∈ emittedHelpers, known name) :
    ∀ text ∈ emittedCalls, Clean known text := by
  have joins : Jointed (Clean known) := Clean.jointed
  have helper {name : Text} (member : name ∈ emittedHelpers) : Clean known name :=
    (Pseudocode.Vouched.emitted emitted name member).clean
  have called {name : Text} (member : name ∈ emittedHelpers) :
      Clean known (" = ".toList ++ (name ++ '(' :: [] ++ [')'])) :=
    joins.lead (by decide) (joins.called (helper member) joins.nil)
  simp only [emittedCalls, map_cons, map_nil, forall_mem_cons, not_mem_nil, false_implies,
    implies_true, and_true]
  refine ⟨?_, ?_, ?_⟩
  · exact joins.trail (helper (show "__psc_write".toList ∈ emittedHelpers by decide))
      (show isTrail ['('] = true by decide)
  · exact called (show "__psc_lire".toList ∈ emittedHelpers by decide)
  · exact called (show "__psc_lire_chaine".toList ∈ emittedHelpers by decide)

/-- Whatever a line without helpers comes to names known helpers only. -/
theorem emits_clean (regular : context.Regular false) (vouched : context.Vouched known) :
    context.Emits false
      (fun store reached => store.Extends reached ∧ (store.Vouched known → reached.Vouched known))
      (Readied known) (Clean known) where
  refl store := ⟨.refl store, id⟩
  trans first second := ⟨first.1.trans second.1, fun start => second.2 (first.2 start)⟩
  mono grown here := ⟨grown.2 here.stored, here.free, here.legible.readable_mono grown.1 le_rfl⟩
  parts here := Readied.fitting here.stored
  undirected here :=
    ⟨here.stored, Free.jointed.substitute CountedLoop.downward_fitting here.free,
      Legible.seamless.substitute (CountedLoop.downward_neat Legible.seamless) here.legible⟩
  joins := Clean.jointed.toJoinable
  names named := named.1.free.stemless.clean
  expression usage desk text here := by
    have vouching : Settles false (context.value usage text) desk fun out reached =>
        reached.store.Vouched known ∧ Pseudocode.Vouched known out :=
      .get_bind (valueWithin_vouched vouched _ usage here.stored here.free.vouched)
    refine ((value_settles regular usage here.legible).and vouching).bind
      fun out reached ⟨⟨grown, legible⟩, kept, outVouched⟩ => ?_
    exact (finish_clean kept outVouched legible).mono fun _ _ ⟨same, clean⟩ =>
      ⟨same ▸ ⟨grown, fun _ => kept⟩, clean⟩
  finish here := finish_clean here.stored here.free.vouched here.legible
  restore {desk text} here :=
    Conversion.restore_clean here.stored here.legible (show Clean known ([] ++ text) from here.free.stemless.clean)
  closed {desk text} here :=
    Conversion.restore_clean here.stored (here.legible.tail)
      (show Clean known ([')'] ++ text) from here.free.stemless.clean)
  zeros := by
    intro element zero found
    obtain ⟨type, named, zeroed⟩ := bind_eq_some_iff.mp found
    exact vouched.language.zeros type (mem_reverse.mp (mem_of_find?_eq_some named)) zero zeroed
  calls := emittedCalls_clean vouched.emitted
  indent here := (clean_append (.inl (wordless_ends vouched.indent).2)).mpr
    ⟨(Stemless.of_wordless vouched.indent).clean, here⟩
  signatures := vouched.signatures

end Context

end Pseudocode
