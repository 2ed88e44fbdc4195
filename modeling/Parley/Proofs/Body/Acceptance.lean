import Parley.Proofs.Body.Accepted
import Parley.Proofs.Body.Influence
import Parley.Proofs.Body.Pointers
import Parley.Proofs.Body.Scripts
import Parley.Proofs.Expr.Numerals
import Parley.Proofs.Template.Firm

/-!
What holds of all that is read from the tokens of a text, of bodies as a whole, and what has to be
asked of a body beside that for its script to be read again.
-/
namespace Parley

open Tokenizer

/-! Templates -/

/-- Whether two parts of a template can be written side by side. -/
def Part.Apart : Part → Part → Prop
  | .var _, .literal text => ∀ c ∈ text.toList.head?, isNameChar c = false
  | _, _ => True

namespace Template

/-- Whether no text behind a variable starts with a character that goes on with its name. -/
def Separated (t : Template) : Prop := t.parts.IsChain Part.Apart

theorem apart_atoms {parts : List Part} (normal : Part.Normal parts)
    (separated : parts.IsChain Part.Apart) : (parts.flatMap Part.atoms).IsChain Atom.Apart := by
  induction parts with
  | nil => exact .nil
  | cons part rest ih =>
    obtain ⟨apart, later⟩ := List.isChain_cons.mp separated
    cases part with
    | literal text =>
      have chars : (Part.atoms (.literal text)).IsChain Atom.Apart :=
        List.Pairwise.isChain (List.pairwise_map.mpr (List.pairwise_of_forall_mem_list
          fun _ _ _ _ => trivial))
      refine chars.append (ih normal.2.2 later) fun a last b _ => ?_
      obtain ⟨c, _, rfl⟩ := List.mem_map.mp (List.mem_of_getLast? last)
      trivial
    | var name =>
      have behind : Part.Normal rest := normal
      refine List.isChain_cons.mpr ⟨fun a head => ?_, ih behind later⟩
      cases rest with
      | nil => cases head
      | cons second more =>
        cases second with
        | var other =>
          cases head
          trivial
        | literal text =>
          have start := apart (.literal text) rfl
          cases chars : text.toList with
          | nil => exact absurd (String.toList_eq_nil_iff.mp chars) behind.1
          | cons c others =>
            have head : a ∈ ((Part.literal text :: more).flatMap Part.atoms).head? := head
            rw [List.flatMap_cons, Part.atoms, chars] at head
            cases head
            exact start c (by rw [chars]; rfl)

theorem readable_of_named {t : Template} (named : t.Named) (separated : t.Separated) :
    Atom.Readable t.atoms :=
  ⟨named, apart_atoms t.normal separated⟩

theorem quotable_of_framed {t : Template} (framed : t.Framed) (separated : t.Separated) :
    t.Quotable :=
  ⟨readable_of_named framed.named separated, framed.flat⟩

theorem named_template {tokens : List Token} (fits : ∀ t ∈ tokens, t.Fit) :
    (Item.template tokens).Named := by
  intro name member
  rw [Item.template, atoms_ofParts] at member
  obtain ⟨part, inside, here⟩ := List.mem_flatMap.mp member
  obtain ⟨t, among, found⟩ := List.mem_filterMap.mp inside
  have fit : t.content.Fit := fits t among
  split at found
  · cases found
    simp [Part.atoms] at here
  · rename_i other content
    cases found
    cases List.mem_singleton.mp here
    rwa [content] at fit
  · cases found

end Template

instance : DecidableRel Part.Apart := fun p q =>
  match p, q with
  | .var _, .literal text =>
      Option.decidableForallMem (p := fun c => isNameChar c = false) text.toList.head?
  | .var _, .var _ => .isTrue trivial
  | .literal _, _ => .isTrue trivial

instance : DecidablePred Template.Separated := fun t =>
  inferInstanceAs (Decidable (t.parts.IsChain Part.Apart))

/-! Expressions -/

/-- Whether an expression is read from some text. -/
def Expr.Parsed (e : Expr) : Prop := ∃ cs, parseChars cs = .ok e

/-- Whether the literals of an expression can be written inside a command. -/
structure Expr.Writable (e : Expr) : Prop where
  bounded : ∀ negative, .literal (.float (.infinite negative)) ∉ e.nodes
  unbroken : ∀ s, .literal (.text s) ∈ e.nodes → Unbroken s

instance (s : String) : Decidable (Unbroken s) :=
  List.decidableBAll (p := fun c => c = '\n' ∨ isLineBreak c = false) s.toList

/-- Whether an expression is no literal that cannot be written inside a command. -/
def Expr.isWritableNode : Expr → Bool
  | .literal (.float (.infinite _)) => false
  | .literal (.text s) => decide (Unbroken s)
  | _ => true

theorem Expr.writable_iff {e : Expr} : e.Writable ↔ ∀ node ∈ e.nodes, node.isWritableNode := by
  constructor
  · rintro ⟨bounded, unbroken⟩ node member
    fun_cases Expr.isWritableNode node with
    | case1 negative => exact absurd member (bounded negative)
    | case2 s => exact decide_eq_true (unbroken s member)
    | case3 => rfl
  · intro all
    refine ⟨fun negative member => ?_, fun s member => ?_⟩
    · cases all _ member
    · exact of_decide_eq_true (all _ member)

instance : DecidablePred Expr.Writable := fun _ => decidable_of_iff _ Expr.writable_iff.symm

theorem Expr.scripted_of_parsed {e : Expr} (parsed : e.Parsed) (writable : e.Writable) :
    e.Scripted := by
  obtain ⟨cs, accepted⟩ := parsed
  exact ⟨spells_of_parseChars accepted (finite_of_parseChars accepted writable.bounded),
    writable.unbroken⟩

namespace Enclosed

theorem parsed_of_expr {e : Enclosed} {name : String} {found : Expr}
    (read : e.expr name = .ok found) : found.Parsed := by
  obtain ⟨content, _, parsed⟩ := bind_eq_ok_iff.mp (expr_eq_ok_iff.mp read)
  dsimp only at parsed
  repeat' split at parsed
  all_goals cases parsed
  exact ⟨_, by assumption⟩

theorem parsed_of_condition {e : Enclosed} {name : String} {found : Expr}
    (read : e.condition name = .ok found) : found.Parsed := by
  obtain ⟨expr, given, read⟩ := bind_eq_ok_iff.mp read
  split at read
  · cases read
  · cases read
    exact parsed_of_expr given

theorem parsed_of_assignment {e : Enclosed} {s : Assignment} (read : e.assignment = .ok s) :
    s.expr.Parsed := by
  obtain ⟨expr, given, read⟩ := bind_eq_ok_iff.mp read
  split at read
  · split at read
    · cases read
    · cases read
      exact parsed_of_expr given
  · cases read

end Enclosed

/-! Statements -/

namespace Body

/-- What a statement takes keeps its text joined. -/
theorem merged_of_statementStep {before after : List (Segment Input)} {item : Item}
    (merged : Segment.Merged before) (taken : statementStep before item = .ok after) :
    Segment.Merged after := by
  cases item with
  | text tokens =>
    cases taken
    exact Segment.merged_pushText merged
  | command tokens =>
    obtain ⟨_, _, taken⟩ := bind_eq_ok_iff.mp taken
    obtain ⟨_, _, taken⟩ := bind_eq_ok_iff.mp taken
    obtain ⟨_, _, taken⟩ := bind_eq_ok_iff.mp taken
    obtain ⟨i, _, same⟩ := bind_eq_ok_iff.mp taken
    cases same
    have alone : Segment.Merged [Segment.command i] := trivial
    exact Segment.merged_push merged alone
  | reply e => cases taken
  | stray t => cases taken

/-- Whether a part of a statement is what can be found in a text. -/
def FitAtom : Atom ⊕ Input → Prop
  | .inl (.char _) => True
  | .inl (.var name) => isName name.toList
  | .inr i => i.Fits ∧ ∀ t ∈ i.templates, t.Framed

/-- Whether a statement is what can be found in a text, as far as it has been read. -/
structure StatementFit (segments : List (Segment Input)) : Prop where
  merged : Segment.Merged segments
  fit : ∀ a ∈ Segment.atoms segments, FitAtom a

theorem fitAtom_of_named {t : Template} (named : t.Named) :
    ∀ a ∈ t.atoms.map (Sum.inl : Atom → Atom ⊕ Input), FitAtom a := by
  intro a member
  obtain ⟨b, inside, rfl⟩ := List.mem_map.mp member
  cases b with
  | char c => trivial
  | var name => exact named name inside

theorem StatementFit.step {before after : List (Segment Input)} {item : Item}
    (statement : StatementFit before) (fits : ∀ t ∈ item.tokens, t.Fit)
    (taken : statementStep before item = .ok after) : StatementFit after := by
  obtain ⟨merged, fit⟩ := statement
  refine ⟨merged_of_statementStep merged taken, fun a member => ?_⟩
  cases item with
  | text tokens =>
    cases taken
    rw [Segment.atoms_pushText] at member
    rcases List.mem_append.mp member with earlier | last
    · exact fit a earlier
    · exact fitAtom_of_named (Template.named_template fits) a last
  | command tokens =>
    obtain ⟨⟨name, t, e⟩, named, taken⟩ := bind_eq_ok_iff.mp taken
    obtain ⟨_, _, taken⟩ := bind_eq_ok_iff.mp taken
    obtain ⟨found, attributes, taken⟩ := bind_eq_ok_iff.mp taken
    obtain ⟨i, read, same⟩ := bind_eq_ok_iff.mp taken
    cases same
    have within : ∀ t ∈ e.inner, t.Fit :=
      fun t member => fits t (Enclosed.inner_subset_of_named named member)
    rw [Segment.pushCommand, Segment.atoms_push] at member
    rcases List.mem_append.mp member with earlier | last
    · exact fit a earlier
    · cases List.mem_singleton.mp last
      exact Input.fits_of_ofAttributes (Attributes.fit_of_ofCommand within attributes) read
  | reply e => cases taken
  | stray t => cases taken

theorem StatementFit.fold {before after : List (Segment Input)} {items : List Item}
    (statement : StatementFit before) (fits : ∀ item ∈ items, ∀ t ∈ item.tokens, t.Fit)
    (run : items.foldlM statementStep before = .ok after) : StatementFit after := by
  induction items generalizing before with
  | nil =>
    cases run
    exact statement
  | cons item rest ih =>
    obtain ⟨mid, first, later⟩ := foldlM_cons_eq_ok_iff.mp run
    exact ih (statement.step (fits item List.mem_cons_self) first)
      (fun other member => fits other (List.mem_cons_of_mem item member)) later

theorem StatementFit.trim {segments : List (Segment Input)} (statement : StatementFit segments) :
    StatementFit (Segment.trim segments) := by
  obtain ⟨merged, fit⟩ := statement
  refine ⟨Segment.merged_trim merged, fun a member => fit a ?_⟩
  rw [Segment.atoms_trim] at member
  exact (List.dropWhile_suffix _).subset ((List.rdropWhile_prefix _ _).subset member)

theorem fit_of_statementOf {tokens : List Token} {segments : List (Segment Input)}
    (fits : ∀ t ∈ tokens, t.Fit) (read : statementOf tokens = .ok (some segments)) :
    StatementFit segments ∧ Segment.trim segments = segments ∧ segments ≠ [] := by
  obtain ⟨found, run, read⟩ := bind_eq_ok_iff.mp read
  have start : StatementFit [] := ⟨trivial, by simp [Segment.atoms]⟩
  have last : StatementFit found :=
    start.fold (fun item member t inside => fits t (Item.tokens_subset item member inside)) run
  dsimp only at read
  split at read
  · cases read
  · rename_i some
    cases read
    exact ⟨last.trim, Segment.trim_idempotent found, by simpa using some⟩

/-! Replies -/

theorem mem_atoms_of_text {segments : List (Segment Input)} {t : Template}
    (member : .text t ∈ segments) : ∀ a ∈ t.atoms, .inl a ∈ Segment.atoms segments := by
  intro a inside
  obtain ⟨before, behind, rfl⟩ := List.append_of_mem member
  rw [Segment.atoms_append, Segment.atoms]
  exact List.mem_append_right _ (List.mem_append_left _ (List.mem_map_of_mem inside))

theorem mem_atoms_of_command {segments : List (Segment Input)} {i : Input}
    (member : .command i ∈ segments) : .inr i ∈ Segment.atoms segments := by
  obtain ⟨before, behind, rfl⟩ := List.append_of_mem member
  rw [Segment.atoms_append, Segment.atoms]
  exact List.mem_append_right _ List.mem_cons_self

/-- Whether a part of a statement can be written in a script. -/
def PartWritable : Segment Input → Prop
  | .text t => t.Separated
  | .command i => ∀ t ∈ i.templates, t.Separated

theorem sound_of_statementFit {segments : List (Segment Input)} (statement : StatementFit segments)
    (trimmed : Segment.trim segments = segments) (some : segments ≠ [])
    (writable : ∀ s ∈ segments, PartWritable s) : StatementSound segments := by
  refine ⟨statement.merged, trimmed, some, fun t member => ?_, fun i member => ?_⟩
  · refine Template.readable_of_named (fun name inside => ?_) (writable _ member)
    exact statement.fit _ (mem_atoms_of_text member _ inside)
  · obtain ⟨fits, framed⟩ : FitAtom (.inr i) := statement.fit _ (mem_atoms_of_command member)
    refine ⟨fits, fun t inside => ?_⟩
    exact Template.quotable_of_framed (framed t inside) (writable _ member t inside)

end Body

/-- Whether a command of a reply is what can be found in a text. -/
def ReplyCommand.Accepted : ReplyCommand → Prop
  | action a => a.Fits ∧ ∀ t ∈ a.templates, t.Framed
  | set s => s.expr.Parsed ∧ s.value.assigns = false

/-- Whether a command of a reply can be written in a script. -/
def ReplyCommand.Writable : ReplyCommand → Prop
  | action a => ∀ t ∈ a.templates, t.Separated
  | set s => s.expr.Writable

theorem Action.sound_of_fits {a : Action} (accepted : a.Fits ∧ ∀ t ∈ a.templates, t.Framed)
    (separated : ∀ t ∈ a.templates, t.Separated) : a.Sound :=
  ⟨accepted.1, fun t member => Template.quotable_of_framed (accepted.2 t member)
    (separated t member)⟩

theorem ReplyCommand.sound_of_accepted {c : ReplyCommand} (accepted : c.Accepted)
    (writable : c.Writable) : c.Sound := by
  cases c with
  | action a => exact Action.sound_of_fits accepted writable
  | set s => exact ⟨Expr.scripted_of_parsed accepted.1 writable, accepted.2⟩

/-- Whether a reply is what can be found in a text of a dialogue. -/
structure Reply.Accepted (dialogue : String) (r : Reply) : Prop where
  statement : ∀ segments ∈ r.statement,
    Body.StatementFit segments ∧ Segment.trim segments = segments ∧ segments ≠ []
  pointer : ∃ text, Pointer.ofText dialogue text = .ok r.pointer
  commands : ∀ c ∈ r.commands, c.Accepted

/-- Whether a reply can be written in a script. -/
structure Reply.Writable (r : Reply) : Prop where
  statement : ∀ segments ∈ r.statement, ∀ s ∈ segments, Body.PartWritable s
  commands : ∀ c ∈ r.commands, c.Writable
  alone : r.statement = none → r.commands = []

instance : DecidablePred Body.PartWritable := fun s =>
  match s with
  | .text t => inferInstanceAs (Decidable t.Separated)
  | .command i => inferInstanceAs (Decidable (∀ t ∈ i.templates, t.Separated))

instance : DecidablePred ReplyCommand.Writable := fun c =>
  match c with
  | .action a => inferInstanceAs (Decidable (∀ t ∈ a.templates, t.Separated))
  | .set s => inferInstanceAs (Decidable s.expr.Writable)

instance : DecidablePred Reply.Writable := fun r =>
  decidable_of_iff ((∀ segments ∈ r.statement, ∀ s ∈ segments, Body.PartWritable s) ∧
      (∀ c ∈ r.commands, c.Writable) ∧ (r.isAutoforward → r.commands.isEmpty))
    ⟨fun ⟨statement, commands, alone⟩ => ⟨statement, commands, fun none =>
        List.isEmpty_iff.mp (alone (Option.isNone_iff_eq_none.mpr none))⟩,
      fun ⟨statement, commands, alone⟩ => ⟨statement, commands, fun none =>
        List.isEmpty_iff.mpr (alone (Option.isNone_iff_eq_none.mp none))⟩⟩

theorem Reply.sound_of_accepted {dialogue : String} {r : Reply} (accepted : r.Accepted dialogue)
    (writable : r.Writable) : r.Sound dialogue := by
  obtain ⟨text, pointer⟩ := accepted.pointer
  obtain ⟨same, word⟩ := Pointer.toScript_of_ofText pointer
  refine ⟨fun segments given => ?_, same ▸ word, same ▸ pointer, fun c member => ?_, writable.alone⟩
  · obtain ⟨fit, trimmed, some⟩ := accepted.statement segments given
    exact Body.sound_of_statementFit fit trimmed some (writable.statement segments given)
  · exact ReplyCommand.sound_of_accepted (accepted.commands c member) (writable.commands c member)

namespace Body

theorem accepted_of_replyCommand {e : Enclosed} {c : ReplyCommand} (fits : ∀ t ∈ e.inner, t.Fit)
    (read : replyCommand e = .ok c) : c.Accepted := by
  obtain ⟨⟨name, t, command⟩, named, read⟩ := bind_eq_ok_iff.mp read
  obtain ⟨_, _, read⟩ := bind_eq_ok_iff.mp read
  have within : ∀ t ∈ command.inner, t.Fit :=
    fun t member => fits t (Enclosed.inner_subset_of_named named member)
  split at read
  · obtain ⟨found, attributes, read⟩ := bind_eq_ok_iff.mp read
    obtain ⟨a, action, same⟩ := bind_eq_ok_iff.mp read
    cases same
    exact Action.fits_of_ofAttributes (Attributes.fit_of_ofCommand within attributes) action
  · obtain ⟨s, assigned, same⟩ := bind_eq_ok_iff.mp read
    cases same
    exact ⟨Enclosed.parsed_of_assignment assigned, assigns_of_assignment assigned⟩

theorem accepted_of_replyCommands {items : List Item} {commands : List ReplyCommand}
    (fits : ∀ item ∈ items, ∀ t ∈ item.tokens, t.Fit) (read : replyCommands items = .ok commands) :
    ∀ c ∈ commands, c.Accepted := by
  fun_induction replyCommands items generalizing commands with
  | case1 =>
    cases read
    simp
  | case2 rest e ih =>
    obtain ⟨command, first, read⟩ := bind_eq_ok_iff.mp read
    obtain ⟨others, later, same⟩ := bind_eq_ok_iff.mp read
    cases same
    intro c member
    rcases List.mem_cons.mp member with rfl | inside
    · exact accepted_of_replyCommand (fits _ List.mem_cons_self) first
    · exact ih (fun item among => fits item (List.mem_cons_of_mem _ among)) later c inside
  | case3 rest tokens blank ih =>
    exact ih (fun item among => fits item (List.mem_cons_of_mem _ among)) read
  | _ => cases read

theorem tokens_of_sections {reply : Enclosed} {left : Nat} {read tokens : List Token}
    {parts : List Section} (cut : sections reply left read tokens = .ok parts) :
    ∀ s ∈ parts, s.tokens ⊆ read ++ tokens := by
  fun_induction sections reply left read tokens generalizing parts with
  | case1 left read stop given =>
    cases cut
    simp
  | case2 => cases cut
  | case3 => cases cut
  | case4 read t rest bar left ih =>
    obtain ⟨others, later, same⟩ := bind_eq_ok_iff.mp cut
    cases same
    intro s member
    rcases List.mem_cons.mp member with rfl | inside
    · exact List.subset_append_left _ _
    · intro u among
      exact List.mem_append_right _ (List.mem_cons_of_mem t (ih later s inside among))
  | case5 left read t rest other ih =>
    intro s member u among
    simpa using ih cut s member among

theorem accepted_of_replyOf {dialogue : String} {id : Nat} {e : Enclosed} {r : Reply}
    {use : PointerUse} (fits : ∀ t ∈ e.inner, t.Fit) (read : replyOf dialogue id e = .ok (r, use)) :
    r.Accepted dialogue := by
  obtain ⟨statement, pointer, commands, more, cut, said, found, done, same, _⟩ :=
    sections_of_replyOf read
  -- each part of the reply is read from a section of its tokens
  have within := tokens_of_sections cut
  rw [List.nil_append] at within
  refine ⟨fun segments given => ?_, ?_, fun c member => ?_⟩
  · cases statement with
    | none =>
      have none_there : r.statement = none := (Except.ok.inj said).symm
      rw [none_there] at given
      cases given
    | some part =>
      refine fit_of_statementOf (fun t member => fits t (within part (by simp) member)) ?_
      exact said.trans (congrArg Except.ok given)
  · unfold pointerOf at found
    split at found
    · cases found
    · split at found
      · rename_i p named
        cases found
        rw [same]
        exact ⟨_, named⟩
      · cases found
    · cases found
  · cases commands with
    | none =>
      have none_there : r.commands = [] := (Except.ok.inj done).symm
      rw [none_there] at member
      cases member
    | some part =>
      have among : ∀ t ∈ part.tokens, t.Fit := fun t inside => fits t (within part (by simp) inside)
      exact accepted_of_replyCommands
        (fun item inside t here => among t (Item.tokens_subset item inside here)) done c member

/-! Bodies -/

/-- What holds of the parts of every body that is read from a text with the standard commands. -/
def Law.accepted (dialogue : String) : Law where
  text t := t.Named
  action a := a.Fits ∧ ∀ t ∈ a.templates, t.Framed
  set s := s.expr.Parsed ∧ s.value.assigns = false
  condition e := e.Parsed ∧ e.assigns = false
  weight := Weighs
  input _ := False
  reply r := r.Accepted dialogue
  draft b := Segment.Merged b.segments ∧
    b.replies.Pairwise fun r s => r.isAutoforward = false ∨ s.isAutoforward = false
  whole := (Law.scripted dialogue).whole

/-- What is asked of the parts of a body for its script to be read again. -/
def Law.writable : Law where
  text t := t.Separated
  action a := ∀ t ∈ a.templates, t.Separated
  set s := s.expr.Writable
  condition e := e.Writable
  reply r := r.Writable

instance : Law.writable.Decides where
  text := inferInstanceAs (DecidablePred Template.Separated)
  action a := inferInstanceAs (Decidable (∀ t ∈ a.templates, t.Separated))
  set s := inferInstanceAs (Decidable s.expr.Writable)
  condition := inferInstanceAs (DecidablePred Expr.Writable)
  weight _ := .isTrue trivial
  input _ := .isTrue trivial
  reply := inferInstanceAs (DecidablePred Reply.Writable)
  whole _ := .isTrue trivial

theorem scripted_follows (dialogue : String) :
    (Law.scripted dialogue).Follows (Law.accepted dialogue) Law.writable where
  text _ named separated := Template.readable_of_named named separated
  action _ accepted separated := Action.sound_of_fits accepted separated
  set _ accepted writable := ⟨Expr.scripted_of_parsed accepted.1 writable, accepted.2⟩
  condition _ accepted writable := ⟨Expr.scripted_of_parsed accepted.1 writable, accepted.2⟩
  weight _ weighs _ := weighs
  input _ none _ := none
  reply _ accepted writable := Reply.sound_of_accepted accepted writable
  whole _ whole _ := whole

theorem accepted_kept (dialogue : String) (uses : List PointerUse) :
    (Law.accepted dialogue).Kept dialogue standardCommands Token.Fit uses where
  text _ fits := Template.named_template fits
  joined t u first second name member := by
    rw [Template.atoms_append] at member
    exact (List.mem_append.mp member).elim (first name) (second name)
  trimStart t named name member := by
    rw [Template.atoms_trimStart] at member
    exact named name ((List.dropWhile_suffix _).subset member)
  trimEnd t named name member := by
    rw [Template.atoms_trimEnd] at member
    exact named name ((List.rdropWhile_prefix _ _).subset member)
  action _ _ _ fits attributes read :=
    Action.fits_of_ofAttributes (Attributes.fit_of_ofCommand fits attributes) read
  set _ _ _ read := ⟨Enclosed.parsed_of_assignment read, assigns_of_assignment read⟩
  condition _ _ _ _ read := ⟨Enclosed.parsed_of_condition read, assigns_of_condition read⟩
  weight _ _ _ _ _ read := weighs_of_weightOf read
  input _ _ _ standing _ _ _ := absurd standing (by decide)
  reply _ _ _ _ fits read _ := accepted_of_replyOf fits read
  draftNil := ⟨trivial, .nil⟩
  draftText _ _ draft := ⟨Segment.merged_pushText draft.1, draft.2⟩
  draftCommand _ _ draft := ⟨Segment.merged_push draft.1 trivial, draft.2⟩
  draftReply b r draft single := by
    refine ⟨draft.1, List.pairwise_append.mpr
      ⟨draft.2, List.pairwise_singleton _ _, fun s member u last => ?_⟩⟩
    cases List.mem_singleton.mp last
    rcases single with other | none
    · exact .inr other
    · left
      simpa using List.any_eq_false.mp none s member
  whole b draft := ⟨Segment.merged_trim draft.1, Segment.trim_idempotent _, draft.2⟩

end Body
end Parley
