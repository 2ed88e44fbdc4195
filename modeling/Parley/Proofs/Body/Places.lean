import Parley.Proofs.Body.Acceptance

/-!
The places of tokens. They tell where an error stands and decide nothing else: tokens further down
are read as the same body, or with the same error further down.
-/
namespace Parley

/-! Places and errors -/

/-- The place a number of lines further down. -/
def Position.down (k : Nat) (p : Position) : Position := ⟨p.line + k, p.column⟩

/-- The error a number of lines further down. -/
def ScriptError.down (k : Nat) (e : ScriptError) : ScriptError :=
  ⟨e.cause, e.position.map (Position.down k)⟩

/-- Whether a cause lies in a dialogue as a whole, and in no node on its own. -/
def Cause.ofWhole : Cause → Bool
  | invalidDialogueName _ | noStart | danglingPointer _ => true
  | _ => false

/-! Outcomes -/

/-- Whether one computation, on what stands further down, comes to what another does: to what a
function makes of the same outcome, or to the same error further down. No error is one of a whole
dialogue. -/
structure Moves {α β : Type} (k : Nat) (h : α → β) (x : Except ScriptError α)
    (y : Except ScriptError β) : Prop where
  same : y = (x.map h).mapError (ScriptError.down k)
  inner : ∀ e, x = .error e → e.cause.ofWhole = false

namespace Moves

variable {α β γ δ : Type} {k : Nat} {h : α → β} {g : γ → δ}

theorem ok {a : α} {b : β} (same : h a = b) : Moves k h (.ok a) (.ok b) :=
  ⟨congrArg Except.ok same.symm, fun _ failed => by cases failed⟩

theorem error {e e' : ScriptError} (same : e.down k = e') (inner : e.cause.ofWhole = false) :
    Moves k h (.error e) (.error e') :=
  ⟨congrArg Except.error same.symm, fun _ failed => by cases failed; exact inner⟩

theorem bind {x : Except ScriptError α} {y : Except ScriptError β} {f : α → Except ScriptError γ}
    {f' : β → Except ScriptError δ} (first : Moves k h x y)
    (next : ∀ a, Moves k g (f a) (f' (h a))) : Moves k g (x >>= f) (y >>= f') := by
  obtain ⟨rfl, inner⟩ := first
  cases x with
  | error e => exact .error rfl (inner e rfl)
  | ok a => exact next a

theorem map {x : Except ScriptError α} {y : Except ScriptError β} {f : α → γ} {f' : β → δ}
    (moves : Moves k h x y) (next : ∀ a, f' (h a) = g (f a)) : Moves k g (x.map f) (y.map f') := by
  obtain ⟨rfl, inner⟩ := moves
  cases x with
  | error e => exact .error rfl (inner e rfl)
  | ok a => exact .ok (next a).symm

/-- Steps that go the same way further down do so one after the other. -/
theorem foldlM {σ σ' : Type} {h : σ → σ'} {g : α → β} {f : σ → α → Except ScriptError σ}
    {f' : σ' → β → Except ScriptError σ'} (step : ∀ s a, Moves k h (f s a) (f' (h s) (g a)))
    (s : σ) (as : List α) : Moves k h (as.foldlM f s) ((as.map g).foldlM f' (h s)) := by
  induction as generalizing s with
  | nil => exact .ok rfl
  | cons a rest ih =>
    rw [List.map_cons, List.foldlM_cons, List.foldlM_cons]
    exact (step s a).bind ih

theorem eq_ok {x : Except ScriptError α} {y : Except ScriptError β} (moves : Moves k h x y) {a : α}
    (done : x = .ok a) : y = .ok (h a) := by
  rw [moves.same, done]
  rfl

theorem eq_error {x : Except ScriptError α} {y : Except ScriptError β} (moves : Moves k h x y)
    {e : ScriptError} (failed : x = .error e) : y = .error (e.down k) := by
  rw [moves.same, failed]
  rfl

end Moves

/-! Tokens and items -/

variable {k : Nat}

/-- The token in another place. -/
def Token.down (k : Nat) (t : Token) : Token :=
  { t with position := t.position.down k }

namespace Enclosed

def down (k : Nat) (e : Enclosed) : Enclosed :=
  ⟨e.start.down k, e.inner.map (Token.down k), e.stop.map (Position.down k)⟩

theorem upTo_down (closing : TokenKind) (start : Position) (tokens : List Token) :
    upTo closing (start.down k) (tokens.map (Token.down k)) =
      (upTo closing start tokens).down k := by
  have kept : (fun t : Token => t.kind != closing) ∘ Token.down k =
    fun t : Token => t.kind != closing := rfl
  simp only [upTo, down, List.takeWhile_map, List.dropWhile_map, kept, List.head?_map,
    Option.map_map]
  rfl

end Enclosed

namespace Token

theorem behind_down (closing : TokenKind) (tokens : List Token) :
    behind closing (tokens.map (down k)) = (behind closing tokens).map (down k) := by
  have kept : (fun t : Token => t.kind != closing) ∘ down k =
    fun t : Token => t.kind != closing := rfl
  rw [behind, behind, List.dropWhile_map, kept, List.map_tail]

theorem skipBlank_down (tokens : List Token) :
    skipBlank (tokens.map (down k)) = (skipBlank tokens).map (down k) := by
  have kept : isBlank ∘ down k = isBlank := rfl
  rw [skipBlank, skipBlank, List.dropWhile_map, kept]

theorem mapText_down (f : String → String) (t : Token) :
    mapText f (t.down k) = (mapText f t).down k := by
  obtain ⟨content, source, position⟩ := t
  cases content <;> rfl

theorem mapFirst_down {f : Token → Token} (commutes : ∀ t, f (t.down k) = (f t).down k)
    (tokens : List Token) :
    mapFirst f (tokens.map (down k)) = (mapFirst f tokens).map (down k) := by
  cases tokens with
  | nil => rfl
  | cons t rest => simp only [List.map_cons, mapFirst, commutes]

theorem trim_down (tokens : List Token) :
    trim (tokens.map (down k)) = (trim tokens).map (down k) := by
  have kept : isBlank ∘ down k = isBlank := rfl
  simp only [trim, skipBlank_down, ← List.map_reverse, List.dropWhile_map, kept,
    mapFirst_down (mapText_down _)]

end Token

namespace Item

def down (k : Nat) : Item → Item
  | text tokens => text (tokens.map (Token.down k))
  | command e => command (e.down k)
  | reply e => reply (e.down k)
  | stray t => stray (t.down k)

theorem ofTokens_down (tokens : List Token) :
    ofTokens (tokens.map (Token.down k)) = (ofTokens tokens).map (down k) := by
  have kept : Token.isText ∘ Token.down k = Token.isText := rfl
  have content (t : Token) : (t.down k).content = t.content := rfl
  have position (t : Token) : (t.down k).position = t.position.down k := rfl
  fun_induction ofTokens tokens with
  | case1 => rw [List.map_nil, ofTokens, List.map_nil]
  | case2 t rest value text ih =>
    rw [List.map_cons, ofTokens]
    simp only [content, text, List.takeWhile_map, List.dropWhile_map, kept, ih]
    rfl
  | case3 t rest name var ih =>
    rw [List.map_cons, ofTokens]
    simp only [content, var, List.takeWhile_map, List.dropWhile_map, kept, ih]
    rfl
  | case4 t rest start ih =>
    rw [List.map_cons, ofTokens]
    simp only [content, position, start, Token.behind_down, Enclosed.upTo_down, ih]
    rfl
  | case5 t rest start ih =>
    rw [List.map_cons, ofTokens]
    simp only [content, position, start, Token.behind_down, Enclosed.upTo_down, ih]
    rfl
  | case6 t rest noText noVar noCommand noReply ih =>
    rw [List.map_cons, ofTokens, content]
    split
    · rename_i value text
      exact (noText value text).elim
    · rename_i name var
      exact (noVar name var).elim
    · rename_i start
      exact (noCommand start).elim
    · rename_i start
      exact (noReply start).elim
    · rw [ih]
      rfl

theorem template_down (tokens : List Token) :
    template (tokens.map (Token.down k)) = template tokens := by
  rw [template, template, List.filterMap_map]
  rfl

end Item

namespace Enclosed

variable (e : Enclosed)

theorem named_down : Moves k
    (fun (name, t, e) => (name, Token.down k t, Enclosed.down k e)) e.named
      (e.down k).named := by
  simp only [named, down, Token.skipBlank_down]
  cases Token.skipBlank e.inner with
  | nil => cases e.stop <;> exact .error rfl rfl
  | cons t rest =>
    obtain ⟨content, source, position⟩ := t
    cases content with
    | text value => exact .ok rfl
    | _ => exact .error rfl rfl

theorem source_down : Moves k id e.source (e.down k).source := by
  have sources : ((e.inner.map (Token.down k)).flatMap (·.source.toList)) =
      e.inner.flatMap (·.source.toList) := List.flatMap_map _ _ _
  simp only [source, down, sources, Option.isSome_map]
  split
  · exact .ok rfl
  · exact .error rfl rfl

theorem nameAndExpr_down : Moves k id e.nameAndExpr (e.down k).nameAndExpr := by
  have origin : ((e.down k).inner.head?.map (·.position)).getD (e.down k).start =
      ((e.inner.head?.map (·.position)).getD e.start).down k := by
    simp only [down]
    cases e.inner <;> rfl
  have place (origin p : Position) (before : List Char) :
      placeInScript (origin.down k) before p = (placeInScript origin before p).down k := by
    simp only [placeInScript, Position.down, Nat.add_right_comm]
  refine Moves.bind e.source_down fun content => ?_
  simp only [id, origin, place]
  split
  · exact .error rfl rfl
  · split
    · exact .error rfl rfl
    · split
      · exact .ok rfl
      · cases Expr.parseChars _ with
        | ok expr => exact .ok rfl
        | error defect => exact .error rfl rfl

theorem expr_down (name : String) : Moves k id (e.expr name) ((e.down k).expr name) := by
  refine Moves.bind e.nameAndExpr_down fun (found, expr) => ?_
  dsimp only [id]
  split
  · exact .error rfl rfl
  · cases expr with
    | none => exact .error rfl rfl
    | some expr => exact .ok rfl

theorem nameOnly_down (name : String) :
    Moves k id (e.nameOnly name) ((e.down k).nameOnly name) := by
  refine Moves.bind e.nameAndExpr_down fun (found, expr) => ?_
  dsimp only [id]
  split
  · exact .error rfl rfl
  · cases expr with
    | some expr => exact .error rfl rfl
    | none => exact .ok rfl

theorem condition_down (name : String) :
    Moves k id (e.condition name) ((e.down k).condition name) := by
  refine Moves.bind (e.expr_down name) fun expr => ?_
  dsimp only [id]
  split
  · exact .error rfl rfl
  · exact .ok rfl

theorem assignment_down : Moves k id e.assignment (e.down k).assignment := by
  refine Moves.bind (e.expr_down "set") fun expr => ?_
  cases expr with
  | assign target value =>
    dsimp only [id]
    split
    · exact .error rfl rfl
    · exact .ok rfl
  | _ => exact .error rfl rfl

end Enclosed

/-! Attributes -/

def Attribute.down (k : Nat) (a : Attribute) : Attribute :=
  { a with position := a.position.down k }

namespace Attributes

/-- The attributes with other places. -/
def downEntries (k : Nat) (entries : List (String × Attribute)) :
    List (String × Attribute) :=
  entries.map fun entry => (entry.1, entry.2.down k)

def down (k : Nat) (a : Attributes) : Attributes :=
  ⟨a.start.down k, downEntries k a.entries⟩

theorem nameIn_down (written : List Char) (position : Position) :
    Moves k id (nameIn written position) (nameIn written (position.down k)) := by
  unfold nameIn
  dsimp only
  split
  · exact .error rfl rfl
  · split
    · exact .error rfl rfl
    · split
      · exact .ok rfl
      · exact .error rfl rfl

/-- What collecting comes to at a text, without the proof that it comes to an end. -/
theorem collect_text {command : Enclosed} {found : List (String × Attribute)} {t : Token}
    {rest : List Token} {value : String} (isText : t.content = .text value) :
    collect command found (t :: rest) = (do
      let name ← nameIn (stripChars value.toList) t.position
      match Token.skipBlank rest with
      | [] =>
          match command.stop with
          | some stop => fail (.valueExpected .commandEnd) stop
          | none => .error (Cause.openCommand.placedAt command.start)
      | v :: others =>
          match v.content with
          | .quoted value =>
              collect command (Assoc.insert name ⟨value, v.source, v.position⟩ found)
                (Token.skipBlank others)
          | other => fail (.valueExpected other.kind) v.position) := by
  rw [collect]
  simp only [isText]
  congr 1
  funext name
  cases Token.skipBlank rest <;> rfl

theorem collect_down (command : Enclosed) (found : List (String × Attribute))
    (tokens : List Token) :
    Moves k (downEntries k) (collect command found tokens)
      (collect (command.down k) (downEntries k found)
        (tokens.map (Token.down k))) := by
  have content (t : Token) : (t.down k).content = t.content := rfl
  have stop : (command.down k).stop = command.stop.map (Position.down k) := rfl
  fun_induction collect command found tokens with
  | case1 found closed =>
    rw [List.map_nil, collect, stop, Option.isSome_map, if_pos closed]
    exact .ok rfl
  | case2 found isOpen =>
    rw [List.map_nil, collect, stop, Option.isSome_map, if_neg isOpen]
    exact .error rfl rfl
  | case3 found t rest value isText ih =>
    rw [List.map_cons, collect_text (t := t.down k) isText, Token.skipBlank_down]
    refine Moves.bind (nameIn_down _ _) fun name => ?_
    have later := ih name
    revert later
    cases Token.skipBlank rest with
    | nil =>
      intro _
      rw [stop]
      cases command.stop <;> exact .error rfl rfl
    | cons v others =>
      intro later
      simp only [List.map_cons, content, Token.skipBlank_down]
      cases quoted : v.content with
      | quoted value =>
        have inserted := later v others rfl value
        rw [downEntries, Assoc.insert_map] at inserted
        exact inserted
      | _ => exact .error rfl rfl
  | case4 found t rest notText =>
    rw [List.map_cons, collect, content]
    split
    · rename_i value isText
      exact (notText value isText).elim
    · exact .error rfl rfl

theorem behindName_down (tokens : List Token) :
    behindName (tokens.map (Token.down k)) =
      (behindName tokens).map (Token.down k) := by
  cases tokens with
  | nil => rfl
  | cons t rest =>
    obtain ⟨content, source, position⟩ := t
    cases content with
    | text value =>
      simp only [behindName, List.map_cons, Token.down]
      split
      · exact Token.skipBlank_down rest
      · rfl
    | _ => rfl

theorem ofCommand_down (command : Enclosed) :
    Moves k (Attributes.down k) (ofCommand command) (ofCommand (command.down k)) := by
  have tokens : behindName (command.down k).inner =
      (behindName command.inner).map (Token.down k) := behindName_down _
  rw [ofCommand, ofCommand, tokens]
  exact Moves.bind (collect_down command [] _) fun _ => .ok rfl

variable (a : Attributes) (name : String) (required : Bool)

theorem get?_down : (a.down k).get? name = (a.get? name).map (Attribute.down k) :=
  Assoc.get?_map (Attribute.down k) name a.entries

theorem has_down : (a.down k).has name = a.has name := by
  rw [has, has, Assoc.contains, Assoc.contains]
  exact (congrArg Option.isSome (a.get?_down name)).trans Option.isSome_map

theorem source_down : (a.down k).source name = a.source name := by
  rw [source, source, get?_down, Option.map_map]
  rfl

theorem place_down : (a.down k).place name = (a.place name).down k := by
  rw [place, place, get?_down]
  cases a.get? name <;> rfl

/-- A defect at the place of an attribute. -/
theorem fail_down {α β : Type} {h : α → β} (defect : AttributeDefect) :
    Moves k h (fail defect (a.place name)) (fail defect ((a.down k).place name)) := by
  rw [place_down]
  exact .error rfl rfl

theorem template_down : Moves k id (a.template name required)
    ((a.down k).template name required) := by
  rw [template, template, get?_down]
  cases a.get? name with
  | some found => exact .ok rfl
  | none =>
    dsimp only [Option.map_none]
    split
    · exact .error rfl rfl
    · exact .ok rfl

theorem plain_down : Moves k id (a.plain name required) ((a.down k).plain name required) := by
  refine Moves.bind (a.template_down name required) fun found => ?_
  cases found with
  | none => exact .ok rfl
  | some t =>
    simp only [id, source_down]
    split
    · exact .ok rfl
    · exact a.fail_down name _

theorem varName_down :
    Moves k id (a.varName name required) ((a.down k).varName name required) := by
  refine Moves.bind (a.template_down name required) fun found => ?_
  cases found with
  | none => exact .ok rfl
  | some t =>
    simp only [id, source_down]
    split
    · exact .ok rfl
    · exact a.fail_down name _

theorem checkBounds_down (n : Number) (least most : Option Number) :
    Moves k id (a.checkBounds name n least most) ((a.down k).checkBounds name n least most) := by
  have above : Moves k id (a.checkBounds name n none most)
      ((a.down k).checkBounds name n none most) := by
    unfold checkBounds
    cases most with
    | none => exact .ok rfl
    | some bound =>
      dsimp only
      split
      · exact a.fail_down name _
      · exact .ok rfl
  cases least with
  | none => exact above
  | some bound =>
    unfold checkBounds
    dsimp only
    split
    · exact a.fail_down name _
    · exact above

theorem integer_down (least most : Option Number) :
    Moves k id (a.integer name required least most)
      ((a.down k).integer name required least most) := by
  refine Moves.bind (a.plain_down name required) fun found => ?_
  cases found with
  | none => exact .ok rfl
  | some text =>
    dsimp only [id]
    split
    · exact a.fail_down name _
    · exact Moves.bind (a.checkBounds_down name _ least most) fun _ => .ok rfl

theorem number_down (least most : Option Number) :
    Moves k id (a.number name required least most)
      ((a.down k).number name required least most) := by
  refine Moves.bind (a.plain_down name required) fun found => ?_
  cases found with
  | none => exact .ok rfl
  | some text =>
    dsimp only [id]
    split
    · exact a.fail_down name _
    · split
      · exact Moves.bind (a.checkBounds_down name _ least most) fun _ => .ok rfl
      · exact a.fail_down name _

theorem boolean_down :
    Moves k id (a.boolean name required) ((a.down k).boolean name required) := by
  refine Moves.bind (a.plain_down name required) fun found => ?_
  cases found with
  | none => exact .ok rfl
  | some text =>
    dsimp only [id]
    split
    · exact .ok rfl
    · split
      · exact .ok rfl
      · exact a.fail_down name _

end Attributes

variable (a : Attributes)

theorem Action.ofAttributes_down :
    Moves k id (Action.ofAttributes a) (Action.ofAttributes (a.down k)) := by
  refine Moves.bind (a.plain_down "type" true) fun name => ?_
  dsimp only [id]
  split
  · exact a.fail_down "type" _
  · refine Moves.bind (a.template_down "value" true) fun value => .ok ?_
    have kept : (fun entry : String × Attribute => entry.1 != "type" && entry.1 != "value") ∘
        (fun entry : String × Attribute => (entry.1, entry.2.down k)) =
          fun entry => entry.1 != "type" && entry.1 != "value" := rfl
    simp only [id, Attributes.down, Attributes.downEntries, List.filter_map, kept, List.map_map]
    rfl

theorem weightOf_down : Moves k id (weightOf a) (weightOf (a.down k)) :=
  Moves.bind (a.number_down "weight" false _ none) fun _ => .ok rfl

namespace Input

theorem boundsOf_down : Moves k id (boundsOf a) (boundsOf (a.down k)) :=
  Moves.bind (a.integer_down "min" false none none) fun _ =>
    Moves.bind (a.integer_down "max" false none none) fun _ => .ok rfl

theorem targetOf_down (name : String) : Moves k id (targetOf a name) (targetOf (a.down k) name) :=
  Moves.bind (a.varName_down name true) fun _ => .ok rfl

theorem choicesOf_down (number fuel : Nat) :
    Moves k id (choicesOf a number fuel) (choicesOf (a.down k) number fuel) := by
  induction fuel generalizing number with
  | zero => exact .ok rfl
  | succ fuel ih =>
    simp only [choicesOf, a.has_down]
    split
    · exact .ok rfl
    · split
      · exact .error rfl rfl
      · split
        · exact .error rfl rfl
        · exact Moves.bind (targetOf_down a _) fun _ =>
            Moves.bind (a.template_down _ false) fun _ =>
              Moves.bind (ih (number + 1)) fun _ => .ok rfl

theorem timeOf_down (name : String) : Moves k id (timeOf a name) (timeOf (a.down k) name) := by
  refine Moves.bind (a.template_down name false) fun found => ?_
  cases found with
  | none => exact .ok rfl
  | some t =>
    dsimp only [id]
    split
    · split
      · exact .ok rfl
      · exact a.fail_down name _
    · exact .ok rfl

theorem rules_down :
    Moves k id (TextRules.read fun name => a.boolean name false)
      (TextRules.read fun name => (a.down k).boolean name false) := by
  have given (name : String) := a.boolean_down (k := k) name false
  exact (given _).bind fun _ => (given _).bind fun _ => (given _).bind fun _ =>
    (given _).bind fun _ => (given _).bind fun _ => (given _).bind fun _ => (given _).bind fun _ =>
      (given _).bind fun _ => (given _).bind fun _ => .ok rfl

theorem fieldOf_down (type : String) : Moves k id (fieldOf a type) (fieldOf (a.down k) type) := by
  have target := targetOf_down a (k := k) "value"
  have bounds := boundsOf_down a (k := k)
  have rules := rules_down a (k := k)
  have entries : (a.down k).entries.length = a.entries.length := List.length_map _
  unfold fieldOf
  split
  · exact target.bind fun _ => .ok rfl
  · exact target.bind fun _ => bounds.bind fun _ => rules.bind fun _ => .ok rfl
  · exact target.bind fun _ => bounds.bind fun _ => rules.bind fun _ => .ok rfl
  · exact target.bind fun _ => bounds.bind fun _ => .ok rfl
  · rw [entries]
    exact (choicesOf_down a 1 _).bind fun _ => .ok rfl
  · exact (a.integer_down _ false _ none).bind fun _ => (timeOf_down a _).bind fun _ =>
      (timeOf_down a _).bind fun _ => (timeOf_down a _).bind fun _ => target.bind fun _ => .ok rfl

theorem ofAttributes_down : Moves k id (ofAttributes a) (ofAttributes (a.down k)) := by
  refine Moves.bind (a.plain_down "type" true) fun type => ?_
  dsimp only [id]
  split
  · exact a.fail_down "type" _
  · exact Moves.bind (a.plain_down "description" false) fun _ =>
      Moves.bind (fieldOf_down a _) fun _ => .ok rfl

end Input

end Parley
