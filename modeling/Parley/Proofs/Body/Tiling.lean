import Parley.Proofs.Body.Expressions
import Parley.Proofs.Body.Located

/-!
The tokens of a line tile it up to its comment. Two slashes start a comment where they are neither
escaped nor between quotes, and there are quotes in commands only, so where the comment of a line
starts depends on the markers that are open in front of it.
-/
namespace Parley.Tokenizer

open Terminal

/-- What a character of a line stands in. -/
inductive Ground where
  | script
  | command
  | quotes

/-- What the first character of a line stands in; no line starts between quotes. -/
def ground (state : Tokenizer) : Ground := if state.inCommand then .command else .script

/-- The part of a text before its comment, or all of it if it has none. A backslash escapes what
follows it wherever it stands; quotes are opened in commands only. -/
def beforeComment : Ground → List Char → List Char
  | _, [] => []
  | ground, '\\' :: c :: rest => '\\' :: c :: beforeComment ground rest
  | .quotes, '"' :: rest => '"' :: beforeComment .command rest
  | .quotes, c :: rest => c :: beforeComment .quotes rest
  | _, '/' :: '/' :: _ => []
  | .script, '<' :: '<' :: rest => '<' :: '<' :: beforeComment .command rest
  | .command, '>' :: '>' :: rest => '>' :: '>' :: beforeComment .script rest
  | .command, '"' :: rest => '"' :: beforeComment .quotes rest
  | ground, c :: rest => c :: beforeComment ground rest

/-- Whether a text ends in a backslash that is not escaped itself. -/
def endsOpen : List Char → Bool
  | [] => false
  | ['\\'] => true
  | '\\' :: _ :: rest => endsOpen rest
  | _ :: rest => endsOpen rest

/-- A text without the backslashes that are not escaped themselves. -/
def unescaped : List Char → List Char
  | [] => []
  | ['\\'] => []
  | '\\' :: c :: rest => c :: unescaped rest
  | c :: rest => c :: unescaped rest

variable {g : Ground} {c : Char} {cs ds rest : List Char}

theorem beforeComment_cons (slash : c ≠ '\\') (quote : c = '"' → g = .script)
    (single : g = .quotes ∨ ∀ d ∈ ['/', '<', '>'], ¬(c == d && rest.head? == some d)) :
    beforeComment g (c :: rest) = c :: beforeComment g rest := by
  conv_lhs => unfold beforeComment
  split <;> simp_all

theorem endsOpen_cons (slash : c ≠ '\\') : endsOpen (c :: cs) = endsOpen cs := by
  rw [endsOpen] <;> simp [slash]

theorem unescaped_cons (slash : c ≠ '\\') : unescaped (c :: cs) = c :: unescaped cs := by
  rw [unescaped] <;> simp [slash]

theorem endsOpen_append (shut : endsOpen cs = false) : endsOpen (cs ++ ds) = endsOpen ds := by
  fun_induction endsOpen cs with
  | case1 => rfl
  | case2 => cases shut
  | case3 d rest ih => exact ih shut
  | case4 d rest last slash ih =>
    rw [List.cons_append, endsOpen_cons (ne_backslash last slash), ih shut]

theorem unescaped_append (shut : endsOpen cs = false) :
    unescaped (cs ++ ds) = unescaped cs ++ unescaped ds := by
  fun_induction endsOpen cs with
  | case1 => rfl
  | case2 => cases shut
  | case3 d rest ih => exact congrArg (d :: ·) (ih shut)
  | case4 d rest last slash ih =>
    have other := ne_backslash last slash
    rw [List.cons_append, unescaped_cons other, unescaped_cons other, ih shut, List.cons_append]

theorem unescaped_ne_nil (shut : endsOpen cs = false) (some : cs ≠ []) : unescaped cs ≠ [] := by
  fun_cases endsOpen cs with
  | case1 => exact absurd rfl some
  | case2 => cases shut
  | case3 d rest => exact List.cons_ne_nil _ _
  | case4 d rest last slash =>
    rw [unescaped_cons (ne_backslash last slash)]
    exact List.cons_ne_nil _ _

theorem endsOpen_eq_false (free : '\\' ∉ cs) : endsOpen cs = false := by
  induction cs with
  | nil => rfl
  | cons c rest ih =>
    obtain ⟨other, free⟩ := List.ne_and_not_mem_of_not_mem_cons free
    rw [endsOpen_cons other.symm, ih free]

theorem unescaped_eq_self (free : '\\' ∉ cs) : unescaped cs = cs := by
  induction cs with
  | nil => rfl
  | cons c rest ih =>
    obtain ⟨other, free⟩ := List.ne_and_not_mem_of_not_mem_cons free
    rw [unescaped_cons other.symm, ih free]

/-! Steps -/

/-- The characters that escape, quote, start comments or enclose commands. -/
def signs : List Char := ['\\', '"', '/', '<', '>']

/-- A text without signs is passed over. -/
theorem beforeComment_append (others : ∀ c ∈ cs, c ∉ signs) :
    beforeComment g (cs ++ rest) = cs ++ beforeComment g rest := by
  induction cs with
  | nil => rfl
  | cons c more ih =>
    obtain ⟨other, others⟩ := List.forall_mem_cons.mp others
    rw [List.cons_append, beforeComment_cons, ih others, List.cons_append]
    · exact List.ne_of_not_mem_cons other
    · rintro rfl
      exact absurd (by decide) other
    · right
      intro d member both
      obtain ⟨rfl, -⟩ := exists_double both
      exact other (List.mem_cons_of_mem _ (List.mem_cons_of_mem _ member))

theorem not_mem_signs (name : isNameChar c) : c ∉ signs := by
  intro sign
  have outside : ∀ d ∈ signs, isNameChar d = false := by decide
  rw [outside c sign] at name
  cases name

theorem not_mem_signs_of_var {name : List Char} (all : ∀ c ∈ name, isNameChar c) :
    ∀ c ∈ '$' :: name, c ∉ signs :=
  List.forall_mem_cons.mpr ⟨by decide, fun c member => not_mem_signs (all c member)⟩

/-- What is read between quotes ends with a quote, and no comment starts in it. -/
theorem beforeComment_quoted {parts : List Part} {n : Nat}
    (read : quotedParts? cs = some (parts, n)) :
    endsOpen (cs.take n) = false ∧
      beforeComment .quotes cs = cs.take n ++ beforeComment .command (cs.drop n) := by
  fun_induction quotedParts? cs generalizing parts n with
  | case1 => cases read
  | case2 rest =>
    cases read
    exact ⟨rfl, by rw [beforeComment]; rfl⟩
  | case3 => cases read
  | case4 c rest ih =>
    obtain ⟨⟨more, k⟩, found, same⟩ := Option.map_eq_some_iff.mp read
    cases same
    obtain ⟨shut, passed⟩ := ih found
    exact ⟨shut, by rw [beforeComment, passed]; rfl⟩
  | case5 rest name none =>
    rename_i ih
    obtain ⟨⟨more, k⟩, found, same⟩ := Option.map_eq_some_iff.mp read
    cases same
    obtain ⟨shut, passed⟩ := ih found
    refine ⟨shut, ?_⟩
    rw [beforeComment_cons (c := '$') (by decide) (by simp) (.inl rfl), passed]
    rfl
  | case6 rest written some =>
    rename_i ih
    subst written
    obtain ⟨name, behind, rfl, same, _, _⟩ := exists_nameAt (mt List.isEmpty_iff.mpr some)
    rw [same, List.drop_left] at ih read
    obtain ⟨⟨more, k⟩, found, same'⟩ := Option.map_eq_some_iff.mp read
    cases same'
    obtain ⟨shut, passed⟩ := ih found
    have others := not_mem_signs_of_var (same ▸ mem_nameAt)
    have length : k + name.length + 1 = ('$' :: name).length + k := by
      rw [List.length_cons]
      omega
    rw [← List.cons_append, beforeComment_append others, passed, length,
      List.take_length_add_append, List.drop_length_add_append, List.append_assoc]
    refine ⟨?_, rfl⟩
    rw [endsOpen_append (endsOpen_eq_false fun member => others _ member (by decide)), shut]
  | case7 c rest quote last slash dollar ih =>
    obtain ⟨⟨more, k⟩, found, same⟩ := Option.map_eq_some_iff.mp read
    cases same
    obtain ⟨shut, passed⟩ := ih found
    have other := ne_backslash last slash
    refine ⟨by rwa [List.take_succ_cons, endsOpen_cons other], ?_⟩
    rw [beforeComment_cons other (fun same => (quote same).elim) (.inl rfl), passed]
    rfl

variable {state final : Tokenizer} {content : Option Content} {source value : List Char}

/-- What a piece is of a line: it takes its characters from the part before the comment and leaves
what follows them as it was, and text is its characters without the backslashes that escape. -/
structure Tile (state : Tokenizer) (content : Option Content) (source value behind : List Char)
    (final : Tokenizer) : Prop where
  covers : beforeComment state.ground (source ++ behind) =
    source ++ beforeComment final.ground behind
  shut : endsOpen source = false
  spells : content = none → unescaped source = value

theorem tile_of_others (others : ∀ c ∈ source, c ∉ signs) (same : final.ground = state.ground)
    (plain : content = none → value = source) : Tile state content source value rest final := by
  have free : '\\' ∉ source := fun member => others '\\' member (by decide)
  refine ⟨?_, endsOpen_eq_false free, fun none => ?_⟩
  · rw [beforeComment_append others, same]
  · rw [unescaped_eq_self free, plain none]

/-- Every piece but a backslash that nothing follows is a tile. -/
theorem tile_of_step {further : Nat}
    (stepped : step state c rest = .piece content value further final)
    (goesOn : c = '\\' → rest ≠ []) :
    Tile state content (c :: rest.take further) value (rest.drop further) final := by
  have twice {d : Char} (other : d ∉ signs) : ∀ c ∈ [d, d], c ∉ signs := by simpa using other
  revert stepped
  fun_cases step state c rest <;> rintro ⟨⟩
  case case1 dollar name unnamed =>
    subst dollar
    exact tile_of_others (List.forall_mem_singleton.mpr (by decide)) rfl fun _ => rfl
  case case2 dollar name some =>
    subst dollar
    obtain ⟨_, behind, rfl, same, -⟩ := exists_nameAt (mt List.isEmpty_iff.mpr some)
    have named : name = nameAt _ := rfl
    rw [named, same, List.take_left]
    exact tile_of_others (not_mem_signs_of_var (same ▸ mem_nameAt)) rfl (by simp)
  case case3 backslash =>
    obtain ⟨d, more, rfl⟩ := List.exists_cons_of_ne_nil (goesOn backslash)
    subst backslash
    exact ⟨by simp [beforeComment], rfl, fun _ => rfl⟩
  case case6 starts outside =>
    obtain ⟨rfl, more, rfl⟩ := exists_double starts
    refine ⟨?_, rfl, by simp⟩
    simp [ground, outside, beforeComment]
  case case7 ends inside =>
    obtain ⟨rfl, more, rfl⟩ := exists_double ends
    refine ⟨?_, rfl, by simp⟩
    simp [ground, inside, beforeComment]
  case case10 starts _ =>
    obtain ⟨rfl, more, rfl⟩ := exists_double (Bool.and_eq_true_iff.mp starts).1
    exact tile_of_others (twice (by decide)) rfl (by simp)
  case case11 ends _ =>
    obtain ⟨rfl, more, rfl⟩ := exists_double (Bool.and_eq_true_iff.mp ends).1
    exact tile_of_others (twice (by decide)) rfl (by simp)
  case case13 quote parts read =>
    simp only [Bool.and_eq_true, decide_eq_true_eq] at quote
    obtain ⟨rfl, inside⟩ := quote
    obtain ⟨shut, passed⟩ := beforeComment_quoted read
    refine ⟨?_, by rwa [endsOpen_cons (by decide)], by simp⟩
    have here : state.ground = .command := if_pos inside
    rw [List.cons_append, List.take_append_drop, here, beforeComment, passed, List.cons_append]
  case case15 bar =>
    simp only [Bool.and_eq_true, decide_eq_true_eq] at bar
    obtain ⟨⟨rfl, -⟩, -⟩ := bar
    exact tile_of_others (List.forall_mem_singleton.mpr (by decide)) rfl (by simp)
  case case16 =>
    rename_i slash comment starts ends _ _ quote _
    have single : ∀ d ∈ ['/', '<', '>'], ¬(c == d && rest.head? == some d) :=
      List.forall_mem_cons.mpr
        ⟨comment, List.forall_mem_cons.mpr ⟨starts, List.forall_mem_singleton.mpr ends⟩⟩
    refine ⟨beforeComment_cons slash ?_ (.inr single), endsOpen_cons slash,
      fun _ => unescaped_cons slash⟩
    rintro rfl
    exact if_neg (by simpa using quote)

/-! Lines -/

theorem beforeComment_of_slashes (slashes : ['/', '/'] <+: cs) :
    beforeComment state.ground cs = [] := by
  obtain ⟨rest, rfl⟩ := slashes
  unfold ground
  split <;> rfl

/-- What a piece is of a line, whatever stands around it. -/
def Piece.Spelled : Piece → Prop
  | plain source value => endsOpen source = false ∧ unescaped source = value
  | mark content source => endsOpen source = false ∧ ∀ value, content ≠ .text value

/-- The pieces that a line yields tile it up to its comment. -/
theorem tiles_of_yields {ps : List Piece} (read : Yields state cs ps final)
    (shut : endsOpen cs = false) :
    sourceOf ps = beforeComment state.ground cs ∧ ∀ p ∈ ps, p.Spelled := by
  induction read with
  | nothing => exact ⟨by rw [beforeComment]; rfl, by simp⟩
  | comment stepped =>
    exact ⟨(beforeComment_of_slashes (slashes_of_step stepped)).symm, by simp⟩
  | @piece state after final c rest value content further others stepped _ ih =>
    have whole : (c :: rest.take further) ++ rest.drop further = c :: rest := by
      rw [List.cons_append, List.take_append_drop]
    have tile := tile_of_step stepped (by rintro rfl rfl; cases shut)
    rw [← whole, endsOpen_append tile.shut] at shut
    obtain ⟨covered, spelled⟩ := ih shut
    refine ⟨?_, List.forall_mem_cons.mpr ⟨?_, spelled⟩⟩
    · rw [← whole, tile.covers, ← covered, sourceOf, List.flatMap_cons, Piece.source_make]
      rfl
    · cases content with
      | none => exact ⟨tile.shut, tile.spells rfl⟩
      | some content =>
        refine ⟨tile.shut, ?_⟩
        rintro value rfl
        cases finds_of_step stepped

theorem spelled_join {ps : List Piece} (spelled : ∀ p ∈ ps, p.Spelled) :
    ∀ p ∈ join ps, p.Spelled := by
  refine forall_join ?_ spelled
  rintro source value more others ⟨shut, own⟩ ⟨shut', next⟩
  exact ⟨by rw [endsOpen_append shut, shut'], by rw [unescaped_append shut, own, next]⟩

/-- A token of text stands for a stretch of text. -/
theorem spelled_of_assemble {ps : List Piece} (spelled : ∀ p ∈ ps, p.Spelled) (p : Position) :
    ∀ t ∈ assemble p ps, ∀ value, t.content = .text value →
      unescaped t.source.toList = value.toList := by
  intro t member value text
  obtain ⟨q, inside, content, source, -⟩ := exists_of_assemble member
  have own := spelled q inside
  rw [content] at text
  rw [source]
  cases q with
  | mark content source => exact absurd text (own.2 value)
  | plain source value =>
    cases text
    rw [String.toList_ofList, Piece.source, own.2]

theorem filled_of_spelled {ps : List Piece} (spelled : ∀ p ∈ ps, p.Spelled)
    (some : ∀ p ∈ ps, p.source ≠ []) : Filled ps := by
  intro p member plain
  cases p with
  | mark content source => cases plain
  | plain source value =>
    obtain ⟨shut, rfl⟩ := spelled _ member
    exact unescaped_ne_nil shut (some _ member)

/-- A token stands behind the characters of the tokens in front of it. -/
theorem position_of_places {tokens before after : List Token} {t : Token} {p : Position}
    (side_by_side : Token.places tokens = placed p (Token.sources tokens))
    (some : t.source.toList ≠ []) (split : tokens = before ++ t :: after) :
    t.position = ⟨p.line, p.column + (Token.sources before).length⟩ := by
  obtain ⟨c, more, source⟩ := List.exists_cons_of_ne_nil some
  have length : (Token.places before).length = (Token.sources before).length := by
    rw [← Token.map_fst_places, List.length_map]
  have behind : Token.places (t :: after) =
      (c, t.position) ::
        (placed ⟨t.position.line, t.position.column + 1⟩ more ++ Token.places after) := by
    rw [Token.places, List.flatMap_cons, Token.placed, source]
    rfl
  -- the first character of the token, found among the tokens and found in the line
  have found := congrArg (·[(Token.sources before).length]?) side_by_side
  rw [split, Token.places_append, behind] at found
  simp only [getElem?_placed] at found
  rw [List.getElem?_append_right (Nat.le_of_eq length), length, Nat.sub_self,
    List.getElem?_cons_zero] at found
  obtain ⟨_, _, same⟩ := Option.map_eq_some_iff.mp found.symm
  exact (Prod.mk.inj same).2.symm

/-- The tokens of a line spell it up to its comment, each of them stands where the ones in front of
it end, and text is what its token spells without the backslashes that escape. -/
theorem tokens_tile_line {number : Nat} {line : List Char} {tokens : List Token}
    (read : readLine state number line = (.ok tokens, final)) (shut : endsOpen line = false) :
    Token.sources tokens = beforeComment state.ground line ∧
      (∀ before t after, tokens = before ++ t :: after →
        t.position = ⟨number, 1 + (Token.sources before).length⟩) ∧
      ∀ t ∈ tokens, ∀ value, t.content = .text value →
        unescaped t.source.toList = value.toList := by
  have filled := some_of_readLine read
  have side_by_side := (readLine_spells read).1
  obtain ⟨ps, whole, rfl⟩ := yields_of_readLine read
  obtain ⟨covered, spelled⟩ := tiles_of_yields whole shut
  refine ⟨?_, ?_, spelled_of_assemble (spelled_join spelled) _⟩
  · have full := value_of_mem_join (filled_of_spelled spelled (some_of_yields whole))
    obtain ⟨_, left, spells, ends⟩ :=
      places_assemble (tapered_join (yields_spell whole).1) ⟨number, 1⟩
    obtain rfl := ends.resolve_right fun short => short.2 full
    rw [← covered, ← sourceOf_join, spells, List.append_nil]
  · intro before t after split
    exact position_of_places side_by_side (filled t (by simp [split])) split

/-- Slashes that are escaped or quoted start no comment, and the escape counts in the columns. -/
theorem tiles_of_escaped_and_quoted_slashes :
    let line := "A\\// <<$b \"//\">>// no".toList
    let text : Token := ⟨.text "A// ", "A\\// ", ⟨3, 1⟩⟩
    let slashes : Token := ⟨.quoted (.ofParts [.literal "//"]), "\"//\"", ⟨3, 11⟩⟩
    let front := [text, ⟨.commandStart, "<<", ⟨3, 6⟩⟩, ⟨.var "b", "$b", ⟨3, 8⟩⟩,
      ⟨.text " ", " ", ⟨3, 10⟩⟩]
    let tokens := front ++ slashes :: [⟨.commandEnd, ">>", ⟨3, 15⟩⟩]
    (readLine .initial 3 line).1 = .ok tokens ∧ endsOpen line = false ∧
      Token.sources tokens = "A\\// <<$b \"//\">>".toList ∧
      slashes.position = ⟨3, 1 + (Token.sources front).length⟩ ∧
      unescaped text.source.toList = "A// ".toList := by
  intro line text slashes front tokens
  have read : (readLine .initial 3 line).1 = .ok tokens := by decide +kernel
  obtain ⟨covered, stands, spelled⟩ := tokens_tile_line (Prod.ext read rfl) (by decide)
  exact ⟨read, by decide, covered.trans (by decide), stands front slashes _ rfl,
    spelled text List.mem_cons_self _ rfl⟩

end Parley.Tokenizer
