import Parley.Proofs.Body.Pointers

/-!
References to other dialogues. A reference goes through folders, up and down, from the folder of the
dialogue that it stands in. It is refused if it climbs above the root, and leads to a name that a
dialogue can have if it does not; only a reference that is taken from the root as it stands keeps
the points that it goes through.
-/
namespace Parley

theorem not_mem_of_isNodeName {cs : List Char} {c : Char} (named : isNodeName cs)
    (other : isNodeNameChar c = false) : c ∉ cs := by
  intro member
  have letter := (Pointer.letters_of_isNodeName named).2 c member
  rw [other] at letter
  cases letter

/-- Node names joined by slashes are the name of a dialogue. -/
theorem isDialogueName_joinPath {parts : List (List Char)} (some : parts ≠ [])
    (named : ∀ part ∈ parts, isNodeName part) : isDialogueName (joinPath parts) := by
  have inner : ∀ part ∈ parts, '/' ∉ part := by
    intro part member
    exact not_mem_of_isNodeName (named part member) (by decide)
  rw [isDialogueName, joinPath, String.toList_ofList, splitChars_intercalate some inner]
  exact List.all_eq_true.mpr named

namespace Pointer

/-! Paths -/

/-- Whether a path that starts some folders below the root has climbed above it somewhere, as it has
gone up more often than there were folders to leave. -/
def ClimbsAboveRoot (depth : Nat) (folders : List (List Char)) : Prop :=
  ∃ before, before <+: folders ∧ depth + before.countP isNodeName < before.count ['.', '.']

theorem not_climbs_nil (depth : Nat) : ¬ ClimbsAboveRoot depth [] := by
  rintro ⟨before, front, above⟩
  rw [List.prefix_nil.mp front] at above
  simp at above

/-- A path can climb above the root at once or later on. -/
theorem climbs_cons_iff {depth : Nat} {folder : List Char} {rest : List (List Char)} :
    ClimbsAboveRoot depth (folder :: rest) ↔ ∃ before, before <+: rest ∧
      depth + (folder :: before).countP isNodeName < (folder :: before).count ['.', '.'] := by
  constructor
  · rintro ⟨before, front, above⟩
    rcases List.prefix_cons_iff.mp front with rfl | ⟨more, rfl, later⟩
    · simp at above
    · exact ⟨more, later, above⟩
  · rintro ⟨before, front, above⟩
    exact ⟨folder :: before, List.cons_prefix_cons.mpr ⟨rfl, front⟩, above⟩

theorem climbs_up_iff {depth : Nat} {rest : List (List Char)} :
    ClimbsAboveRoot depth (['.', '.'] :: rest) ↔ depth = 0 ∨ ClimbsAboveRoot (depth - 1) rest := by
  have point : isNodeName ['.', '.'] = false := by decide
  simp only [climbs_cons_iff, List.countP_cons, List.count_cons_self, point]
  constructor
  · rintro ⟨before, front, above⟩
    by_cases bottom : depth = 0
    · exact .inl bottom
    · refine .inr ⟨before, front, ?_⟩
      simp at above
      omega
  · rintro (rfl | ⟨before, front, above⟩)
    · exact ⟨[], List.nil_prefix, by simp⟩
    · refine ⟨before, front, ?_⟩
      simp
      omega

theorem climbs_stay_iff {depth : Nat} {rest : List (List Char)} :
    ClimbsAboveRoot depth (['.'] :: rest) ↔ ClimbsAboveRoot depth rest := by
  have point : isNodeName ['.'] = false := by decide
  rw [climbs_cons_iff, ClimbsAboveRoot]
  simp [point]

theorem climbs_down_iff {depth : Nat} {folder : List Char} {rest : List (List Char)}
    (named : isNodeName folder) :
    ClimbsAboveRoot depth (folder :: rest) ↔ ClimbsAboveRoot (depth + 1) rest := by
  have other : folder ≠ ['.', '.'] := by
    rintro rfl
    exact absurd named (by decide)
  have deeper (before : List (List Char)) :
      depth + (folder :: before).countP isNodeName < (folder :: before).count ['.', '.'] ↔
        depth + 1 + before.countP isNodeName < before.count ['.', '.'] := by
    rw [List.countP_cons_of_pos named, List.count_cons_of_ne other]
    omega
  simp only [climbs_cons_iff, deeper]
  rfl

/-- A path that goes down only stays below the root. -/
theorem not_climbs_of_named {depth : Nat} {folders : List (List Char)}
    (named : ∀ folder ∈ folders, isNodeName folder) : ¬ ClimbsAboveRoot depth folders := by
  induction folders generalizing depth with
  | nil => exact not_climbs_nil depth
  | cons folder rest ih =>
    rw [climbs_down_iff (named folder List.mem_cons_self)]
    exact ih fun other member => named other (List.mem_cons_of_mem folder member)

theorem isFolder_cases {folder : List Char} (isFolder : isFolder folder) :
    folder = ['.', '.'] ∨ folder = ['.'] ∨ isNodeName folder := by
  simpa [Pointer.isFolder, or_assoc] using isFolder

/-- To follow folders fails where they climb above the root, and otherwise leads to folders that are
named. -/
theorem climb_of_folders {path folders : List (List Char)}
    (below : ∀ folder ∈ path, isNodeName folder) (all : ∀ folder ∈ folders, isFolder folder) :
    (ClimbsAboveRoot path.length folders ∧ climb path folders = .error .aboveRoot) ∨
      ¬ ClimbsAboveRoot path.length folders ∧
        ∃ reached, climb path folders = .ok reached ∧ ∀ folder ∈ reached, isNodeName folder := by
  induction folders generalizing path with
  | nil => exact .inr ⟨not_climbs_nil _, path, rfl, below⟩
  | cons folder rest ih =>
    have later : ∀ other ∈ rest, isFolder other :=
      fun other member => all other (List.mem_cons_of_mem folder member)
    rcases isFolder_cases (all folder List.mem_cons_self) with rfl | rfl | named
    · rw [climbs_up_iff, climb, if_pos rfl]
      by_cases bottom : path = []
      · subst bottom
        exact .inl ⟨.inl rfl, rfl⟩
      · have up : ∀ other ∈ path.dropLast, isNodeName other :=
          fun other member => below other (List.dropLast_subset path member)
        have deep : path.length ≠ 0 := by simpa using bottom
        have found := ih up later
        rw [List.length_dropLast] at found
        simpa [bottom, deep] using found
    · rw [climbs_stay_iff, climb, if_neg (by decide), if_pos (.inr rfl)]
      exact ih below later
    · have other : folder ≠ ['.', '.'] ∧ ¬ (folder = [] ∨ folder = ['.']) := by
        refine ⟨?_, not_or.mpr ⟨?_, ?_⟩⟩ <;>
          · rintro rfl
            exact absurd named (by decide)
      have down : ∀ other ∈ path ++ [folder], isNodeName other := by
        intro other member
        rcases List.mem_append.mp member with here | last
        · exact below other here
        · rw [List.mem_singleton.mp last]
          exact named
      have found := ih down later
      rw [List.length_append, List.length_singleton] at found
      rw [climbs_down_iff named, climb, if_neg other.1, if_neg other.2]
      exact found

/-! References -/

/-- A reference without the slash in front, which does not count. -/
def unslashed : List Char → List Char
  | '/' :: rest => rest
  | other => other

/-- The folders that a reference goes through. -/
def foldersOf (reference : List Char) : List (List Char) :=
  (splitChars '/' (unslashed reference)).dropLast

/-- Whether a reference is taken from the root and not from where it stands. -/
def FromRoot (reference : List Char) : Prop := ['.', '/'] <+: reference

instance (reference : List Char) : Decidable (FromRoot reference) :=
  inferInstanceAs (Decidable (['.', '/'] <+: reference))

/-- How many folders below the root a reference starts. -/
def startDepth (origin : String) (reference : List Char) : Nat :=
  if FromRoot reference then 0 else (splitChars '/' origin.toList).dropLast.length

/-- Whether a reference goes through some folders to a name. -/
structure GoesThrough (reference : List Char) (folders : List (List Char)) (name : List Char) :
    Prop where
  parts : splitChars '/' (unslashed reference) = folders ++ [name]
  isFolder : ∀ folder ∈ folders, isFolder folder
  named : isNodeName name

theorem intercalate_concat_append (separator : Char) (parts : List (List Char))
    (last behind : List Char) :
    [separator].intercalate (parts ++ [last ++ behind]) =
      [separator].intercalate (parts ++ [last]) ++ behind := by
  induction parts with
  | nil => simp
  | cons part rest ih =>
    cases rest with
    | nil => simp [List.intercalate_cons_cons]
    | cons second more =>
      simp only [List.cons_append, List.intercalate_cons_cons] at ih ⊢
      rw [ih]
      simp

theorem not_slash_of_isFolder {folder : List Char} (isFolder : isFolder folder) :
    folder ≠ [] ∧ '/' ∉ folder := by
  obtain ⟨some, letters⟩ := mem_folder isFolder
  refine ⟨some, fun member => ?_⟩
  rcases letters '/' member with letter | point
  · exact absurd letter (by decide)
  · exact absurd point (by decide)

theorem isFolder_of_isNodeName {name : List Char} (named : isNodeName name) : isFolder name := by
  simp [isFolder, named]

theorem slashless_of_path {folders : List (List Char)} {name : List Char}
    (isFolder : ∀ folder ∈ folders, isFolder folder) (named : isNodeName name) :
    ∀ part ∈ folders ++ [name], part ≠ [] ∧ '/' ∉ part := by
  intro part member
  rcases List.mem_append.mp member with folder | last
  · exact not_slash_of_isFolder (isFolder part folder)
  · rw [List.mem_singleton.mp last]
    exact not_slash_of_isFolder (isFolder_of_isNodeName named)

/-- A text that names folders and a name with slashes between them, and a slash in front or none, is
a reference that goes through them. -/
theorem goesThrough_of_path {folders : List (List Char)} {name reference : List Char}
    (isFolder : ∀ folder ∈ folders, isFolder folder) (named : isNodeName name)
    (shape : reference = ['/'].intercalate (folders ++ [name]) ∨
      reference = '/' :: ['/'].intercalate (folders ++ [name])) :
    GoesThrough reference folders name := by
  have all := slashless_of_path isFolder named
  have cut : splitChars '/' (['/'].intercalate (folders ++ [name])) = folders ++ [name] :=
    splitChars_intercalate (by simp) fun part member => (all part member).2
  obtain ⟨_, start⟩ := chain_intercalate (fun part member => (all part member).1)
    fun part member => (all part member).2
  have path : unslashed reference = ['/'].intercalate (folders ++ [name]) := by
    rcases shape with rfl | rfl
    · unfold unslashed
      split
      · rename_i rest same
        exact absurd rfl (start '/' (by rw [same]; rfl))
      · rfl
    · rfl
  exact ⟨by rw [path, cut], isFolder, named⟩

theorem goesThrough_of_external {written reference node : List Char}
    (found : external? written = some (reference, node)) :
    ∃ folders name, GoesThrough reference folders name := by
  obtain ⟨_, same⟩ := pointerText_of_external found
  obtain ⟨target, name, shape, cut, folders, named, _, _⟩ := parts_of_external found
  let parts := splitChars '/' target
  have ends := intercalate_splitChars '.' (parts.getLastD [])
  rw [cut, List.intercalate_cons_cons, List.intercalate_singleton, List.append_assoc,
    List.singleton_append] at ends
  -- the point and the node stand behind the last name of the path
  have whole : target = ['/'].intercalate (parts.dropLast ++ [name]) ++ '.' :: node := by
    have some : parts ≠ [] := splitChars_ne_nil '/' target
    rw [← intercalate_concat_append, ends, List.getLastD_eq_getLast?,
      List.getLast?_eq_some_getLast some, Option.getD_some, List.dropLast_append_getLast some]
    exact (intercalate_splitChars '/' target).symm
  refine ⟨parts.dropLast, name, goesThrough_of_path (List.all_eq_true.mp folders) named ?_⟩
  rcases shape with here | here
  · exact .inl (List.append_cancel_right (same.symm.trans (here.trans whole)))
  · rw [whole, ← List.cons_append] at here
    exact .inr (List.append_cancel_right (same.symm.trans here))

variable {reference name : List Char} {folders : List (List Char)}

theorem GoesThrough.foldersOf_eq (through : GoesThrough reference folders name) :
    foldersOf reference = folders := by
  rw [foldersOf, through.parts, List.dropLast_concat]

/-- Where a reference leads from a dialogue: its folders are followed from the folder of the
dialogue. -/
theorem resolve_from_origin (through : GoesThrough reference folders name)
    (relative : ¬ FromRoot reference) (origin : String) :
    resolveDialogue origin (String.ofList reference) =
      (climb (splitChars '/' origin.toList).dropLast folders).map
        fun reached => joinPath (reached ++ [name]) := by
  have some : name.isEmpty = false := by simpa using (letters_of_isNodeName through.named).1
  unfold resolveDialogue
  rw [String.toList_ofList]
  split
  · rename_i rest
    exact absurd ⟨rest, rfl⟩ relative
  · rename_i written other
    extract_lets target parts last
    have cut : parts = folders ++ [name] := through.parts
    have same : last = name := by
      unfold last
      rw [cut, List.getLastD_concat]
    rw [cut, List.dropLast_concat, same, some]
    cases climb (splitChars '/' origin.toList).dropLast folders <;> rfl

/-- A reference from the root is taken as it stands. -/
theorem resolve_from_root (through : GoesThrough reference folders name)
    (absolute : FromRoot reference) (origin : String) :
    ∃ others, folders = ['.'] :: others ∧
      reference = ['.', '/'] ++ (joinPath (others ++ [name])).toList ∧
      resolveDialogue origin (String.ofList reference) = .ok (joinPath (others ++ [name])) := by
  obtain ⟨rest, rfl⟩ := absolute
  obtain ⟨parts, _, named⟩ := through
  have cut : ['.'] :: splitChars '/' rest = folders ++ [name] := by
    rw [← parts]
    rfl
  cases folders with
  | nil => exact absurd (List.cons.inj cut).2 (splitChars_ne_nil '/' rest)
  | cons folder others =>
    have first : ['.'] = folder := (List.cons.inj cut).1
    have later : splitChars '/' rest = others ++ [name] := (List.cons.inj cut).2
    have whole : rest = ['/'].intercalate (others ++ [name]) := by
      rw [← later, intercalate_splitChars]
    have some : rest.isEmpty = false := by
      cases rest with
      | nil =>
        have inside : name ∈ splitChars '/' [] := by rw [later]; simp
        exact absurd (List.mem_singleton.mp inside) (letters_of_isNodeName named).1
      | cons => rfl
    refine ⟨others, by rw [first], by rw [joinPath, String.toList_ofList, ← whole], ?_⟩
    have taken : resolveDialogue origin (String.ofList (['.', '/'] ++ rest)) =
        if rest.isEmpty then .error .empty else .ok (String.ofList rest) := by
      unfold resolveDialogue
      rw [String.toList_ofList]
      rfl
    rw [taken, some, joinPath, ← whole]
    rfl

/-- What a reference to a node of another dialogue is meant to come to in a dialogue: it is refused
where it climbs above the root, and otherwise leads to a name that a dialogue can have. -/
def Resolves (origin : String) (reference node : List Char) :
    Except PointerDefect Pointer → Prop
  | .ok p => ¬ ClimbsAboveRoot (startDepth origin reference) (foldersOf reference) ∧
      ∃ dialogue, p = .external (String.ofList reference) (String.ofList node) dialogue ∧
        isDialogueName dialogue
  | .error defect => ClimbsAboveRoot (startDepth origin reference) (foldersOf reference) ∧
      defect = .path .aboveRoot

/-- Whether a reference is taken from the root and goes through a point or two on its way. -/
def KeepsPoints (reference : List Char) : Prop :=
  FromRoot reference ∧ ∃ folder ∈ (foldersOf reference).tail, folder = ['.'] ∨ folder = ['.', '.']

theorem ofText_of_external {origin text : String} {reference node : List Char}
    (written : external? text.toList = some (reference, node)) :
    ofText origin text = match resolveDialogue origin (String.ofList reference) with
      | .ok dialogue => .ok (.external (String.ofList reference) (String.ofList node) dialogue)
      | .error defect => .error (.path defect) := by
  have other : isNodeName text.toList = false := by
    obtain ⟨_, same⟩ := pointerText_of_external written
    refine Bool.eq_false_iff.mpr fun named => ?_
    have point : '.' ∉ text.toList := not_mem_of_isNodeName named (by decide)
    exact point (by rw [same]; simp)
  unfold ofText
  dsimp only
  rw [other, written]
  rfl

theorem resolves_from_origin {origin : String} {node : List Char}
    (proper : isDialogueName origin) (through : GoesThrough reference folders name)
    (relative : ¬ FromRoot reference) :
    Resolves origin reference node
      (match resolveDialogue origin (String.ofList reference) with
      | .ok dialogue => .ok (.external (String.ofList reference) (String.ofList node) dialogue)
      | .error defect => .error (.path defect)) := by
  have below : ∀ folder ∈ (splitChars '/' origin.toList).dropLast, isNodeName folder :=
    fun folder member => List.all_eq_true.mp proper folder (List.dropLast_subset _ member)
  have depth : startDepth origin reference = (splitChars '/' origin.toList).dropLast.length :=
    if_neg relative
  rw [resolve_from_origin through relative]
  rcases climb_of_folders below through.isFolder with
    ⟨above, failed⟩ | ⟨inside, reached, led, named⟩
  · rw [failed]
    exact ⟨by rwa [depth, through.foldersOf_eq], rfl⟩
  · rw [led]
    refine ⟨by rwa [depth, through.foldersOf_eq], _, rfl, isDialogueName_joinPath (by simp) ?_⟩
    intro part member
    rcases List.mem_append.mp member with folder | last
    · exact named part folder
    · rw [List.mem_singleton.mp last]
      exact through.named

theorem named_of_no_points {folders : List (List Char)}
    (isFolder : ∀ folder ∈ folders, isFolder folder)
    (plain : ¬ ∃ folder ∈ folders, folder = ['.'] ∨ folder = ['.', '.']) :
    ∀ folder ∈ folders, isNodeName folder := by
  intro folder member
  rcases isFolder_cases (isFolder folder member) with up | here | isName
  · exact absurd ⟨folder, member, .inr up⟩ plain
  · exact absurd ⟨folder, member, .inl here⟩ plain
  · exact isName

/-- Of a name that is joined of folders and a name a dialogue can have just those without points. -/
theorem isDialogueName_of_folders {others : List (List Char)}
    (isFolder : ∀ folder ∈ others, isFolder folder) (named : isNodeName name) :
    isDialogueName (joinPath (others ++ [name])) ↔
      ¬ ∃ folder ∈ others, folder = ['.'] ∨ folder = ['.', '.'] := by
  have inner : ∀ part ∈ others ++ [name], '/' ∉ part :=
    fun part member => (slashless_of_path isFolder named part member).2
  rw [isDialogueName, joinPath, String.toList_ofList, splitChars_intercalate (by simp) inner]
  constructor
  · rintro all ⟨folder, member, rfl | rfl⟩
    · exact absurd (List.all_eq_true.mp all _ (List.mem_append_left _ member)) (by decide)
    · exact absurd (List.all_eq_true.mp all _ (List.mem_append_left _ member)) (by decide)
  · intro plain
    refine List.all_eq_true.mpr fun part member => ?_
    rcases List.mem_append.mp member with folder | last
    · exact named_of_no_points isFolder plain part folder
    · rw [List.mem_singleton.mp last]
      exact named

theorem resolves_from_root_iff {origin : String} {node : List Char}
    (through : GoesThrough reference folders name) (absolute : FromRoot reference) :
    Resolves origin reference node
        (match resolveDialogue origin (String.ofList reference) with
        | .ok dialogue => .ok (.external (String.ofList reference) (String.ofList node) dialogue)
        | .error defect => .error (.path defect)) ↔
      ¬ ∃ folder ∈ folders.tail, folder = ['.'] ∨ folder = ['.', '.'] := by
  have depth : startDepth origin reference = 0 := if_pos absolute
  obtain ⟨others, rfl, _, led⟩ := resolve_from_root through absolute origin
  have isFolder : ∀ folder ∈ others, Pointer.isFolder folder :=
    fun folder member => through.isFolder folder (List.mem_cons_of_mem _ member)
  rw [led, List.tail_cons, ← isDialogueName_of_folders isFolder through.named]
  constructor
  · rintro ⟨_, dialogue, same, proper⟩
    cases same
    exact proper
  · intro proper
    refine ⟨?_, _, rfl, proper⟩
    -- a way without points goes down only
    have plain := (isDialogueName_of_folders isFolder through.named).mp proper
    rw [depth, through.foldersOf_eq, climbs_stay_iff]
    exact not_climbs_of_named (named_of_no_points isFolder plain)

/-- A reference to a node of another dialogue is refused in a dialogue if some part of it climbs
above the root, and otherwise leads to a name that a dialogue can have, unless it is taken from the
root and keeps points that it goes through; then it is accepted as it stands, whether it climbs
above the root or not, and leads to a name that no dialogue can have. -/
theorem resolves_iff {origin text : String} {reference node : List Char}
    (proper : isDialogueName origin) (written : external? text.toList = some (reference, node)) :
    (Resolves origin reference node (ofText origin text) ↔ ¬ KeepsPoints reference) ∧
      (KeepsPoints reference → ∃ dialogue,
        ofText origin text =
            .ok (.external (String.ofList reference) (String.ofList node) dialogue) ∧
          reference = ['.', '/'] ++ dialogue.toList ∧ ¬ isDialogueName dialogue) := by
  obtain ⟨folders, name, through⟩ := goesThrough_of_external written
  rw [ofText_of_external written]
  by_cases absolute : FromRoot reference
  · have keeps : KeepsPoints reference ↔
        ∃ folder ∈ folders.tail, folder = ['.'] ∨ folder = ['.', '.'] := by
      rw [KeepsPoints, through.foldersOf_eq, and_iff_right absolute]
    refine ⟨by rw [keeps]; exact resolves_from_root_iff through absolute, fun points => ?_⟩
    have folder : ∀ folder ∈ folders, isFolder folder := through.isFolder
    obtain ⟨others, rfl, same, led⟩ := resolve_from_root through absolute origin
    rw [led]
    have inner : ∀ other ∈ others, isFolder other :=
      fun other member => folder other (List.mem_cons_of_mem _ member)
    refine ⟨_, rfl, same, ?_⟩
    rw [isDialogueName_of_folders inner through.named, not_not]
    exact keeps.mp points
  · have plain : ¬ KeepsPoints reference := fun keeps => absolute keeps.1
    exact ⟨iff_of_true (resolves_from_origin proper through absolute) plain,
      fun keeps => absurd keeps plain⟩

/-- A reference that goes up two folders and down into another. -/
theorem common_resolves_from_side_quest :
    let reference := "/.././../common/bye".toList
    let node := "start".toList
    isDialogueName "quests/side/intro" ∧
      external? "/.././../common/bye.start".toList = some (reference, node) ∧
      Resolves "quests/side/intro" reference node
        (ofText "quests/side/intro" "/.././../common/bye.start") := by
  intro reference node
  have proper : isDialogueName "quests/side/intro" := by decide
  have written : external? "/.././../common/bye.start".toList = some (reference, node) := by decide
  have plain : ¬ KeepsPoints reference := fun keeps => absurd keeps.1 (by decide)
  exact ⟨proper, written, (resolves_iff proper written).1.mpr plain⟩

/-- Not every reference is refused that climbs above the root. -/
theorem climbing_from_root_is_accepted :
    ¬ ∀ (origin text : String) (reference node : List Char), isDialogueName origin →
      external? text.toList = some (reference, node) →
        Resolves origin reference node (ofText origin text) := by
  intro claim
  have resolved := claim "intro" "./../bye.start" "./../bye".toList "start".toList (by decide)
    (by decide)
  have led : ofText "intro" "./../bye.start" = .ok (.external
      (String.ofList "./../bye".toList) (String.ofList "start".toList) "../bye") := by
    rfl
  rw [led] at resolved
  obtain ⟨_, dialogue, same, proper⟩ := resolved
  cases same
  exact absurd proper (by decide)

end Pointer
end Parley
