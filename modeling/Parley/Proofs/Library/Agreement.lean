import Parley.Proofs.Body.Layouts
import Parley.Proofs.Dialogue.Separate
import Parley.Proofs.Library.Files

/-!
Checking a file and loading a library. A library holds under a name what the files of that name
give, and a report on a file says the same of it as the library of the folder that it lies in, unless
there is no report because the file cannot be read to its end.
-/
namespace Parley

/-! What a library holds -/

namespace Assoc

variable {κ α : Type} [DecidableEq κ] {key : κ} {pairs : List (κ × α)}

theorem contains_ofList : contains key (ofList pairs) = true ↔ ∃ value, (key, value) ∈ pairs := by
  rw [contains, Option.isSome_iff_exists, ← mem_keys_iff, keys_ofList, List.mem_eraseDups, keys,
    List.mem_map]
  constructor
  · rintro ⟨entry, member, same⟩
    exact ⟨entry.2, same ▸ member⟩
  · rintro ⟨value, member⟩
    exact ⟨(key, value), member, rfl⟩

theorem mem_of_get?_ofList {value : α} (found : get? key (ofList pairs) = some value) :
    (key, value) ∈ pairs := by
  rw [get?_ofList] at found
  obtain ⟨entry, last, rfl⟩ := Option.map_eq_some_iff.mp found
  have same := List.find?_some last
  rw [decide_eq_true_iff] at same
  exact same ▸ List.mem_reverse.mp (List.mem_of_find?_eq_some last)

end Assoc

namespace ScriptFile

/-- What is read from a file under the name that it gives its dialogue. -/
def reading (f : ScriptFile) : Except FileError Dialogue := Dialogue.ofBytes f.dialogueName f.bytes

/-- The dialogue in a file, under its name. -/
def script? (f : ScriptFile) : Option (String × Dialogue) :=
  f.reading.toOption.map (f.dialogueName, ·)

/-- What is wrong with a file, under the name that it would give its dialogue. -/
def failure? (f : ScriptFile) : Option (String × FileError) :=
  (errorIn f.reading).map (f.dialogueName, ·)

theorem script?_eq_some_iff {f : ScriptFile} {name : String} {d : Dialogue} :
    f.script? = some (name, d) ↔ f.dialogueName = name ∧ Dialogue.ofBytes name f.bytes = .ok d := by
  simp only [script?, Option.map_eq_some_iff, toOption_eq_some_iff, Prod.mk.injEq, reading]
  constructor
  · rintro ⟨_, read, rfl, rfl⟩
    exact ⟨rfl, read⟩
  · rintro ⟨rfl, read⟩
    exact ⟨d, read, rfl, rfl⟩

theorem failure?_eq_some_iff {f : ScriptFile} {name : String} {e : FileError} :
    f.failure? = some (name, e) ↔
      f.dialogueName = name ∧ Dialogue.ofBytes name f.bytes = .error e := by
  simp only [failure?, Option.map_eq_some_iff, errorIn_eq_some_iff, Prod.mk.injEq, reading]
  constructor
  · rintro ⟨_, read, rfl, rfl⟩
    exact ⟨rfl, read⟩
  · rintro ⟨rfl, read⟩
    exact ⟨e, read, rfl, rfl⟩

end ScriptFile

namespace Library

/-- The files of a library give their dialogues and their errors in turn. -/
theorem addAll_eq (l : Library) (files : List ScriptFile) : (l.addAll files).1 =
    ⟨Assoc.insertAll l.scripts (files.filterMap ScriptFile.script?),
      Assoc.insertAll l.failures (files.filterMap ScriptFile.failure?)⟩ := by
  induction files generalizing l with
  | nil => rfl
  | cons f rest ih =>
    have step : (l.addAll (f :: rest)).1 = ((l.add f).1.addAll rest).1 := rfl
    rw [step, ih, add]
    cases read : Dialogue.ofBytes f.dialogueName f.bytes with
    | ok d =>
      have script : f.script? = some (f.dialogueName, d) :=
        ScriptFile.script?_eq_some_iff.mpr ⟨rfl, read⟩
      have failure : f.failure? = none := by
        rw [ScriptFile.failure?, ScriptFile.reading, read]
        rfl
      rw [List.filterMap_cons_some script, List.filterMap_cons_none failure]
      rfl
    | error e =>
      have script : f.script? = none := by
        rw [ScriptFile.script?, ScriptFile.reading, read]
        rfl
      have failure : f.failure? = some (f.dialogueName, e) :=
        ScriptFile.failure?_eq_some_iff.mpr ⟨rfl, read⟩
      rw [List.filterMap_cons_none script, List.filterMap_cons_some failure]
      rfl

/-- A library is made of what the files that count give, in their order. -/
theorem load_eq (pattern : FilePattern) (files : List ScriptFile) :
    let chosen := (files.filter (pattern.isMet ·.path)).mergeSort ScriptFile.notAfter
    (load pattern files).1 = ⟨Assoc.ofList (chosen.filterMap ScriptFile.script?),
      Assoc.ofList (chosen.filterMap ScriptFile.failure?)⟩ :=
  addAll_eq empty _

variable {pattern : FilePattern} {files : List ScriptFile} {name : String}

theorem mem_chosen {α : Type} {give : ScriptFile → Option (String × α)} {entry : String × α} :
    entry ∈ ((files.filter (pattern.isMet ·.path)).mergeSort ScriptFile.notAfter).filterMap give ↔
      ∃ f ∈ files, pattern.isMet f.path ∧ give f = some entry := by
  simp only [List.mem_filterMap, List.mem_mergeSort, List.mem_filter, and_assoc]

theorem read_of_get? {d : Dialogue} (found : (load pattern files).1.get? name = some d) :
    ∃ f ∈ files, pattern.isMet f.path ∧ f.dialogueName = name ∧
      Dialogue.ofBytes name f.bytes = .ok d := by
  rw [load_eq] at found
  obtain ⟨f, inside, met, script⟩ := mem_chosen.mp (Assoc.mem_of_get?_ofList found)
  exact ⟨f, inside, met, ScriptFile.script?_eq_some_iff.mp script⟩

theorem contains_load : (load pattern files).1.contains name = true ↔
    ∃ f ∈ files, pattern.isMet f.path ∧ f.dialogueName = name ∧
      ∃ d, Dialogue.ofBytes name f.bytes = .ok d := by
  rw [load_eq, contains, Assoc.contains_ofList]
  simp only [mem_chosen, ScriptFile.script?_eq_some_iff]
  constructor
  · rintro ⟨d, f, inside, met, named, read⟩
    exact ⟨f, inside, met, named, d, read⟩
  · rintro ⟨f, inside, met, named, d, read⟩
    exact ⟨d, f, inside, met, named, read⟩

theorem contains_failures_load : Assoc.contains name (load pattern files).1.failures = true ↔
    ∃ f ∈ files, pattern.isMet f.path ∧ f.dialogueName = name ∧
      ∃ e, Dialogue.ofBytes name f.bytes = .error e := by
  rw [load_eq, Assoc.contains_ofList]
  simp only [mem_chosen, ScriptFile.failure?_eq_some_iff]
  constructor
  · rintro ⟨e, f, inside, met, named, failed⟩
    exact ⟨f, inside, met, named, e, failed⟩
  · rintro ⟨f, inside, met, named, e, failed⟩
    exact ⟨e, f, inside, met, named, failed⟩

end Library

/-! Scripts in the folder itself -/

namespace Dialogue

/-- Under a name that dialogues cannot have nothing is read. -/
theorem isDialogueName_of_ofBytes {name : String} {bytes : ByteArray} {d : Dialogue}
    (read : ofBytes name bytes = .ok d) : isDialogueName name = true := by
  rw [ofBytes] at read
  split at read
  · cases read
  · obtain ⟨r, _, _, proper, _⟩ := ofLines_eq_ok_iff.mp (mapError_eq_ok_iff.mp read)
    by_contra other
    rw [nameErrors, if_neg other] at proper
    cases proper

end Dialogue

section Root

variable {t : FileTree} {beginning : String} {bytes : ByteArray}

theorem flat_stem (flat : '/' ∉ beginning.toList) :
    '/' ∉ (Path.stemOf (beginning ++ ".dlb")).toList := by
  rw [Path.stemOf_append]
  split
  · decide
  · exact flat

/-- A file whose name goes on with the ending of scripts stands alone in giving its dialogue the name
that it does, except for a name that dialogues cannot have. -/
theorem ScriptFile.eq_of_dialogueName (proper : t.Proper) (flat : '/' ∉ beginning.toList)
    (found : t.entry [beginning ++ ".dlb"] = .file bytes) {f : ScriptFile}
    (member : f ∈ ofTree t) (met : FilePattern.scripts.isMet f.path)
    (named : f.dialogueName = Path.stemOf (beginning ++ ".dlb")) :
    f = ⟨[beginning ++ ".dlb"], bytes⟩ ∨
      isDialogueName (Path.stemOf (beginning ++ ".dlb")) = false := by
  have here := proper.entry_of_mem member
  obtain ⟨path, content⟩ := f
  match path with
  | [] => cases FilePattern.not_isMet_nil.symm.trans met
  | a :: b :: more =>
    refine absurd ScriptFile.slash_mem_dialogueName (named ▸ flat_stem flat)
  | [name] =>
    obtain ⟨front, rfl⟩ := FilePattern.isMet_single.mp met
    have alone (same : front = beginning) :
        (⟨[front ++ ".dlb"], content⟩ : ScriptFile) = ⟨[beginning ++ ".dlb"], bytes⟩ := by
      subst same
      cases here.symm.trans found
      rfl
    rw [dialogueName_single, Path.stemOf_append, Path.stemOf_append] at named
    rw [Path.stemOf_append]
    by_cases none : beginning = ""
    · rw [if_pos none]
      exact .inr (by decide)
    · rw [if_neg none] at named ⊢
      split at named
      · rw [← named]
        exact .inr (by decide)
      · exact .inl (alone named)

/-- What a library says of a file in its folder is what is read from the file. -/
theorem Library.holds_reading (proper : t.Proper) (flat : '/' ∉ beginning.toList)
    (found : t.entry [beginning ++ ".dlb"] = .file bytes) :
    let library := (load .scripts (ScriptFile.ofTree t)).1
    let stem := Path.stemOf (beginning ++ ".dlb")
    (∀ d, library.get? stem = some d → Dialogue.ofBytes stem bytes = .ok d) ∧
    (library.contains stem = true ↔ ∃ d, Dialogue.ofBytes stem bytes = .ok d) ∧
    (Assoc.contains stem library.failures = true ↔ ∃ e, Dialogue.ofBytes stem bytes = .error e) := by
  intro library stem
  have listed : (⟨[beginning ++ ".dlb"], bytes⟩ : ScriptFile) ∈ ScriptFile.ofTree t :=
    FileTree.mem_ofTree (by simpa using Path.isPart_append flat) found
  have met : FilePattern.scripts.isMet [beginning ++ ".dlb"] = true :=
    FilePattern.isMet_single.mpr ⟨beginning, rfl⟩
  have named := ScriptFile.dialogueName_single (beginning ++ ".dlb") bytes
  have only (d : Dialogue) {f : ScriptFile} (member : f ∈ ScriptFile.ofTree t)
      (met : FilePattern.scripts.isMet f.path) (named : f.dialogueName = stem)
      (read : Dialogue.ofBytes stem f.bytes = .ok d) : Dialogue.ofBytes stem bytes = .ok d := by
    rcases ScriptFile.eq_of_dialogueName proper flat found member met named with rfl | other
    · exact read
    · cases (Dialogue.isDialogueName_of_ofBytes read).symm.trans other
  refine ⟨fun d holds => ?_, contains_load.trans ⟨?_, ?_⟩, contains_failures_load.trans ⟨?_, ?_⟩⟩
  · obtain ⟨f, member, met, named, read⟩ := read_of_get? holds
    exact only d member met named read
  · rintro ⟨f, member, met, named, d, read⟩
    exact ⟨d, only d member met named read⟩
  · exact fun read => ⟨_, listed, met, named, read⟩
  · rintro ⟨f, member, met, named, e, failed⟩
    rcases ScriptFile.eq_of_dialogueName proper flat found member met named with rfl | other
    · exact ⟨e, failed⟩
    · cases read : Dialogue.ofBytes stem bytes with
      | error e => exact ⟨e, rfl⟩
      | ok d => cases (Dialogue.isDialogueName_of_ofBytes read).symm.trans other
  · exact fun failed => ⟨_, listed, met, named, failed⟩

end Root

/-! Reports -/

namespace Dialogue

/-- Whether a file is not read to its end: its bytes are no text, or the reading of its script is
given up at a number with too many digits. -/
def isUnreadable (name : String) (bytes : ByteArray) : Bool :=
  match String.fromUTF8? bytes with
  | none => true
  | some text => isGivenUp (ofText name (String.ofList (unifyBreaks text.toList)))

/-- An error that ends the reading of a script is reported alone or not at all. -/
theorem any_isFatal_of_ofLines {name : String} {lines : List (List Char)} {es : List DialogueError}
    (read : ofLines name lines = .error es) : es.any (·.isFatal) = isGivenUp (.error es) := by
  cases found : (Reading.ofLines name lines).errors.find? (·.isFatal) with
  | some e =>
    cases (ofLines_of_fatal found).symm.trans read
    rw [List.any_cons, List.any_nil, Bool.or_false]
    rfl
  | none =>
    have sound : ∀ e ∈ (Reading.ofLines name lines).errors, e.isFatal = false :=
      fun e member => Bool.eq_false_iff.mpr (List.find?_eq_none.mp found e member)
    have each := not_isFatal_of_ofLines sound read
    rw [isGivenUp_of_sound each, List.any_eq_false]
    exact fun e member => Bool.eq_false_iff.mp (each e member)

end Dialogue

namespace Report

/-- A file gives a dialogue and an account of it, or errors, which are reported if the file is read
to its end. -/
theorem ofReading_ofBytes (name : String) (bytes : ByteArray) :
    (∃ d, Dialogue.ofBytes name bytes = .ok d ∧ Dialogue.isUnreadable name bytes = false ∧
      ofReading (Dialogue.ofBytes name bytes) = .ok ⟨0, d.summary ++ "\n", ""⟩) ∨
    ∃ e, Dialogue.ofBytes name bytes = .error e ∧
      (Dialogue.isUnreadable name bytes = true ∧ ofReading (Dialogue.ofBytes name bytes) = .error e ∨
        Dialogue.isUnreadable name bytes = false ∧
          ∃ err, ofReading (Dialogue.ofBytes name bytes) = .ok ⟨1, "", err⟩) := by
  unfold Dialogue.ofBytes Dialogue.isUnreadable
  cases String.fromUTF8? bytes with
  | none => exact .inr ⟨.notText, rfl, .inl ⟨rfl, rfl⟩⟩
  | some text =>
    dsimp only
    cases read : Dialogue.ofText name (String.ofList (unifyBreaks text.toList)) with
    | ok d => exact .inl ⟨d, rfl, rfl, rfl⟩
    | error es =>
      refine .inr ⟨.script name es, rfl, ?_⟩
      rw [Except.mapError, ofReading, ← Dialogue.any_isFatal_of_ofLines read]
      cases es.any (·.isFatal) with
      | true => exact .inl ⟨rfl, rfl⟩
      | false => exact .inr ⟨rfl, _, rfl⟩

variable {t : FileTree} {path : Path} {beginning : String} {bytes : ByteArray}

/-- The report on a file in the folder itself is that on its bytes, however its path is written. -/
theorem ofPath_of_found (folder : t.entry [] = .folder)
    (found : t.entry [beginning ++ ".dlb"] = .file bytes)
    (short : (beginning ++ ".dlb").utf8ByteSize ≤ 255) (valid : path.isValid)
    (leads : path.settled = [beginning ++ ".dlb"]) :
    ofPath t path = ofReading (Dialogue.ofBytes (Path.stemOf (beginning ++ ".dlb")) bytes) := by
  have inside : (⟨path.root, path.settled⟩ : Path).isValid := by
    rw [Path.isValid, List.all_eq_true] at valid ⊢
    exact fun part member => valid part (path.settled_subset member)
  have onward : beginning ++ ".dlb" ≠ ".." := by
    intro same
    have chars := congrArg String.toList same
    rw [String.toList_append] at chars
    exact absurd (congrArg List.getLast? chars) (by simp)
  rw [ofPath, if_pos valid, Dialogue.ofPath, if_pos inside, leads, Dialogue.follow, folder]
  dsimp only
  rw [if_neg (Nat.not_lt.mpr short), if_neg onward, Dialogue.follow, List.nil_append, found]
  rfl

/-- The report on a script in a folder and the library of the folder agree: the script is accounted
for exactly if the library has its dialogue, and its errors are reported exactly if the library has
them and the file is read to its end. A file with nothing in front of the ending of scripts is called
by the ending. -/
theorem agrees_with_library (proper : t.Proper) (folder : t.entry [] = .folder)
    (flat : '/' ∉ beginning.toList) (short : (beginning ++ ".dlb").utf8ByteSize ≤ 255)
    (found : t.entry [beginning ++ ".dlb"] = .file bytes) (valid : path.isValid)
    (leads : path.settled = [beginning ++ ".dlb"]) :
    let library := (Library.load .scripts (ScriptFile.ofTree t)).1
    let stem := if beginning = "" then ".dlb" else beginning
    (∀ d, library.get? stem = some d → ofPath t path = .ok ⟨0, d.summary ++ "\n", ""⟩) ∧
    ((∃ r, ofPath t path = .ok r ∧ r.code = 0) ↔ library.contains stem = true) ∧
    Assoc.contains stem library.failures = !library.contains stem ∧
    ((∃ r, ofPath t path = .ok r ∧ r.code = 1) ↔ Assoc.contains stem library.failures = true ∧
      Dialogue.isUnreadable stem bytes = false) ∧
    ((∃ e, ofPath t path = .error e) ↔ Dialogue.isUnreadable stem bytes = true) := by
  intro library stem
  have called : Path.stemOf (beginning ++ ".dlb") = stem := Path.stemOf_append beginning
  have report := ofPath_of_found folder found short valid leads
  obtain ⟨gives, holds, fails⟩ := Library.holds_reading proper flat found
  rw [called] at report gives holds fails
  rw [report]
  rcases ofReading_ofBytes stem bytes with ⟨d, read, readable, outcome⟩ | ⟨e, read, outcome⟩
  · rw [read] at gives holds fails
    have present : library.contains stem = true := holds.mpr ⟨d, rfl⟩
    have absent : Assoc.contains stem library.failures = false :=
      Bool.eq_false_iff.mpr fun failed => by simpa using fails.mp failed
    rw [outcome, present, absent, readable]
    refine ⟨fun other held => ?_, by simp, rfl, by simp, by simp⟩
    cases gives other held
    rfl
  · rw [read] at gives holds fails
    have absent : library.contains stem = false :=
      Bool.eq_false_iff.mpr fun present => by simpa using holds.mp present
    have present : Assoc.contains stem library.failures = true := fails.mpr ⟨e, rfl⟩
    have none (d : Dialogue) : library.get? stem ≠ some d := fun held => by cases gives d held
    rw [present, absent]
    rcases outcome with ⟨unread, outcome⟩ | ⟨readable, err, outcome⟩
    · rw [outcome, unread]
      exact ⟨fun d held => (none d held).elim, by simp, rfl, by simp, by simp⟩
    · rw [outcome, readable]
      exact ⟨fun d held => (none d held).elim, by simp, rfl, by simp, by simp⟩

theorem agrees_with_library_of_intro :
    let t := (FileTree.empty.put (.ofText "intro.dlb")
      (some "title: Start\nspeaker: A\n---\n===\n".toUTF8)).put
      (.ofText "common/intro.dlb") (some ⟨#[0xff]⟩)
    let path : Path := .ofText "common/../intro.dlb"
    let library := (Library.load .scripts (ScriptFile.ofTree t)).1
    (t.Proper ∧ t.entry [] = .folder ∧ '/' ∉ "intro".toList ∧
      ("intro" ++ ".dlb").utf8ByteSize ≤ 255 ∧
      t.entry ["intro" ++ ".dlb"] = .file "title: Start\nspeaker: A\n---\n===\n".toUTF8 ∧
      path.isValid = true ∧ path.settled = ["intro" ++ ".dlb"]) ∧
    (∀ d, library.get? "intro" = some d → ofPath t path = .ok ⟨0, d.summary ++ "\n", ""⟩) ∧
    ((∃ r, ofPath t path = .ok r ∧ r.code = 0) ↔ library.contains "intro" = true) ∧
    Assoc.contains "intro" library.failures = !library.contains "intro" ∧
    ((∃ r, ofPath t path = .ok r ∧ r.code = 1) ↔ Assoc.contains "intro" library.failures = true ∧
      Dialogue.isUnreadable "intro" "title: Start\nspeaker: A\n---\n===\n".toUTF8 = false) ∧
    ((∃ e, ofPath t path = .error e) ↔
      Dialogue.isUnreadable "intro" "title: Start\nspeaker: A\n---\n===\n".toUTF8 = true) := by
  intro t path library
  have proper : t.Proper := (FileTree.proper_empty.put _ _).put _ _
  have folder : t.entry [] = .folder := rfl
  have found : t.entry ["intro" ++ ".dlb"] =
      .file "title: Start\nspeaker: A\n---\n===\n".toUTF8 := rfl
  have flat : '/' ∉ "intro".toList := by decide
  have short : ("intro" ++ ".dlb").utf8ByteSize ≤ 255 := by decide
  have valid : path.isValid = true := by decide
  have leads : path.settled = ["intro" ++ ".dlb"] := by decide
  exact ⟨⟨proper, folder, flat, short, found, valid, leads⟩,
    agrees_with_library proper folder flat short found valid leads⟩

/-- There is no report on a file that is no text, though a library has the error in it. -/
theorem no_report_on_bytes :
    let t := FileTree.empty.put (.ofText "a.dlb") (some ⟨#[0xff]⟩)
    Assoc.contains "a" (Library.load .scripts (ScriptFile.ofTree t)).1.failures = true ∧
      ofPath t (.ofText "a.dlb") = .error .notText := by
  intro t
  have proper : t.Proper := FileTree.proper_empty.put "a.dlb" _
  have folder : t.entry [] = .folder := rfl
  have found : t.entry ["a" ++ ".dlb"] = .file ⟨#[0xff]⟩ := rfl
  have read : Dialogue.ofBytes (Path.stemOf ("a" ++ ".dlb")) ⟨#[0xff]⟩ = .error .notText := by
    have bytes : String.fromUTF8? ⟨#[0xff]⟩ = none := by decide
    rw [Dialogue.ofBytes, bytes]
  have called : Path.stemOf ("a" ++ ".dlb") = "a" := Path.stemOf_append "a"
  obtain ⟨-, -, fails⟩ := Library.holds_reading proper (by decide) found
  rw [called] at fails
  refine ⟨fails.mpr ⟨.notText, called ▸ read⟩, ?_⟩
  rw [ofPath_of_found folder found (by decide) (by decide) (by decide), read]
  rfl

end Report

end Parley
