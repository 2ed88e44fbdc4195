import Parley.Library.Basic
import Parley.Proofs.Body.Pointers

/-!
Files that may hold scripts: what the pattern of scripts chooses among names, what is left of a name
without its ending, and which files a tree holds. In a tree that was made by writing and deleting,
each file is found at the path under which it is listed.
-/
namespace Parley

/-! Names -/

namespace Glyph

theorem areMet_chars (cs ds : List Char) : areMet (cs.map .char) ds = true ↔ cs = ds := by
  induction cs generalizing ds with
  | nil => cases ds <;> simp [areMet]
  | cons c rest ih =>
    cases ds with
    | nil => simp [areMet]
    | cons d more =>
      rw [List.map_cons, areMet, Bool.and_eq_true, ih, List.cons.injEq, fits, beq_iff_eq, eq_comm]
      exact Glyph.noConfusion

/-- Any characters with a text behind them are what ends with the text. -/
theorem areMet_many (cs ds : List Char) :
    areMet (.many :: cs.map .char) ds = true ↔ cs <:+ ds := by
  induction ds with
  | nil => rw [areMet, areMet_chars, List.suffix_nil]
  | cons d more ih =>
    rw [areMet, Bool.or_eq_true, areMet_chars, List.suffix_cons_iff]
    exact or_congr_right ih

end Glyph

namespace FilePattern

theorem not_isMet_nil : scripts.isMet [] = false := by
  simp [isMet, scripts, areMet]

theorem isMet_single {name : String} :
    scripts.isMet [name] = true ↔ ∃ beginning, name = beginning ++ ".dlb" := by
  have glyphs : [Glyph.many, .char '.', .char 'd', .char 'l', .char 'b'] =
      .many :: (".dlb".toList).map .char := rfl
  have met : scripts.isMet [name] =
      Glyph.areMet (.many :: (".dlb".toList).map .char) name.toList := by
    simp [isMet, scripts, areMet, glyphs]
  rw [met, Glyph.areMet_many]
  constructor
  · rintro ⟨beginning, chars⟩
    refine ⟨String.ofList beginning, String.toList_inj.mp ?_⟩
    rw [String.toList_append, String.toList_ofList, chars]
  · rintro ⟨beginning, rfl⟩
    exact ⟨beginning.toList, String.toList_append.symm⟩

example : ofExtension? ".dlb" = some scripts := by cbv

end FilePattern

namespace Path

/-- Without the ending of scripts a name is what stands in front of it, if anything does. -/
theorem stemOf_append (beginning : String) :
    stemOf (beginning ++ ".dlb") = if beginning = "" then ".dlb" else beginning := by
  have chars : (beginning ++ ".dlb").toList = beginning.toList ++ ['.', 'd', 'l', 'b'] :=
    String.toList_append
  have ending : (beginning.toList ++ ['.', 'd', 'l', 'b']).reverse.takeWhile (· != '.') =
      ['b', 'l', 'd'] := by
    rw [List.reverse_append]
    rfl
  have stem : (beginning.toList ++ ['.', 'd', 'l', 'b']).take
      ((beginning.toList ++ ['.', 'd', 'l', 'b']).length - 3 - 1) = beginning.toList := by
    rw [List.length_append]
    exact List.take_left
  unfold stemOf
  simp only [chars, ending, List.length_cons, List.length_nil, stem]
  by_cases none : beginning = ""
  · rw [none]
    rfl
  · simp [none]

/-- Whether a text is a part of a path as it stands. -/
def IsPart (text : String) : Prop := text ≠ "" ∧ text ≠ "." ∧ '/' ∉ text.toList

theorem isPart_append {beginning : String} (flat : '/' ∉ beginning.toList) :
    IsPart (beginning ++ ".dlb") := by
  have chars : (beginning ++ ".dlb").toList = beginning.toList ++ ['.', 'd', 'l', 'b'] :=
    String.toList_append
  refine ⟨fun none => ?_, fun point => ?_, ?_⟩
  · rw [none] at chars
    exact absurd chars.symm (by simp)
  · rw [point] at chars
    exact absurd (congrArg List.getLast? chars) (by simp)
  · rw [chars, List.mem_append, not_or]
    exact ⟨flat, by decide⟩

theorem isPart_of_mem (text : String) : ∀ part ∈ (ofText text).parts, IsPart part := by
  intro part member
  obtain ⟨cs, inside, rfl⟩ := List.mem_map.mp member
  obtain ⟨cut, kept⟩ := List.mem_filter.mp inside
  have flat := not_mem_splitChars '/' text.toList cs cut
  rw [Bool.and_eq_true, bne_iff_ne, bne_iff_ne] at kept
  refine ⟨fun none => kept.1 (String.ofList_eq_empty_iff.mp none), fun point => kept.2 ?_, ?_⟩
  · exact String.toList_ofList.symm.trans (congrArg String.toList point)
  · rwa [String.toList_ofList]

theorem parts_ofText_key {parts : List String} (each : ∀ part ∈ parts, IsPart part) :
    (ofText (FileTree.key parts)).parts = parts := by
  have chars : (FileTree.key parts).toList = ['/'].intercalate (parts.map String.toList) :=
    String.toList_intercalate
  have flat : ∀ part ∈ parts.map String.toList, '/' ∉ part := by
    intro part member
    obtain ⟨text, inside, rfl⟩ := List.mem_map.mp member
    exact (each text inside).2.2
  have kept : (parts.map String.toList).filter (fun part => part != [] && part != ['.']) =
      parts.map String.toList := by
    rw [List.filter_eq_self]
    intro part member
    obtain ⟨text, inside, rfl⟩ := List.mem_map.mp member
    obtain ⟨some, other, _⟩ := each text inside
    rw [Bool.and_eq_true, bne_iff_ne, bne_iff_ne]
    exact ⟨fun none => some (String.toList_eq_nil_iff.mp none),
      fun point => other (String.toList_inj.mp point)⟩
  rw [ofText, chars]
  cases parts with
  | nil => rfl
  | cons part rest =>
    have cut := splitChars_intercalate (by simp) flat
    dsimp only
    rw [cut, kept, List.map_map]
    exact List.map_id'' (fun text => String.ofList_toList) _

theorem settled_subset (p : Path) : p.settled ⊆ p.parts := by
  have each (parts done : List String) :
      parts.foldl (fun done part => if part = ".." then done.dropLast else done ++ [part]) done ⊆
        done ++ parts := by
    induction parts generalizing done with
    | nil => simp
    | cons part rest ih =>
      intro other member
      rcases List.mem_append.mp (ih _ member) with earlier | later
      · dsimp only at earlier
        split at earlier
        · exact List.mem_append_left _ (List.dropLast_subset done earlier)
        · rw [← List.singleton_append, ← List.append_assoc]
          exact List.mem_append_left _ earlier
      · simp [later]
  exact each p.parts []

end Path

namespace ScriptFile

/-- A file in a folder gives its dialogue a name with a slash. -/
theorem slash_mem_dialogueName {a b : String} {more : List String} {bytes : ByteArray} :
    '/' ∈ (dialogueName ⟨a :: b :: more, bytes⟩).toList := by
  obtain ⟨second, others, folders⟩ : ∃ second others,
      (b :: more).dropLast ++ [Path.stemOf ((a :: b :: more).getLastD "")] = second :: others :=
    List.exists_cons_of_ne_nil (by simp)
  have slash : ("/" : String).toList = ['/'] := rfl
  rw [dialogueName, fileName, List.dropLast_cons_cons, List.cons_append, folders,
    String.toList_intercalate, slash, List.map_cons, List.map_cons, List.intercalate_cons_cons]
  simp

theorem dialogueName_single (name : String) (bytes : ByteArray) :
    dialogueName ⟨[name], bytes⟩ = Path.stemOf name := by
  simp [dialogueName, fileName]

end ScriptFile

namespace FileTree

/-- Whether no place is listed twice, and each is written without needless slashes and points. -/
structure Proper (t : FileTree) : Prop where
  single : (Assoc.keys t.entries).Nodup
  written : ∀ place ∈ Assoc.keys t.entries, key (Path.ofText place).parts = place

variable {t : FileTree}

theorem proper_empty : empty.Proper := ⟨List.nodup_nil, by simp [empty, Assoc.keys]⟩

theorem Proper.put (proper : t.Proper) (text : String) (content : Option ByteArray) :
    (t.put (.ofText text) content).Proper where
  single := Assoc.keys_nodup_insert proper.single _ _
  written := by
    intro place member
    rw [FileTree.put, Assoc.keys_insert] at member
    split at member
    · exact proper.written place member
    · rcases List.mem_append.mp member with old | new
      · exact proper.written place old
      · rw [List.mem_singleton.mp new, Path.parts_ofText_key (Path.isPart_of_mem text)]

theorem Proper.delete (proper : t.Proper) (path : Path) : (t.delete path).Proper where
  single := Assoc.keys_nodup_filter proper.single _
  written place member :=
    proper.written place ((List.filter_sublist.map Prod.fst).subset member)

/-- Each file is found at its path. -/
theorem Proper.entry_of_mem (proper : t.Proper) {f : ScriptFile} (member : f ∈ ScriptFile.ofTree t) :
    t.entry f.path = .file f.bytes := by
  obtain ⟨⟨place, content⟩, listed, given⟩ := List.mem_filterMap.mp member
  obtain ⟨bytes, rfl, rfl⟩ := Option.map_eq_some_iff.mp given
  have here := proper.written place (List.mem_map.mpr ⟨_, listed, rfl⟩)
  rw [entry, here, Assoc.get?_of_mem proper.single listed]

/-- What is found as a file at a path of proper parts is a file of the tree. -/
theorem mem_ofTree {parts : List String} {bytes : ByteArray}
    (each : ∀ part ∈ parts, Path.IsPart part) (found : t.entry parts = .file bytes) : ⟨parts, bytes⟩ ∈ ScriptFile.ofTree t := by
  rw [entry] at found
  split at found
  · rename_i content listed
    cases found
    refine List.mem_filterMap.mpr ⟨(key parts, some bytes), Assoc.mem_of_get? listed, ?_⟩
    simp [Path.parts_ofText_key each]
  · cases found
  · split at found <;> cases found

end FileTree

end Parley
