import Parley.Proofs.Number.Layout

/-!
Reading numbers that stand alone: the text of a number is read as the number.
-/
namespace Parley.Numeral

theorem dropEnd_of_none {p : Char → Bool} {cs : List Char} (none : ∀ c ∈ cs, p c = false) :
    dropEnd p (cs.dropWhile p) = cs := by
  have kept {ds : List Char} (other : ∀ c ∈ ds, p c = false) : ds.dropWhile p = ds := by
    cases ds with
    | nil => rfl
    | cons c rest => exact List.dropWhile_cons_of_neg (by simp [other c List.mem_cons_self])
  rw [kept none, dropEnd, kept fun c member => none c (List.mem_reverse.mp member),
    List.reverse_reverse]

theorem withoutUnderscores_of_none {cs : List Char} (none : '_' ∉ cs) (afterDigit : Bool) :
    withoutUnderscores? afterDigit cs = some cs := by
  induction cs generalizing afterDigit with
  | nil => rfl
  | cons c rest ih =>
    rw [List.mem_cons, not_or] at none
    rw [withoutUnderscores?, ih none.2]
    · rfl
    · exact fun _ _ same _ => none.1 same.symm
    · exact fun same _ => none.1 same.symm

/-- The characters of numerals. -/
def IsMark (c : Char) : Prop := isPlainDigit c ∨ c = '.' ∨ c = 'e' ∨ c = '+' ∨ c = '-'

theorem plain_of_marks {cs : List Char} (marks : ∀ c ∈ cs, IsMark c) :
    plain? (String.ofList cs) = some cs := by
  have padding : ∀ c ∈ cs, isPadding c = false := by
    intro c member
    rcases marks c member with digit | rfl | rfl | rfl | rfl
    · have range := isPlainDigit_iff.mp digit
      simp only [isPadding, isBlank, Bool.and_eq_false_iff, Bool.or_eq_false_iff,
        decide_eq_false_iff_not, beq_eq_false_iff_ne]
      omega
    all_goals decide
  have plain : plainDigits cs = cs := by
    apply plainDigits_of_plain
    intro c member
    rcases marks c member with digit | rfl | rfl | rfl | rfl
    · exact .inl digit
    all_goals exact .inr (by decide)
  have none : '_' ∉ cs := by
    intro member
    rcases marks '_' member with digit | same | same | same | same
    · cases digit
    all_goals cases same
  rw [plain?, String.toList_ofList, unpadded, dropEnd_of_none padding, plain,
    withoutUnderscores_of_none none]

theorem sign_of_digit {cs : List Char} (digits : ∀ c ∈ cs.head?, isPlainDigit c) :
    sign cs = (false, cs) := by
  cases cs with
  | nil => rfl
  | cons c rest =>
    have digit := digits c rfl
    rw [sign]
    · rintro _ same
      cases same
      cases digit
    · rintro _ same
      cases same
      cases digit

theorem intChars_marks (n : Int) : ∀ c ∈ intChars n, IsMark c := by
  intro c member
  unfold intChars at member
  split at member
  · rcases List.mem_cons.mp member with rfl | digit
    · exact .inr (.inr (.inr (.inr rfl)))
    · exact .inl (natChars_plain _ c digit)
  · exact .inl (natChars_plain _ c member)

theorem head_natChars (n : Nat) : ∀ c ∈ (natChars n).head?, isPlainDigit c :=
  fun c head => natChars_plain n c (List.mem_of_mem_head? head)

/-- Whole numbers are read as they are written, unless they have too many digits. -/
theorem int_intText {n : Int} (short : (natChars n.natAbs).length ≤ maxDigits) :
    int? (intText n) = some n := by
  have run := digitRun_all (natChars_plain n.natAbs)
  have some_digits : digitsOf (natChars n.natAbs) ≠ [] := by
    simpa [digitsOf] using natChars_ne_nil n.natAbs
  have bound : (digitsOf (natChars n.natAbs)).length ≤ maxDigits := by
    rw [digitsOf, List.length_map]
    exact short
  unfold int? intText
  rw [plain_of_marks (intChars_marks n)]
  unfold intChars
  split
  · rename_i negative
    have value : -|n| = n := by rw [abs_of_neg negative, neg_neg]
    simp [sign, run, some_digits, bound, digitsValue_natChars, value]
  · rename_i positive
    have value : |n| = n := abs_of_nonneg (Int.not_lt.mp positive)
    simp [sign_of_digit (head_natChars n.natAbs), run, some_digits, bound, digitsValue_natChars,
      value]

/-- A whole number that is read has no more digits than are written. -/
theorem length_of_int {s : String} {n : Int} (read : int? s = some n) :
    (natChars n.natAbs).length ≤ maxDigits := by
  unfold int? at read
  obtain ⟨cs, _, read⟩ := Option.bind_eq_some_iff.mp read
  dsimp only at read
  split at read
  · cases read
  · rename_i fits
    simp only [Bool.or_eq_true, decide_eq_true_eq, not_or, Nat.not_lt] at fits
    obtain ⟨⟨some_digits, short⟩, _⟩ := fits
    generalize (sign cs).2 = rest at some_digits short read
    have digits : ∀ c ∈ rest.takeWhile isPlainDigit, isPlainDigit c :=
      List.all_eq_true.mp List.all_takeWhile
    have filled : rest.takeWhile isPlainDigit ≠ [] := by simpa [digitRun] using some_digits
    have length := length_natChars_le filled digits rfl
    rw [digitRun, List.length_map] at short
    cases Option.some.inj read
    split
    · rw [Int.natAbs_neg]
      exact length.trans short
    · exact length.trans short

/-- A numeral that a layout has is read as the number nearest to it. -/
theorem float_layout (l : Layout) :
    float? (String.ofList l.chars) = some (l.value.nearest false) := by
  obtain ⟨c, more, whole⟩ := List.exists_cons_of_ne_nil l.some_whole
  have digit : isPlainDigit c := l.whole_digits c (by simp [whole])
  have chars : l.chars = c :: (more ++ (l.partChars ++ l.exponentChars)) := by
    rw [Layout.chars, whole, List.cons_append]
  have signed : sign l.chars = (false, l.chars) := by
    refine sign_of_digit fun d head => ?_
    rw [chars] at head
    cases head
    exact digit
  have range := isPlainDigit_iff.mp digit
  have first : lowerLetter c = c := by
    have capital : ('A' ≤ c && c ≤ 'Z') = false := by
      rw [Bool.and_eq_false_iff, decide_eq_false_iff_not]
      refine .inl fun least => ?_
      have least : 65 ≤ c.toNat := least
      omega
    simp [lowerLetter, capital]
  have other (word : List Char) (letter : ∀ d ∈ word.head?, isPlainDigit d = false)
      (some : word ≠ []) : String.ofList (l.chars.map lowerLetter) ≠ String.ofList word := by
    intro same
    have same := String.ofList_injective same
    rw [chars, List.map_cons, first] at same
    have stop := letter c (by rw [← same]; rfl)
    rw [digit] at stop
    cases stop
  have infinite := other ['i', 'n', 'f'] (by simp [isPlainDigit]) (by simp)
  have infinity := other ['i', 'n', 'f', 'i', 'n', 'i', 't', 'y'] (by simp [isPlainDigit]) (by simp)
  have nan := other ['n', 'a', 'n'] (by simp [isPlainDigit]) (by simp)
  have read := l.decimal?_chars
  unfold float?
  rw [plain_of_marks fun c member => l.mem_chars member]
  simp only [Option.bind_eq_bind, Option.bind_some, signed]
  rw [if_neg (not_or.mpr ⟨infinite, infinity⟩), if_neg nan, read]
  rfl

/-- Binary numbers that are not negative are read as they are written. -/
theorem float_text {x : Binary64} (finite : x.isFinite) (positive : x.isNegative = false) :
    float? x.text = some x := by
  cases x with
  | nan => cases finite
  | infinite negative => cases finite
  | finite negative significand power h =>
    cases positive
    obtain ⟨l, _, chars, nearest⟩ := Binary64.exists_layout h
    rw [Binary64.text, chars, float_layout, nearest]

/-- Whole binary numbers are read from plain digits. -/
theorem float_whole {significand power : Nat} (h : Binary64.Canonical significand power) {n : Nat}
    (whole : Binary64.units significand power = n * Binary64.one) :
    float? (natText n) = some (.finite false significand power h) := by
  let l : Layout := .fixed (natChars n) [] (natChars_ne_nil n) (natChars_plain n) (by simp)
  have chars : l.chars = natChars n := by
    simp [l, Layout.fixed, Layout.chars, Layout.partChars, Layout.exponentChars]
  have value : l.value = ⟨n, 0⟩ := by
    simp [l, Layout.fixed, Layout.value, Layout.power, digitsValue_natChars]
  have ratio : Decimal.ratio ⟨n, 0⟩ = (n, 1) := by simp [Decimal.ratio]
  rw [natText, ← chars, float_layout, value, Decimal.nearest_eq_ofRatio, ratio, Binary64.ofRatio,
    ← whole, Binary64.ofUnits_exact false h]

end Parley.Numeral
