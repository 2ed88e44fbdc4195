import Parley.Expr.Terminal
import Parley.Proofs.Number.Digits
import Parley.Proofs.Number.Rounding

/-!
The layout of numerals: digits, digits behind a point, and an exponent. A binary number is written
in such a layout, from which it is read as it was.
-/
namespace Parley

namespace Numeral

/-- The parts of a numeral. A point is written in front of further digits only. -/
structure Layout where
  whole : List Char
  part : List Char
  exponent : Option (Bool × List Char)
  some_whole : whole ≠ []
  whole_digits : ∀ c ∈ whole, isPlainDigit c
  part_digits : ∀ c ∈ part, isPlainDigit c
  exponent_digits : ∀ x ∈ exponent, x.2 ≠ [] ∧ ∀ c ∈ x.2, isPlainDigit c

namespace Layout

def partChars (l : Layout) : List Char := if l.part = [] then [] else '.' :: l.part

def exponentChars (l : Layout) : List Char :=
  match l.exponent with
  | none => []
  | some (negative, digits) => 'e' :: (if negative then '-' else '+') :: digits

def chars (l : Layout) : List Char := l.whole ++ (l.partChars ++ l.exponentChars)

def power (l : Layout) : Int :=
  match l.exponent with
  | none => 0
  | some (negative, digits) =>
      let n : Int := digitsValue (digitsOf digits)
      if negative then -n else n

def value (l : Layout) : Decimal :=
  ⟨digitsValue (digitsOf (l.whole ++ l.part)), l.power - l.part.length⟩

/-- Whether a numeral is marked as one of a number that need not be whole. -/
def Marked (l : Layout) : Prop := l.part ≠ [] ∨ l.exponent.isSome

theorem exponent?_exponentChars (l : Layout) : exponent? l.exponentChars = some l.power := by
  unfold exponentChars power
  cases found : l.exponent with
  | none => rfl
  | some x =>
    obtain ⟨negative, digits⟩ := x
    obtain ⟨some_digits, all⟩ := l.exponent_digits _ found
    have run := digitRun_all all
    have not_empty : (digitsOf digits).isEmpty = false := by
      simpa [digitsOf] using some_digits
    cases negative <;> simp [exponent?, sign, run, not_empty]

theorem head_exponentChars (l : Layout) :
    ∀ c ∈ l.exponentChars.head?, isPlainDigit c = false := by
  unfold exponentChars
  cases l.exponent with
  | none => simp
  | some x =>
    intro c first
    cases first
    rfl

theorem decimal?_chars (l : Layout) : decimal? l.chars = some l.value := by
  have head : ∀ c ∈ (l.partChars ++ l.exponentChars).head?, isPlainDigit c = false := by
    unfold partChars
    split
    · exact l.head_exponentChars
    · intro c first
      cases first
      rfl
  have part : fraction (l.partChars ++ l.exponentChars) = (digitsOf l.part, l.exponentChars) := by
    unfold partChars
    split
    · rename_i none
      rw [none]
      unfold exponentChars
      cases l.exponent <;> rfl
    · exact digitRun_append l.part_digits l.head_exponentChars
  have some_digits : (digitsOf l.whole).isEmpty = false := by
    simpa [digitsOf] using l.some_whole
  have length : (digitsOf l.part).length = l.part.length := List.length_map _
  rw [decimal?, chars, digitRun_append l.whole_digits head]
  simp [part, some_digits, exponent?_exponentChars, value, digitsOf_append, length]

end Layout

/-- Whether no numeral goes on with a text: it starts neither with a digit nor with an exponent, and
no digit stands behind a point at its start. -/
def Ends : List Char → Prop
  | [] => True
  | c :: rest => isDecimalDigit c = false ∧ c ≠ 'e' ∧ c ≠ 'E' ∧
      (c = '.' → ∀ d ∈ rest.head?, isDecimalDigit d = false)

open Terminal

theorem digitCount_append {cs rest : List Char} (digits : ∀ c ∈ cs, isPlainDigit c)
    (stop : ∀ c ∈ rest.head?, isDecimalDigit c = false) : digitCount (cs ++ rest) = cs.length := by
  have all : ∀ c ∈ cs, isDecimalDigit c :=
    fun c member => isDecimalDigit_of_isPlainDigit (digits c member)
  rw [digitCount, List.takeWhile_append_of_pos all]
  cases rest with
  | nil => simp
  | cons c more => simp [stop c rfl]

theorem Ends.head {rest : List Char} (ends : Ends rest) :
    ∀ c ∈ rest.head?, isDecimalDigit c = false := by
  cases rest with
  | nil => simp
  | cons c more => simpa using ends.1

theorem Ends.fractionLength {rest : List Char} (ends : Ends rest) : fractionLength rest = 0 := by
  unfold Terminal.fractionLength
  split
  · rename_i more
    have behind := ends.2.2.2 rfl
    have none : digitCount more = 0 := by
      rw [digitCount]
      cases more with
      | nil => rfl
      | cons d others => simp [behind d rfl]
    rw [if_pos none]
  · rfl

theorem Ends.exponentLength {rest : List Char} (ends : Ends rest) : exponentLength rest = 0 := by
  cases rest with
  | nil => rfl
  | cons c more =>
    unfold Terminal.exponentLength
    dsimp only
    rw [if_neg]
    rintro (small | capital)
    · exact ends.2.1 small
    · exact ends.2.2.1 capital

namespace Layout

theorem exponentLength_exponentChars (l : Layout) {rest : List Char} (ends : Ends rest) :
    exponentLength (l.exponentChars ++ rest) = l.exponentChars.length := by
  unfold exponentChars
  cases found : l.exponent with
  | none => exact ends.exponentLength
  | some x =>
    obtain ⟨negative, digits⟩ := x
    obtain ⟨some_digits, all⟩ := l.exponent_digits _ found
    have count : digitCount (digits ++ rest) = digits.length := digitCount_append all ends.head
    have not_none : digits.length ≠ 0 := by simpa using some_digits
    cases negative <;> simp [exponentLength, count, some_digits] <;> omega

/-- An exponent, or what follows a numeral, is neither a digit nor a fraction. -/
theorem ends_exponentChars (l : Layout) {rest : List Char} (ends : Ends rest) :
    (∀ c ∈ (l.exponentChars ++ rest).head?, isDecimalDigit c = false) ∧
      fractionLength (l.exponentChars ++ rest) = 0 := by
  unfold exponentChars
  cases l.exponent with
  | none => exact ⟨ends.head, ends.fractionLength⟩
  | some x =>
    constructor
    · intro c first
      cases first
      decide
    · rfl

theorem fractionLength_partChars (l : Layout) {rest : List Char} (ends : Ends rest) :
    (∀ c ∈ (l.partChars ++ (l.exponentChars ++ rest)).head?, isDecimalDigit c = false) ∧
      fractionLength (l.partChars ++ (l.exponentChars ++ rest)) = l.partChars.length := by
  obtain ⟨head, none_behind⟩ := l.ends_exponentChars ends
  unfold partChars
  split
  · exact ⟨head, none_behind⟩
  · rename_i some_part
    have count : digitCount (l.part ++ (l.exponentChars ++ rest)) = l.part.length :=
      digitCount_append l.part_digits head
    constructor
    · intro c first
      cases first
      decide
    · simp [fractionLength, count, some_part]

/-- A numeral is cut off a text as a whole. -/
theorem numberLength_chars (l : Layout) {rest : List Char} (ends : Ends rest) :
    numberLength (l.chars ++ rest) = l.chars.length := by
  obtain ⟨head, part⟩ := l.fractionLength_partChars ends
  have exponent := l.exponentLength_exponentChars ends
  have text : l.chars ++ rest = l.whole ++ (l.partChars ++ (l.exponentChars ++ rest)) := by
    simp [chars]
  have whole : digitCount (l.chars ++ rest) = l.whole.length := by
    rw [text]
    exact digitCount_append l.whole_digits head
  unfold numberLength
  dsimp only
  rw [whole, text, List.drop_left, part, ← List.drop_drop, List.drop_left, List.drop_left, exponent]
  simp [chars, Nat.add_assoc]

/-- Numerals have nothing but digits, a point and an exponent with a sign. -/
theorem mem_chars {l : Layout} {c : Char} (member : c ∈ l.chars) :
    isPlainDigit c ∨ c = '.' ∨ c = 'e' ∨ c = '+' ∨ c = '-' := by
  rcases List.mem_append.mp member with whole | member
  · exact .inl (l.whole_digits c whole)
  rcases List.mem_append.mp member with part | exponent
  · unfold partChars at part
    split at part
    · cases part
    · rcases List.mem_cons.mp part with point | digit
      · exact .inr (.inl point)
      · exact .inl (l.part_digits c digit)
  · unfold exponentChars at exponent
    cases found : l.exponent with
    | none => simp [found] at exponent
    | some x =>
      obtain ⟨negative, digits⟩ := x
      obtain ⟨_, all⟩ := l.exponent_digits _ found
      simp only [found, List.mem_cons] at exponent
      rcases exponent with mark | sign | digit
      · exact .inr (.inr (.inl mark))
      · cases negative
        · exact .inr (.inr (.inr (.inl sign)))
        · exact .inr (.inr (.inr (.inr sign)))
      · exact .inl (all c digit)

theorem plainDigits_chars (l : Layout) : plainDigits l.chars = l.chars := by
  apply plainDigits_of_plain
  intro c member
  rcases mem_chars member with digit | rfl | rfl | rfl | rfl
  · exact .inl digit
  all_goals exact .inr (by decide)

/-- A marked numeral writes a binary number. -/
theorem numberLiteral_chars (l : Layout) (marked : l.Marked) :
    numberLiteral l.chars = .float (l.value.nearest false) := by
  have mark : l.chars.any (fun c => c == '.' || c == 'e' || c == 'E') = true := by
    rw [List.any_eq_true]
    rcases marked with part | exponent
    · exact ⟨'.', by simp [chars, partChars, part], rfl⟩
    · obtain ⟨x, found⟩ := Option.isSome_iff_exists.mp exponent
      exact ⟨'e', by simp [chars, exponentChars, found], rfl⟩
  rw [numberLiteral, mark, plainDigits_chars, decimal?_chars]
  rfl

end Layout

end Numeral

open Numeral

/-- The digits of a number are others and zeros behind them. -/
theorem exists_stripped (n : Nat) (positive : n ≠ 0) :
    ∃ (s : List Char) (k : Nat), s ≠ [] ∧ (∀ c ∈ s, isPlainDigit c) ∧
      ((natChars n).reverse.dropWhile (· == '0')).reverse = s ∧
        (natChars n).length = s.length + k ∧ n = digitsValue (digitsOf s) * Nat.pow 10 k := by
  let zeros := (natChars n).reverse.takeWhile (· == '0')
  let others := (natChars n).reverse.dropWhile (· == '0')
  have all_zero : zeros = List.replicate zeros.length '0' := by
    refine List.eq_replicate_iff.mpr ⟨rfl, fun c member => ?_⟩
    simpa using List.all_eq_true.mp List.all_takeWhile c member
  have whole : natChars n = others.reverse ++ List.replicate zeros.length '0' := by
    have split : zeros ++ others = (natChars n).reverse := List.takeWhile_append_dropWhile
    rw [← List.reverse_reverse (natChars n), ← split, List.reverse_append]
    rw [all_zero, List.reverse_replicate, List.length_replicate]
  have value : n = digitsValue (digitsOf others.reverse) * 10 ^ zeros.length := by
    have read := digitsValue_natChars n
    rw [whole, digitsOf_append, digitsValue_append, digitsOf_zeros, digitsValue_zeros,
      List.length_replicate, Nat.add_zero] at read
    exact read.symm
  refine ⟨others.reverse, zeros.length, ?_, ?_, rfl, ?_, value⟩
  · intro none
    apply positive
    rw [value, none]
    simp [digitsOf, digitsValue]
  · intro c member
    apply natChars_plain n
    rw [whole]
    exact List.mem_append_left _ member
  · rw [whole, List.length_append, List.length_replicate]

theorem replicate_zero_plain (n : Nat) : ∀ c ∈ List.replicate n '0', isPlainDigit c := by
  intro c member
  rw [List.eq_of_mem_replicate member]
  rfl

/-- A layout without an exponent. -/
def Numeral.Layout.fixed (whole part : List Char) (some_whole : whole ≠ [])
    (whole_digits : ∀ c ∈ whole, isPlainDigit c) (part_digits : ∀ c ∈ part, isPlainDigit c) :
    Layout :=
  ⟨whole, part, none, some_whole, whole_digits, part_digits, by simp⟩

/-- A number whose point stands in front of its digits. -/
theorem exists_layout_below {s : List Char} (some_digits : s ≠ [])
    (digits : ∀ c ∈ s, isPlainDigit c) {point : Int} (before : point ≤ 0) :
    ∃ l : Layout, l.Marked ∧ ['0', '.'] ++ List.replicate (-point).toNat '0' ++ s = l.chars ∧
      l.value.nearest false =
        Decimal.nearest false ⟨digitsValue (digitsOf s), point - s.length⟩ := by
  have part_digits : ∀ c ∈ List.replicate (-point).toNat '0' ++ s, isPlainDigit c := by
    intro c member
    rcases List.mem_append.mp member with zero | digit
    · exact replicate_zero_plain _ c zero
    · exact digits c digit
  refine ⟨.fixed ['0'] (List.replicate (-point).toNat '0' ++ s) (by simp) (by decide) part_digits,
    ?_, ?_, ?_⟩
  · exact .inl (by simp [Layout.fixed, some_digits])
  · simp [Layout.fixed, Layout.chars, Layout.partChars, Layout.exponentChars, some_digits]
  -- zeros in front of the digits count nothing
  · have value : digitsValue (digitsOf (['0'] ++ (List.replicate (-point).toNat '0' ++ s))) =
        digitsValue (digitsOf s) := by
      rw [← List.append_assoc, digitsOf_append, digitsValue_append]
      have zeros := digitsValue_zeros ((-point).toNat + 1)
      rw [← digitsOf_zeros, List.replicate_succ] at zeros
      rw [List.singleton_append, zeros, Nat.zero_mul, Nat.zero_add]
    have places : (0 : Int) - (List.replicate (-point).toNat '0' ++ s).length =
        point - s.length := by
      rw [List.length_append, List.length_replicate]
      omega
    simp only [Layout.fixed, Layout.value, Layout.power, value, places]

/-- A number whose point stands behind its digits. -/
theorem exists_layout_whole {s : List Char} (some_digits : s ≠ [])
    (digits : ∀ c ∈ s, isPlainDigit c) {point : Int} (after : 0 < point)
    (behind : s.length ≤ point.toNat) :
    ∃ l : Layout, l.Marked ∧
      s ++ List.replicate (point.toNat - s.length) '0' ++ ['.', '0'] = l.chars ∧
        l.value.nearest false =
          Decimal.nearest false ⟨digitsValue (digitsOf s), point - s.length⟩ := by
  have whole_digits : ∀ c ∈ s ++ List.replicate (point.toNat - s.length) '0', isPlainDigit c := by
    intro c member
    rcases List.mem_append.mp member with digit | zero
    · exact digits c digit
    · exact replicate_zero_plain _ c zero
  refine ⟨.fixed (s ++ List.replicate (point.toNat - s.length) '0') ['0'] (by simp [some_digits])
    whole_digits (by decide), ?_, ?_, ?_⟩
  · exact .inl (by simp [Layout.fixed])
  · simp [Layout.fixed, Layout.chars, Layout.partChars, Layout.exponentChars]
  · have value : digitsValue (digitsOf (s ++ List.replicate (point.toNat - s.length) '0' ++ ['0']))
        = digitsValue (digitsOf s) * Nat.pow 10 (point.toNat - s.length + 1) := by
      rw [List.append_assoc, ← List.replicate_succ', digitsOf_append, digitsValue_append,
        digitsOf_zeros, digitsValue_zeros, List.length_replicate]
      rfl
    have places : (0 : Int) - (['0'] : List Char).length +
        ((point.toNat - s.length + 1 : Nat) : Int) = point - s.length := by
      simp only [List.length_singleton]
      omega
    simp only [Layout.fixed, Layout.value, Layout.power, value, Decimal.nearest_shift, places]

/-- A number whose point stands among its digits. -/
theorem exists_layout_among {s : List Char} (digits : ∀ c ∈ s, isPlainDigit c) {point : Int}
    (after : 0 < point) (within : point.toNat < s.length) :
    ∃ l : Layout, l.Marked ∧ s.take point.toNat ++ ['.'] ++ s.drop point.toNat = l.chars ∧
      l.value.nearest false =
        Decimal.nearest false ⟨digitsValue (digitsOf s), point - s.length⟩ := by
  have some_whole : s.take point.toNat ≠ [] := by
    rw [Ne, List.take_eq_nil_iff]
    rintro (none | rfl)
    · omega
    · rw [List.length_nil] at within
      omega
  have some_part : s.drop point.toNat ≠ [] := by
    rw [Ne, List.drop_eq_nil_iff]
    omega
  refine ⟨.fixed (s.take point.toNat) (s.drop point.toNat) some_whole
    (fun c member => digits c (List.mem_of_mem_take member))
    (fun c member => digits c (List.mem_of_mem_drop member)), ?_, ?_, ?_⟩
  · exact .inl some_part
  · simp [Layout.fixed, Layout.chars, Layout.partChars, Layout.exponentChars, some_part]
  · have places : (0 : Int) - (s.drop point.toNat).length = point - s.length := by
      rw [List.length_drop]
      omega
    simp only [Layout.fixed, Layout.value, Layout.power, List.take_append_drop, places]

/-- Digits in positional notation count as much as with an exponent. -/
theorem exists_layout_positional {s : List Char} (some_digits : s ≠ [])
    (digits : ∀ c ∈ s, isPlainDigit c) (point : Int) :
    ∃ l : Layout, l.Marked ∧ positional s point = l.chars ∧
      l.value.nearest false =
        Decimal.nearest false ⟨digitsValue (digitsOf s), point - s.length⟩ := by
  unfold positional
  split
  · rename_i before
    exact exists_layout_below some_digits digits before
  · rename_i after
    split
    · rename_i behind
      exact exists_layout_whole some_digits digits (Int.not_le.mp after) behind
    · rename_i within
      exact exists_layout_among digits (Int.not_le.mp after) (Nat.not_le.mp within)

theorem exists_layout_scientific {s : List Char} (some_digits : s ≠ [])
    (digits : ∀ c ∈ s, isPlainDigit c) (exponent : Int) :
    ∃ l : Layout, l.Marked ∧ scientific s exponent = l.chars ∧
      l.value.nearest false =
        Decimal.nearest false ⟨digitsValue (digitsOf s), exponent + 1 - s.length⟩ := by
  let shown := natChars exponent.natAbs
  let padded := List.replicate (2 - shown.length) '0' ++ shown
  have padded_digits : ∀ c ∈ padded, isPlainDigit c := by
    intro c member
    rcases List.mem_append.mp member with zero | digit
    · exact replicate_zero_plain _ c zero
    · exact natChars_plain _ c digit
  have some_padded : padded ≠ [] := by simp [padded, shown, natChars_ne_nil]
  have value : digitsValue (digitsOf padded) = exponent.natAbs := by
    rw [digitsOf_append, digitsValue_append, digitsOf_zeros, digitsValue_zeros, Nat.zero_mul,
      Nat.zero_add, digitsValue_natChars]
  have length : 1 ≤ s.length := List.length_pos_iff.mpr some_digits
  refine ⟨⟨s.take 1, s.drop 1, some (decide (exponent < 0), padded), ?_, ?_, ?_, ?_⟩, ?_, ?_, ?_⟩
  · simpa using some_digits
  · exact fun c member => digits c (List.mem_of_mem_take member)
  · exact fun c member => digits c (List.mem_of_mem_drop member)
  · intro x here
    cases here
    exact ⟨some_padded, padded_digits⟩
  · exact .inr rfl
  · simp only [scientific, Layout.chars, Layout.partChars, Layout.exponentChars]
    cases s.drop 1 <;> simp [padded, shown]
  · have power : (if exponent < 0 then -(exponent.natAbs : Int) else exponent.natAbs) =
        exponent := by
      split <;> omega
    have places : exponent - (s.drop 1).length = exponent + 1 - s.length := by
      rw [List.length_drop]
      omega
    simp only [Layout.value, Layout.power, List.take_append_drop, value, decide_eq_true_eq, power,
      places]

/-- The numeral of a decimal, which may be laid out in several ways but is always marked and has the
value of the decimal. -/
theorem exists_layout {d : Decimal} (some_digits : d.digits ≠ 0) :
    ∃ l : Layout, l.Marked ∧ decimalChars d = l.chars ∧
      l.value.nearest false = d.nearest false := by
  obtain ⟨digits, exponent⟩ := d
  obtain ⟨s, k, some_left, left_digits, stripped, length, value⟩ :=
    exists_stripped digits some_digits
  have same : Decimal.nearest false ⟨digits, exponent⟩ =
      Decimal.nearest false ⟨digitsValue (digitsOf s), exponent + k⟩ := by
    rw [value, Decimal.nearest_shift]
  unfold decimalChars
  simp only [stripped, length]
  split
  · obtain ⟨l, marked, chars, nearest⟩ :=
      exists_layout_positional some_left left_digits ((s.length + k : Nat) + exponent)
    refine ⟨l, marked, chars, ?_⟩
    rw [nearest, same]
    congr 2
    omega
  · obtain ⟨l, marked, chars, nearest⟩ :=
      exists_layout_scientific some_left left_digits ((s.length + k : Nat) + exponent - 1)
    refine ⟨l, marked, chars, ?_⟩
    rw [nearest, same]
    congr 2
    omega

/-- A finite number that is not negative is written as a marked numeral of it. -/
theorem Binary64.exists_layout {significand power : Nat} (h : Canonical significand power) :
    ∃ l : Layout, l.Marked ∧ (finite false significand power h).chars = l.chars ∧
      l.value.nearest false = finite false significand power h := by
  by_cases none : significand = 0
  · subst none
    have least : power = 0 := h.normal.resolve_left (by decide)
    subst least
    exact ⟨.fixed ['0'] ['0'] (by decide) (by decide) (by decide), .inl (by decide), rfl, rfl⟩
  · have reads_back := Decimal.nearest_shortest h
    have some_digits : (Decimal.shortest significand power h).digits ≠ 0 := by
      intro no_digits
      rw [Decimal.nearest, if_pos (.inl no_digits), zero] at reads_back
      cases reads_back
      exact none rfl
    obtain ⟨l, marked, chars, nearest⟩ := Parley.exists_layout some_digits
    refine ⟨l, marked, ?_, nearest.trans reads_back⟩
    simp only [Binary64.chars, signChars, none, if_false, chars]
    rfl

end Parley
