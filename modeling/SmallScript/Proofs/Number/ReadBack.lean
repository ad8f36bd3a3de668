import SmallScript.Proofs.Number.Encoding
import SmallScript.Proofs.Token.LongestMatch

/-! # The text of a number reads back

`read?_text`: what is written for a finite number is read as that number, with its sign.

* `nearest_eq_ofFields`: a ratio that is a number's value is rounded to that number.  `unitOf` finds
  the number's power of two (`isLeast_unitOf`), and nothing is left to round.
* `toFloat_exact` and `toFloat_shortest`: so the exact decimal of a number reads back, and with it the
  shortest one, which is chosen among those that do.
* `read?_decimal`: reading the text of a decimal gives its digits and places again.
-/

namespace SmallScript.Decimal

open SmallScript.Number
open Float.Model.UnpackedFloat (Sign)

/-! ## The power of two -/

/-- The least positive number is `2 ^ (-lowest)`.  The power `2 ^ lowest` should never be computed. -/
@[irreducible] def lowest : Nat :=
  1074

theorem lowest_eq : lowest = 1074 := by
  unfold lowest
  rfl

/-- The scaled ratio is the ratio, times a power of two. -/
theorem inUnits_ratio (num den unit : Nat) :
    (inUnits num den unit).1 * (den * 2 ^ unit) = (inUnits num den unit).2 * (num * 2 ^ lowest) := by
  unfold inUnits
  rw [← lowest_eq]
  split_ifs with small
  · rw [← pow_sub_mul_pow 2 small, Nat.pow_eq]
    ring
  · rw [← pow_sub_mul_pow 2 (Nat.le_of_not_le small), Nat.pow_eq]
    ring

theorem inUnits_pos {den : Nat} (pos : 0 < den) (num unit : Nat) : 0 < (inUnits num den unit).2 := by
  unfold inUnits
  split_ifs
  · exact pos
  · exact Nat.mul_pos pos (Nat.two_pow_pos _)

theorem inUnits_lt_iff {num den : Nat} (pos : 0 < den) (unit : Nat) :
    (inUnits num den unit).1 < (inUnits num den unit).2 * 2 ^ 53 ↔
      num * 2 ^ lowest < den * 2 ^ unit * 2 ^ 53 := by
  have scale : 0 < den * 2 ^ unit := Nat.mul_pos pos (Nat.two_pow_pos _)
  rw [← Nat.mul_lt_mul_right scale, inUnits_ratio, Nat.mul_assoc,
    Nat.mul_lt_mul_left (inUnits_pos pos num unit), Nat.mul_comm (2 ^ 53)]

/-- The unit is the least one for which a ratio has fewer than 54 binary digits. -/
theorem isLeast_unitOf {num den : Nat} (numPos : 0 < num) (denPos : 0 < den) :
    IsLeast {unit | num * 2 ^ lowest < den * 2 ^ unit * 2 ^ 53} (unitOf num den) := by
  have low := lowest_eq
  have numLower := Nat.log2_self_le numPos.ne'
  have numUpper := @Nat.lt_log2_self num
  have denLower := Nat.log2_self_le denPos.ne'
  have denUpper := @Nat.lt_log2_self den
  unfold unitOf
  generalize guessed : num.log2 + 1074 - (den.log2 + 53) = guess
  -- by the binary digits of both sides alone, the guess is one too small at most, and never too large
  have enough : num * 2 ^ lowest < den * 2 ^ (guess + 1) * 2 ^ 53 := by
    calc num * 2 ^ lowest
      _ < 2 ^ (num.log2 + 1) * 2 ^ lowest := by gcongr
      _ = 2 ^ (num.log2 + 1 + lowest) := (pow_add _ _ _).symm
      _ ≤ 2 ^ (den.log2 + (guess + 1) + 53) := Nat.pow_le_pow_right (by omega) (by omega)
      _ = 2 ^ den.log2 * 2 ^ (guess + 1) * 2 ^ 53 := by rw [← pow_add, ← pow_add]
      _ ≤ den * 2 ^ (guess + 1) * 2 ^ 53 := by gcongr
  have tooFew {unit : Nat} (below : unit < guess) : den * 2 ^ unit * 2 ^ 53 ≤ num * 2 ^ lowest := by
    calc den * 2 ^ unit * 2 ^ 53
      _ ≤ 2 ^ (den.log2 + 1) * 2 ^ unit * 2 ^ 53 := by gcongr
      _ = 2 ^ (den.log2 + 1 + unit + 53) := by rw [← pow_add, ← pow_add]
      _ ≤ 2 ^ (num.log2 + lowest) := Nat.pow_le_pow_right (by omega) (by omega)
      _ = 2 ^ num.log2 * 2 ^ lowest := pow_add _ _ _
      _ ≤ num * 2 ^ lowest := by gcongr
  have least {unit : Nat} (member : num * 2 ^ lowest < den * 2 ^ unit * 2 ^ 53) : guess ≤ unit :=
    Nat.le_of_not_lt fun below => Nat.not_lt.mpr (tooFew below) member
  have test : _ ↔ num * 2 ^ lowest < den * 2 ^ guess * 2 ^ 53 := inUnits_lt_iff denPos guess
  dsimp only
  split_ifs with short
  · exact ⟨test.mp short, fun unit member => least member⟩
  · refine ⟨enough, fun unit member => Nat.lt_of_le_of_ne (least member) ?_⟩
    rintro rfl
    exact short (test.mpr member)

/-! ## The value of a number -/

/-- The significand that fields stand for. -/
def significand (e : BitVec 11) (m : BitVec 52) : Nat :=
  if e.toNat = 0 then m.toNat else 2 ^ 52 + m.toNat

/-- The power of two that fields stand for, counted so that the least one is 1. -/
def scale (e : BitVec 11) : Nat :=
  max e.toNat 1

theorem significand_lt (e : BitVec 11) (m : BitVec 52) : significand e m < 2 ^ 53 := by
  have bound := m.isLt
  unfold significand
  split_ifs <;> omega

theorem le_significand {e : BitVec 11} {m : BitVec 52} (above : 0 < scale e - 1) :
    2 ^ 52 ≤ significand e m := by
  unfold scale at above
  unfold significand
  split_ifs <;> omega

theorem encoding_eq (e : BitVec 11) (m : BitVec 52) :
    (scale e - 1) * 2 ^ 52 + significand e m = e.toNat * 2 ^ 52 + m.toNat := by
  unfold scale significand
  split_ifs with least <;> omega

theorem roundRatio_mul {den : Nat} (pos : 0 < den) (whole : Nat) : roundRatio (den * whole) den = whole := by
  unfold roundRatio
  rw [Nat.mul_div_cancel_left whole pos, Nat.mul_mod_right]
  exact if_neg (by omega)

/-- A whole number of units is not rounded. -/
theorem nearest_of_whole {num den unit whole : Nat} (measured : unitOf num den = unit) (pos : 0 < den)
    (exact : (inUnits num den unit).1 = (inUnits num den unit).2 * whole) :
    nearest num den = Float.ofBits (min (unit * 2 ^ 52 + whole) infinityBits).toUInt64 := by
  have unitPos := inUnits_pos pos num unit
  unfold nearest
  rw [measured]
  dsimp only
  rw [exact, roundRatio_mul unitPos, Nat.pow_eq]

section Fields

variable {s : Sign} {e : BitVec 11} {m : BitVec 52}

/-- The unit of a number's value is the number's own power of two. -/
theorem unitOf_eq {num den : Nat} (numPos : 0 < num) (denPos : 0 < den)
    (value : num * 2 ^ lowest = den * (significand e m * 2 ^ (scale e - 1))) :
    unitOf num den = scale e - 1 := by
  refine (isLeast_unitOf numPos denPos).unique ⟨?_, fun unit member => Nat.le_of_not_lt fun below => ?_⟩
  · have short := significand_lt e m
    change num * 2 ^ lowest < _
    calc num * 2 ^ lowest
      _ = den * (2 ^ (scale e - 1) * significand e m) := by rw [value, Nat.mul_comm (significand e m)]
      _ < den * (2 ^ (scale e - 1) * 2 ^ 53) := by gcongr
      _ = den * 2 ^ (scale e - 1) * 2 ^ 53 := (Nat.mul_assoc ..).symm
  · -- a power above the least one means that the first bit is set
    have first : 2 ^ 52 ≤ significand e m := le_significand (Nat.zero_lt_of_lt below)
    have step : unit + 1 ≤ scale e - 1 := below
    have notShort : den * 2 ^ unit * 2 ^ 53 ≤ num * 2 ^ lowest := by
      calc den * 2 ^ unit * 2 ^ 53
        _ = den * (2 ^ 52 * 2 ^ (unit + 1)) := by ring
        _ ≤ den * (significand e m * 2 ^ (scale e - 1)) := by gcongr; decide
        _ = num * 2 ^ lowest := value.symm
    exact Nat.not_lt.mpr notShort member

/-- The value of a number is rounded to that number. -/
theorem nearest_eq_ofFields (finite : e ≠ -1#11) {num den : Nat} (numPos : 0 < num) (denPos : 0 < den)
    (value : num * 2 ^ lowest = den * (significand e m * 2 ^ (scale e - 1))) :
    nearest num den = ofFields .positive e m := by
  have unit := unitOf_eq numPos denPos value
  have scalePos : 0 < den * 2 ^ (scale e - 1) := Nat.mul_pos denPos (Nat.two_pow_pos _)
  -- the quotient is exact, so nothing is rounded
  have whole : (inUnits num den (scale e - 1)).1 =
      (inUnits num den (scale e - 1)).2 * significand e m := by
    have ratio := inUnits_ratio num den (scale e - 1)
    rw [value] at ratio
    apply Nat.eq_of_mul_eq_mul_right scalePos
    rw [ratio]
    ring
  have exponent := exponent_lt finite
  have rest := m.isLt
  -- the fields are those of a finite number, so nothing is cut off at infinity
  have below : e.toNat * 2 ^ 52 + m.toNat ≤ infinityBits := by
    change _ ≤ 2047 * 2 ^ 52
    omega
  rw [nearest_of_whole unit denPos whole, encoding_eq, Nat.min_eq_left below]
  apply congrArg Float.ofBits
  rw [← UInt64.toNat_inj]
  simp only [UInt64.toNat_ofBitVec, toNat_word, Nat.toUInt64_eq, UInt64.toNat_ofNat', Sign.toBitVec,
    BitVec.toNat_ofNat]
  omega

/-! ## The decimals of a number -/

theorem toFloat_eq_nearest {d : Decimal} (pos : 0 < d.digits) (few : d.places ≤ d.digits.log2) :
    d.toFloat = nearest d.digits (10 ^ d.places) := by
  unfold toFloat scaled
  rw [if_neg (by omega), if_neg (by omega)]
  split_ifs with behind
  · rw [Int.natAbs_neg, Int.natAbs_natCast, Nat.pow_eq]
  · have none : d.places = 0 := by omega
    rw [none]
    simp

theorem exact_ofFields (finite : e ≠ -1#11) :
    exact (ofFields s e m) =
      if 1075 ≤ scale e then ⟨significand e m * 2 ^ (scale e - 1075), 0⟩
      else ⟨significand e m * 5 ^ (1075 - scale e), 1075 - scale e⟩ := by
  have exponent := e.isLt
  have rest := m.isLt
  have fraction : (ofFields s e m).toBits.toNat % Nat.pow 2 52 = m.toNat := by
    rw [toNat_toBits_ofFields finite, Nat.pow_eq]
    omega
  have power : (ofFields s e m).toBits.toNat / Nat.pow 2 52 % Nat.pow 2 11 = e.toNat := by
    rw [toNat_toBits_ofFields finite, Nat.pow_eq, Nat.pow_eq]
    omega
  simp only [exact, fraction, power]
  rfl

/-- The exact decimal has the value of the number. -/
theorem exact_value (finite : e ≠ -1#11) :
    (exact (ofFields s e m)).digits * 2 ^ lowest =
      10 ^ (exact (ofFields s e m)).places * (significand e m * 2 ^ (scale e - 1)) := by
  have low := lowest_eq
  have positive : 1 ≤ scale e := le_max_right _ _
  rw [exact_ofFields finite]
  split_ifs with large
  · have power : scale e - 1 = scale e - 1075 + lowest := by omega
    rw [power, pow_add]
    ring
  · have power : lowest = 1075 - scale e + (scale e - 1) := by omega
    have ten : 10 ^ (1075 - scale e) = 5 ^ (1075 - scale e) * 2 ^ (1075 - scale e) :=
      mul_pow 5 2 (1075 - scale e)
    rw [power, pow_add, ten]
    ring

theorem exact_places_le (finite : e ≠ -1#11) (nonzero : 0 < significand e m) :
    (exact (ofFields s e m)).places ≤ (exact (ofFields s e m)).digits.log2 := by
  rw [exact_ofFields finite]
  split_ifs
  · exact Nat.zero_le _
  · rw [Nat.le_log2 (by positivity)]
    calc 2 ^ (1075 - scale e)
      _ ≤ 5 ^ (1075 - scale e) := Nat.pow_le_pow_left (by decide) _
      _ ≤ significand e m * 5 ^ (1075 - scale e) := Nat.le_mul_of_pos_left _ nonzero

theorem exact_digits_pos (finite : e ≠ -1#11) (nonzero : 0 < significand e m) :
    0 < (exact (ofFields s e m)).digits := by
  rw [exact_ofFields finite]
  split_ifs <;> positivity

/-- Zero has no digits, and is read as the zero without a sign. -/
theorem toFloat_exact_zero (finite : e ≠ -1#11) (zero : significand e m = 0) :
    (exact (ofFields s e m)).toFloat = ofFields .positive e m := by
  have noDigits : (exact (ofFields s e m)).digits = 0 := by
    rw [exact_ofFields finite, zero]
    split_ifs <;> exact Nat.zero_mul _
  have fields : e = 0#11 ∧ m = 0#52 := by
    unfold significand at zero
    split_ifs at zero with least
    · exact ⟨BitVec.eq_of_toNat_eq least, BitVec.eq_of_toNat_eq zero⟩
    · omega
  obtain ⟨rfl, rfl⟩ := fields
  rw [toFloat, scaled, if_pos (.inl noDigits)]
  rfl

theorem toFloat_exact {x : Float} (finite : x.isFinite = true) : (exact x).toFloat = x.abs := by
  obtain ⟨s, e, m, fields, rfl⟩ := exists_ofFields finite
  rw [abs_ofFields fields]
  rcases Nat.eq_zero_or_pos (significand e m) with zero | nonzero
  · exact toFloat_exact_zero fields zero
  · have digits := exact_digits_pos (s := s) fields nonzero
    rw [toFloat_eq_nearest digits (exact_places_le fields nonzero)]
    exact nearest_eq_ofFields fields digits (by positivity) (exact_value fields)

end Fields

theorem toFloat_of_neighbour? {d neighbour : Decimal} {x : Float} {dropped : Nat}
    (found : d.neighbour? x dropped = some neighbour) : neighbour.toFloat = x := by
  unfold neighbour? at found
  dsimp only at found
  split_ifs at found with below both above
  · cases found
    exact both.1
  · cases found
    exact below
  · cases found
    exact above

theorem toFloat_shortest {x : Float} (finite : x.isFinite = true) : (shortest x).toFloat = x.abs := by
  unfold shortest
  dsimp only
  cases found : (List.range (exact x).size).findSome? fun i =>
      (exact x).neighbour? x.abs ((exact x).size - (i + 1)) with
  | none => exact toFloat_exact finite
  | some d =>
    obtain ⟨i, -, hit⟩ := List.exists_of_findSome?_eq_some found
    exact toFloat_of_neighbour? hit

/-! ## Texts -/

theorem natOfDigits_zeros (count : Nat) (digits : List Char) :
    natOfDigits (List.replicate count '0' ++ digits) = natOfDigits digits := by
  induction count with
  | zero => rfl
  | succ count ih => exact ih

theorem places_lt_length_padded (d : Decimal) : d.places < d.padded.length := by
  rw [padded, List.length_append, List.length_replicate]
  omega

theorem isDigit_of_mem_padded {d : Decimal} {c : Char} (member : c ∈ d.padded) : c.isDigit = true := by
  rcases List.mem_append.mp member with zero | written
  · rw [List.eq_of_mem_replicate zero]
    rfl
  · exact Nat.isDigit_of_mem_toDigits (by decide) (by decide) written

theorem natOfDigits_padded (d : Decimal) : natOfDigits d.padded = d.digits := by
  rw [padded, natOfDigits_zeros]
  exact Nat.ofDigitChars_ten_toDigits

/-- The text of a decimal: the digits in front of the point and those behind it, if there are any. -/
theorem exists_spelling (d : Decimal) :
    ∃ whole fraction : List Char, whole ≠ [] ∧ (∀ c ∈ whole, c.isDigit = true) ∧
      (∀ c ∈ fraction, c.isDigit = true) ∧ ofDigits whole fraction = d ∧
      d.text.toList = if fraction = [] then whole else whole ++ '.' :: fraction := by
  have long := places_lt_length_padded d
  have behind : (d.padded.drop (d.padded.length - d.places)).length = d.places := by
    rw [List.length_drop]
    omega
  refine ⟨d.padded.take (d.padded.length - d.places), d.padded.drop (d.padded.length - d.places), ?_,
    fun c member => isDigit_of_mem_padded (List.mem_of_mem_take member),
    fun c member => isDigit_of_mem_padded (List.mem_of_mem_drop member), ?_, ?_⟩
  · apply List.ne_nil_of_length_pos
    rw [List.length_take]
    omega
  · rw [ofDigits, List.take_append_drop, behind, natOfDigits_padded]
  · have noneBehind : d.padded.drop (d.padded.length - d.places) = [] ↔ d.places = 0 := by
      rw [← List.length_eq_zero_iff, behind]
    simp only [text, noneBehind]
    split_ifs <;> simp

theorem exists_first_digit (d : Decimal) : ∃ c cs, c.isDigit = true ∧ d.text.toList = c :: cs := by
  obtain ⟨whole, fraction, some, digits, -, -, spelled⟩ := d.exists_spelling
  obtain ⟨c, cs, rfl⟩ := List.exists_cons_of_ne_nil some
  rw [spelled]
  split_ifs
  · exact ⟨c, cs, digits c List.mem_cons_self, rfl⟩
  · exact ⟨c, cs ++ '.' :: fraction, digits c List.mem_cons_self, rfl⟩

theorem read?_decimal (d : Decimal) : Number.read? d.text.toList = some d.toFloat := by
  obtain ⟨whole, fraction, some, digits, digitsBehind, same, spelled⟩ := d.exists_spelling
  rw [spelled, ← same]
  split_ifs with none
  · rw [none]
    exact Token.read?_whole some digits
  · exact Token.read?_fraction some digits digitsBehind

end SmallScript.Decimal

namespace SmallScript.Number

open Float.Model (UnpackedFloat)

theorem read?_minus {c : Char} {cs : List Char} (digit : c.isDigit = true) :
    read? ('-' :: c :: cs) = (read? (c :: cs)).map (-·) := by
  rw [Token.read?_eq_ofDigits? digit]
  simp only [read?, signed, Token.ofWord?_of_isDigit digit]
  cases ofDigits? (c :: cs) <;> rfl

theorem text_of_isFinite {x : Float} (finite : x.isFinite = true) :
    text x = if isNegative x then "-" ++ (Decimal.shortest x).text else (Decimal.shortest x).text := by
  have digits : x.isNaN = false ∧ x.isInf = false := by
    unfold Float.isFinite Float.Model.isFinite at finite
    unfold Float.isNaN Float.isInf Float.Model.isNaN Float.Model.isInf
    cases unpacked : x.toModel.unpack with
    | infinity => simp [unpacked, UnpackedFloat.isFinite] at finite
    | notANumber => simp [unpacked, UnpackedFloat.isFinite] at finite
    | zero => exact ⟨rfl, rfl⟩
    | finite => exact ⟨rfl, rfl⟩
  simp only [text, digits, Bool.false_eq_true, if_false]

/-- A finite number is read back from its text, with its sign. -/
theorem read?_text {x : Float} (finite : x.isFinite = true) : read? (text x).toList = some x := by
  have magnitude := Decimal.read?_decimal (Decimal.shortest x)
  obtain ⟨c, cs, digit, first⟩ := (Decimal.shortest x).exists_first_digit
  rw [Decimal.toFloat_shortest finite, first] at magnitude
  rw [text_of_isFinite finite]
  obtain ⟨s, e, m, fields, rfl⟩ := exists_ofFields finite
  rw [abs_ofFields fields] at magnitude
  have sign := isNegative_ofFields (s := s) (m := m) fields
  cases s with
  | negative =>
    rw [if_pos (sign.mpr rfl), String.toList_append, first]
    change read? ('-' :: c :: cs) = _
    rw [read?_minus digit, magnitude, Option.map_some, neg_ofFields fields]
    rfl
  | positive =>
    rw [if_neg (fun minus => nomatch sign.mp minus), first, magnitude]

end SmallScript.Number
