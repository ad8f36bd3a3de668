import SmallScript.Number
import Mathlib

/-! # The encodings of finite numbers

The encoding of a number has three fields: a sign, a power of two and a significand without its first
bit.  A number is finite unless every bit of the second field is set, and it is then given by its
fields: `exists_ofFields`.  A minus and the magnitude change the first field only.
-/

namespace SmallScript.Number

open Float.Model (Format UnpackedFloat)
open Float.Model.UnpackedFloat

section Words

variable (s : Sign) (e : BitVec 11) (m : BitVec 52)

def word : BitVec 64 :=
  packComponents .binary64 s e m

theorem toNat_word : (word s e m).toNat = s.toBitVec.toNat * 2 ^ 63 + e.toNat * 2 ^ 52 + m.toNat := by
  have outer := Nat.shiftLeft_add_eq_or_of_lt m.isLt (s.toBitVec ++ e).toNat
  have inner := Nat.shiftLeft_add_eq_or_of_lt e.isLt s.toBitVec.toNat
  rw [word, packComponents, BitVec.toNat_append, ← outer, BitVec.toNat_append, ← inner,
    Nat.shiftLeft_eq, Nat.shiftLeft_eq]
  omega

theorem exists_word (w : BitVec 64) : ∃ s e m, w = word s e m := by
  have bound := w.isLt
  refine ⟨if w.toNat < 2 ^ 63 then .positive else .negative, .ofNat 11 (w.toNat / 2 ^ 52),
    .ofNat 52 w.toNat, BitVec.eq_of_toNat_eq ?_⟩
  rw [toNat_word, BitVec.toNat_ofNat, BitVec.toNat_ofNat]
  split_ifs <;> simp only [Sign.toBitVec, BitVec.toNat_ofNat] <;> omega

theorem sign_word : Sign.ofBitVec (@unpackSign .binary64 (word s e m)) = s := by
  have field : (@unpackSign .binary64 (word s e m)).toNat = s.toBitVec.toNat := by
    have upper := s.toBitVec.isLt
    simp only [unpackSign, BitVec.toNat_cast, BitVec.extractLsb_toNat, toNat_word,
      Nat.shiftRight_eq_div_pow]
    omega
  rw [BitVec.eq_of_toNat_eq field]
  cases s <;> rfl

/-- What a word denotes. -/
theorem unpack_word :
    unpack .binary64 (word s e m) =
      if e = -1#11 then if m = 0#52 then .infinity s else .notANumber
      else if e = 0#11 then
        if positive : 0 < m.toNat then .finite s m.toNat (-1074) positive else .zero s
      else .finite s (2 ^ 52 + m.toNat) (e.toNat - 1075) (by omega) := by
  have exponent : @unpackExponent .binary64 (word s e m) = e := unpackExponent_packComponents
  have mantissa : @unpackMantissa .binary64 (word s e m) = m := unpackMantissa_packComponents
  have withFirst : (1#1 ++ m).toNat = 2 ^ 52 + m.toNat := by
    rw [BitVec.toNat_append, ← Nat.shiftLeft_add_eq_or_of_lt m.isLt]
    rfl
  have bias : ((Format.exponentBias .binary64 : Int) + (52 : Nat)) = 1075 := rfl
  have none : m = 0#52 ↔ ¬ 0 < m.toNat := by
    rw [← BitVec.toNat_inj]
    simp
  simp only [unpack, exponent, mantissa, sign_word, withFirst, bias]
  split_ifs with _ _ least <;> simp_all

theorem neg_unpack_word :
    (unpack .binary64 (word s e m)).neg = unpack .binary64 (word (-s) e m) := by
  rw [unpack_word, unpack_word]
  split_ifs <;> rfl

theorem abs_unpack_word :
    (unpack .binary64 (word s e m)).abs = unpack .binary64 (word .positive e m) := by
  rw [unpack_word, unpack_word]
  split_ifs <;> rfl

theorem isFinite_unpack_word :
    (unpack .binary64 (word s e m)).isFinite = true ↔ e ≠ -1#11 := by
  rw [unpack_word]
  split_ifs <;> simp_all [UnpackedFloat.isFinite]

variable {s e m}

theorem exponent_lt (finite : e ≠ -1#11) : e.toNat < 2047 := by
  have top : e.toNat ≠ 2047 := fun same => finite (BitVec.eq_of_toNat_eq same)
  have bound := e.isLt
  omega

/-- A finite number is packed as it was. -/
theorem pack_unpack_word (finite : e ≠ -1#11) :
    pack .binary64 (unpack .binary64 (word s e m)) = word s e m := by
  have bound := m.isLt
  have exponent := exponent_lt finite
  rw [unpack_word, if_neg finite]
  split_ifs with least some
  · -- too small for a first bit: the field of the power stays empty
    have short : m.toNat.log2 < 52 := (Nat.log2_lt some.ne').mpr bound
    have notNormal : ¬ m.toNat.log2 + 1 = Format.mantissaBits .binary64 := by
      change ¬ _ = 53
      omega
    simp only [pack]
    rw [if_neg (by decide), if_neg notNormal, BitVec.ofNat_toNat, least]
    simp [word]
  · have none : m = 0#52 := by
      apply BitVec.eq_of_toNat_eq
      simpa using some
    rw [least, none]
    rfl
  · -- the first bit is put in by unpacking and left out again by packing
    have long : (2 ^ 52 + m.toNat).log2 = 52 := by
      have lower := (Nat.le_log2 (by omega : 2 ^ 52 + m.toNat ≠ 0)).mpr (Nat.le_add_right (2 ^ 52) m.toNat)
      have upper := (Nat.log2_lt (by omega : 2 ^ 52 + m.toNat ≠ 0)).mpr (by omega : 2 ^ 52 + m.toNat < 2 ^ 53)
      omega
    have biased : ((e.toNat : Int) - 1075 + Format.exponentBias .binary64 + (52 : Nat)).toNat = e.toNat := by
      change ((e.toNat : Int) - 1075 + 1023 + 52).toNat = e.toNat
      omega
    have rest : BitVec.ofNat 52 (2 ^ 52 + m.toNat) = m := by
      apply BitVec.eq_of_toNat_eq
      rw [BitVec.toNat_ofNat]
      omega
    simp only [pack, long, biased]
    rw [if_neg (by omega), if_pos (by rfl), rest, BitVec.ofNat_toNat]
    simp [word]

end Words

/-! ## Numbers -/

def ofFields (s : Sign) (e : BitVec 11) (m : BitVec 52) : Float :=
  Float.ofBits (.ofBitVec (word s e m))

theorem toBits_ofFields {s : Sign} {e : BitVec 11} {m : BitVec 52} (finite : e ≠ -1#11) :
    (ofFields s e m).toBits = .ofBitVec (word s e m) :=
  congrArg UInt64.ofBitVec (pack_unpack_word finite)

theorem toNat_toBits_ofFields {s : Sign} {e : BitVec 11} {m : BitVec 52} (finite : e ≠ -1#11) :
    (ofFields s e m).toBits.toNat = s.toBitVec.toNat * 2 ^ 63 + e.toNat * 2 ^ 52 + m.toNat := by
  rw [toBits_ofFields finite]
  exact toNat_word s e m

theorem eq_of_toBits_eq {x y : Float} (same : x.toBits = y.toBits) : x = y := by
  obtain ⟨⟨_, _⟩⟩ := x
  obtain ⟨⟨_, _⟩⟩ := y
  cases same
  rfl

theorem exists_ofFields {x : Float} (finite : x.isFinite = true) :
    ∃ s e m, e ≠ -1#11 ∧ x = ofFields s e m := by
  obtain ⟨s, e, m, same⟩ := exists_word x.toBits.toBitVec
  have fields : e ≠ -1#11 := by
    rw [← isFinite_unpack_word s e m, ← same]
    exact finite
  refine ⟨s, e, m, fields, eq_of_toBits_eq ?_⟩
  rw [toBits_ofFields fields, ← same]

section Fields

variable {s : Sign} {e : BitVec 11} {m : BitVec 52} (finite : e ≠ -1#11)
include finite

theorem unpack_ofFields : (ofFields s e m).toModel.unpack = unpack .binary64 (word s e m) :=
  congrArg (fun bits => unpack .binary64 (UInt64.toBitVec bits)) (toBits_ofFields finite)

theorem neg_ofFields : -ofFields s e m = ofFields (-s) e m := by
  have packed := congrArg Float.Model.pack (neg_unpack_word s e m)
  rw [← unpack_ofFields finite] at packed
  exact congrArg Float.ofModel packed

theorem abs_ofFields : (ofFields s e m).abs = ofFields .positive e m := by
  have packed := congrArg Float.Model.pack (abs_unpack_word s e m)
  rw [← unpack_ofFields finite] at packed
  exact congrArg Float.ofModel packed

theorem isNegative_ofFields : isNegative (ofFields s e m) = true ↔ s = .negative := by
  have bound := m.isLt
  have bound' := e.isLt
  rw [isNegative, decide_eq_true_eq, toNat_toBits_ofFields finite]
  cases s <;> simp [Sign.toBitVec] <;> omega

end Fields

end SmallScript.Number
