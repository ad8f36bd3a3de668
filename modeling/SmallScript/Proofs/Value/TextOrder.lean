import SmallScript.Value
import Mathlib

/-! # The order of texts

Texts are compared by the bytes of their encodings, which is the same as comparing them by their code
points: `compareBytes_eq`.  So the six comparisons of texts are those of a linear order, the
lexicographic one on rows of code points.

* `encoding` gives the bytes of a code point in a form that shows their order: the first byte tells
  how many follow, and what follows are digits in base 64.
* `compareLex_encoding_of_lt`: the encoding of a smaller code point comes first, whatever is behind it.
  With equally many bytes that is the order of numbers by their digits; otherwise the first bytes
  decide.
-/

namespace SmallScript.Text

def codePoints (text : String) : List Nat :=
  text.toList.map Char.toNat

/-! ## The encoding of a code point -/

/-- How many bytes follow the first one. -/
def following (n : Nat) : Nat :=
  if n ≤ 0x7F then 0 else if n ≤ 0x7FF then 1 else if n ≤ 0xFFFF then 2 else 3

/-- The first byte without the digit that it holds. -/
def mark : Nat → Nat
  | 0 => 0
  | 1 => 0xC0
  | 2 => 0xE0
  | _ => 0xF0

/-- The last digits of a number in base 64, one byte for each. -/
def digitBytes : Nat → Nat → List Nat
  | 0, _ => []
  | count + 1, n => digitBytes count (n / 64) ++ [0x80 + n % 64]

/-- The bytes of a code point. -/
def encoding (n : Nat) : List Nat :=
  (mark (following n) + n / 64 ^ following n) :: digitBytes (following n) n

theorem toNat_lt (c : Char) : c.toNat < 0x110000 := by
  rcases c.valid with low | ⟨_, high⟩
  · exact Nat.lt_trans low (by decide)
  · exact high

theorem utf8EncodeChar_eq (c : Char) :
    (String.utf8EncodeChar c).map UInt8.toNat = encoding c.toNat := by
  have bound := toNat_lt c
  have value : c.val.toNat = c.toNat := rfl
  simp only [String.utf8EncodeChar, encoding, following, value]
  split_ifs <;> simp [digitBytes, mark] <;> omega

theorem map_toNat_bytes (text : String) :
    (bytes text).map UInt8.toNat = (codePoints text).flatMap encoding := by
  unfold bytes codePoints
  rw [String.toUTF8_eq_toByteArray, ← String.utf8Encode_toList, List.utf8Encode,
    List.toList_data_toByteArray, List.map_flatMap, List.flatMap_map]
  simp only [utf8EncodeChar_eq]

/-! ## Rows of numbers -/

/-- Rows of bytes are compared as rows of numbers. -/
theorem compareLex_map_toNat (us vs : List UInt8) :
    List.compareLex compare us vs =
      List.compareLex compare (us.map UInt8.toNat) (vs.map UInt8.toNat) := by
  induction us generalizing vs with
  | nil => cases vs <;> rfl
  | cons u us ih =>
    cases vs with
    | nil => rfl
    | cons v vs =>
      have first : compare u v = compare u.toNat v.toNat := by
        simp only [compare, compareOfLessAndEq, UInt8.lt_iff_toNat_lt, UInt8.toNat_inj]
      simp only [List.map_cons, List.compareLex_cons_cons, first, ih]

theorem compareLex_append_left (xs us vs : List Nat) :
    List.compareLex compare (xs ++ us) (xs ++ vs) = List.compareLex compare us vs := by
  induction xs with
  | nil => rfl
  | cons x xs ih => simp [List.compareLex_cons_cons, ih]

theorem compareLex_cons_of_lt {x y : Nat} (lt : x < y) (us vs : List Nat) :
    List.compareLex compare (x :: us) (y :: vs) = .lt := by
  rw [List.compareLex_cons_cons, Nat.compare_eq_lt.mpr lt]
  rfl

/-- Numbers with equally many digits are ordered by their digits. -/
theorem compareLex_digitBytes_of_lt (offset count : Nat) {n m : Nat} (lt : n < m)
    (us vs : List Nat) :
    List.compareLex compare ((offset + n / 64 ^ count) :: (digitBytes count n ++ us))
      ((offset + m / 64 ^ count) :: (digitBytes count m ++ vs)) = .lt := by
  induction count generalizing n m us vs with
  | zero => exact compareLex_cons_of_lt (by simpa using lt) _ _
  | succ count ih =>
    have split (k : Nat) : k / 64 ^ (count + 1) = k / 64 / 64 ^ count := by
      rw [Nat.pow_succ', Nat.div_div_eq_div_mul]
    rw [split, split, digitBytes, digitBytes, List.append_assoc, List.append_assoc]
    rcases Nat.lt_or_ge (n / 64) (m / 64) with less | notLess
    · exact ih less _ _
    · -- all digits but the last one agree
      have same : n / 64 = m / 64 := by omega
      rw [same, ← List.cons_append, ← List.cons_append, compareLex_append_left]
      exact compareLex_cons_of_lt (by omega) _ _

/-- The first byte of a longer encoding is greater. -/
theorem mark_add_lt {n m : Nat} (fewer : following n < following m) (bound : m < 0x110000) :
    mark (following n) + n / 64 ^ following n < mark (following m) + m / 64 ^ following m := by
  unfold following at *
  split_ifs at fewer ⊢ <;> simp only [mark] <;> omega

theorem following_mono {n m : Nat} (le : n ≤ m) : following n ≤ following m := by
  unfold following
  split_ifs <;> omega

theorem compareLex_encoding_of_lt {n m : Nat} (lt : n < m) (bound : m < 0x110000)
    (us vs : List Nat) :
    List.compareLex compare (encoding n ++ us) (encoding m ++ vs) = .lt := by
  unfold encoding
  rcases Nat.lt_or_eq_of_le (following_mono lt.le) with fewer | same
  · exact compareLex_cons_of_lt (mark_add_lt fewer bound) _ _
  · rw [same]
    exact compareLex_digitBytes_of_lt _ _ lt us vs

/-! ## Texts -/

/-- The order of two rows of code points is the one that their encodings are found in. -/
theorem compares_encodings (ns ms : List Nat) (nsBound : ∀ n ∈ ns, n < 0x110000)
    (msBound : ∀ m ∈ ms, m < 0x110000) :
    (List.compareLex compare (ns.flatMap encoding) (ms.flatMap encoding)).Compares ns ms := by
  induction ns generalizing ms with
  | nil =>
    cases ms with
    | nil => rfl
    | cons m ms => exact List.nil_lt_cons m ms
  | cons n ns ih =>
    cases ms with
    | nil => exact List.nil_lt_cons n ns
    | cons m ms =>
      rw [List.forall_mem_cons] at nsBound msBound
      rw [List.flatMap_cons, List.flatMap_cons]
      -- the first numbers decide, unless they are the same
      rcases Nat.lt_trichotomy n m with less | rfl | greater
      · rw [compareLex_encoding_of_lt less msBound.1]
        exact List.cons_lt_cons_iff.mpr (.inl less)
      · rw [compareLex_append_left]
        have rest := ih ms nsBound.2 msBound.2
        revert rest
        cases List.compareLex compare (ns.flatMap encoding) (ms.flatMap encoding) with
        | lt => exact fun less => List.cons_lt_cons_iff.mpr (.inr ⟨rfl, less⟩)
        | eq => exact congrArg (n :: ·)
        | gt => exact fun less => List.cons_lt_cons_iff.mpr (.inr ⟨rfl, less⟩)
      · rw [Std.OrientedCmp.gt_of_lt (compareLex_encoding_of_lt greater nsBound.1 _ _)]
        exact List.cons_lt_cons_iff.mpr (.inl greater)

theorem compares_compareBytes (a b : String) :
    (compareBytes a b).Compares (codePoints a) (codePoints b) := by
  have bound (text : String) : ∀ n ∈ codePoints text, n < 0x110000 := by
    intro n mem
    obtain ⟨c, -, rfl⟩ := List.mem_map.mp mem
    exact toNat_lt c
  unfold compareBytes
  rw [compareLex_map_toNat, map_toNat_bytes, map_toNat_bytes]
  exact compares_encodings _ _ (bound a) (bound b)

end SmallScript.Text

namespace SmallScript.CompareOp

/-- What a comparison asks of two elements of an order. -/
def Asks {α : Type} [LT α] (a b : α) : CompareOp → Prop
  | equal => a = b
  | notEqual => a ≠ b
  | less => a < b
  | lessEqual => a < b ∨ a = b
  | greater => b < a
  | greaterEqual => b < a ∨ a = b

theorem holds_iff_asks {α : Type} [LinearOrder α] {order : Ordering} {a b : α}
    (compares : order.Compares a b) (op : CompareOp) :
    op.holds (some order) = true ↔ op.Asks a b := by
  have isLess := compares.eq_lt
  have isEqual := compares.eq_eq
  have isGreater := compares.eq_gt
  cases op <;> simp [holds, Asks, isLess, isEqual, isGreater]

theorem Asks.trans {α : Type} [LinearOrder α] {op : CompareOp} (ordering : op.isEquality = false)
    {a b c : α} (first : op.Asks a b) (second : op.Asks b c) : op.Asks a c := by
  cases op with
  | equal => cases ordering
  | notEqual => cases ordering
  | less => exact lt_trans first second
  | lessEqual =>
    exact le_iff_lt_or_eq.mp ((le_iff_lt_or_eq.mpr first).trans (le_iff_lt_or_eq.mpr second))
  | greater => exact lt_trans second first
  | greaterEqual =>
    rcases first with less | rfl
    · rcases second with less' | rfl
      · exact .inl (less'.trans less)
      · exact .inl less
    · exact second

end SmallScript.CompareOp

namespace SmallScript.Value

open SmallScript.Text (codePoints)

/-- Two texts can always be compared, and the answers are those of the lexicographic order on their
    code points. -/
theorem compare_texts_by_codePoints :
    ∃ answer : CompareOp → String → String → Bool,
      (∀ op a b line, compare op (.text a) (.text b) line = .ok (.boolean (answer op a b))) ∧
      (∀ op a b, answer op a b = true ↔ op.Asks (codePoints a) (codePoints b)) ∧
      (∀ a b, [answer .less a b, answer .equal a b, answer .greater a b].count true = 1) ∧
      (∀ a b, answer .lessEqual a b = (answer .less a b || answer .equal a b)) ∧
      (∀ a b, answer .greaterEqual a b = (answer .greater a b || answer .equal a b)) ∧
      (∀ a b, answer .notEqual a b = !answer .equal a b) ∧
      (∀ op, op.isEquality = false →
        ∀ a b c, answer op a b = true → answer op b c = true → answer op a c = true) := by
  have asks (op : CompareOp) (a b : String) :
      op.holds (some (Text.compareBytes a b)) = true ↔ op.Asks (codePoints a) (codePoints b) :=
    CompareOp.holds_iff_asks (Text.compares_compareBytes a b) op
  refine ⟨fun op a b => op.holds (some (Text.compareBytes a b)), fun _ _ _ _ => rfl, asks,
    ?_, fun _ _ => rfl, fun _ _ => rfl, fun _ _ => rfl, ?_⟩
  · intro a b
    beta_reduce
    cases Text.compareBytes a b <;> rfl
  · intro op ordering a b c first second
    exact (asks op a c).mpr (((asks op a b).mp first).trans ordering ((asks op b c).mp second))

end SmallScript.Value
