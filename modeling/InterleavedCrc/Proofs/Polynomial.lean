import InterleavedCrc.Register
import Mathlib

/-!
# Words and byte strings as polynomials over GF(2)

A word of the register is a polynomial of degree at most 31, its top bit the
constant term.  A byte string is one too: its first bit, the low end of its first
byte, has the highest power.  No loop over a register enters these readings.
-/

namespace InterleavedCrc

open Polynomial

noncomputable section

def coefficient (bit : Bool) : ZMod 2 := if bit then 1 else 0

/-- The bit at position `31 - i` is the coefficient of `x^i`. -/
def reflectedPoly (word : UInt32) : (ZMod 2)[X] :=
  ofFn 32 fun i ↦ coefficient (word.toBitVec.getMsbD i)

/-- The bit at position `i` is the coefficient of `x^i`. -/
def normalPoly (word : UInt32) : (ZMod 2)[X] :=
  ofFn 32 fun i ↦ coefficient (word.toBitVec.getLsbD i)

/-- The word whose bit at position `31 - i` is the coefficient of `x^i`. -/
def reflectedWord (p : (ZMod 2)[X]) : UInt32 :=
  UInt32.ofBitVec (BitVec.ofFnBE fun i ↦ decide (p.coeff i = 1))

/-- The divisor; its leading term is implicit in the word. -/
def generator (poly : UInt32) : (ZMod 2)[X] := X ^ 32 + reflectedPoly poly

/-- The bits of a byte in the order of transmission, lowest first. -/
def byteBits (byte : UInt8) : List Bool :=
  (List.range 8).map byte.toBitVec.getLsbD

def bitStream (data : List UInt8) : List Bool := data.flatMap byteBits

/-- The first bit has the highest power and the last is the constant term. -/
def streamPoly : List Bool → (ZMod 2)[X]
  | [] => 0
  | bit :: bits => C (coefficient bit) * X ^ bits.length + streamPoly bits

def messagePoly (data : List UInt8) : (ZMod 2)[X] := streamPoly (bitStream data)

@[simp] theorem coefficient_false : coefficient false = 0 := rfl

@[simp] theorem coefficient_true : coefficient true = 1 := rfl

@[simp] theorem coefficient_xor (a b : Bool) :
    coefficient (a ^^ b) = coefficient a + coefficient b := by
  revert a b
  decide

@[simp] theorem coefficient_eq_one_iff (bit : Bool) : coefficient bit = 1 ↔ bit = true := by
  revert bit
  decide

theorem coefficient_injective : Function.Injective coefficient := by decide

@[simp] theorem coeff_reflectedPoly (word : UInt32) (i : ℕ) :
    (reflectedPoly word).coeff i = coefficient (word.toBitVec.getMsbD i) := by
  by_cases hi : i < 32
  · simp [reflectedPoly, ofFn_coeff_eq_val_of_lt _ hi]
  · rw [reflectedPoly, ofFn_coeff_eq_zero_of_ge _ (by omega),
      BitVec.getMsbD_of_ge _ _ (by omega), coefficient_false]

@[simp] theorem coeff_normalPoly (word : UInt32) (i : ℕ) :
    (normalPoly word).coeff i = coefficient (word.toBitVec.getLsbD i) := by
  by_cases hi : i < 32
  · rw [normalPoly, ofFn_coeff_eq_val_of_lt _ hi]
  · rw [normalPoly, ofFn_coeff_eq_zero_of_ge _ (by omega),
      BitVec.getLsbD_of_ge _ _ (by omega), coefficient_false]

theorem degree_reflectedPoly_lt (word : UInt32) : (reflectedPoly word).degree < 32 := by
  exact_mod_cast ofFn_degree_lt _

theorem reflectedPoly_injective : Function.Injective reflectedPoly := by
  intro a b h
  apply UInt32.toBitVec_inj.1
  apply BitVec.eq_of_getMsbD_eq
  intro i _
  apply coefficient_injective
  rw [← coeff_reflectedPoly, ← coeff_reflectedPoly, h]

@[simp] theorem reflectedPoly_zero : reflectedPoly 0 = 0 := by
  ext i
  simp

@[simp] theorem reflectedPoly_xor (a b : UInt32) :
    reflectedPoly (a ^^^ b) = reflectedPoly a + reflectedPoly b := by
  ext i
  simp

theorem reflectedWord_reflectedPoly (word : UInt32) :
    reflectedWord (reflectedPoly word) = word := by
  apply UInt32.toBitVec_inj.1
  apply BitVec.eq_of_getMsbD_eq
  intro i hi
  simp [reflectedWord, BitVec.getMsbD_ofFnBE, hi]

/-- A word read from either end, when its bits are reversed. -/
theorem normalPoly_eq_of_reverse {normal word : UInt32}
    (h : normal.toBitVec.reverse = word.toBitVec) : normalPoly normal = reflectedPoly word := by
  ext i
  rw [coeff_normalPoly, coeff_reflectedPoly, ← h, BitVec.getMsbD_reverse]

theorem generator_monic (poly : UInt32) : (generator poly).Monic :=
  monic_X_pow_add (degree_reflectedPoly_lt poly)

theorem degree_generator (poly : UInt32) : (generator poly).degree = 32 := by
  rw [generator, degree_add_eq_left_of_degree_lt] <;> rw [degree_X_pow]
  · rfl
  · exact degree_reflectedPoly_lt poly

theorem reflectedPoly_modByMonic (poly word : UInt32) :
    reflectedPoly word %ₘ generator poly = reflectedPoly word := by
  apply (modByMonic_eq_self_iff (generator_monic poly)).2
  rw [degree_generator]
  exact degree_reflectedPoly_lt word

/-! ## Bits in the order of transmission -/

@[simp] theorem length_byteBits (byte : UInt8) : (byteBits byte).length = 8 := by
  simp [byteBits]

@[simp] theorem length_bitStream (data : List UInt8) :
    (bitStream data).length = 8 * data.length := by
  induction data with
  | nil => rfl
  | cons byte rest ih =>
      rw [bitStream, List.flatMap_cons, List.length_append, length_byteBits, List.length_cons,
        Nat.mul_succ, Nat.add_comm]
      exact congrArg (· + 8) ih

theorem streamPoly_append (a b : List Bool) :
    streamPoly (a ++ b) = streamPoly a * X ^ b.length + streamPoly b := by
  induction a with
  | nil => simp [streamPoly]
  | cons bit bits ih =>
      simp only [List.cons_append, streamPoly, ih, List.length_append, pow_add]
      ring

@[simp] theorem messagePoly_nil : messagePoly [] = 0 := rfl

theorem messagePoly_cons (byte : UInt8) (rest : List UInt8) :
    messagePoly (byte :: rest)
      = streamPoly (byteBits byte) * X ^ (8 * rest.length) + messagePoly rest := by
  rw [messagePoly, bitStream, List.flatMap_cons, streamPoly_append]
  exact congrArg (fun n ↦ streamPoly (byteBits byte) * X ^ n + messagePoly rest)
    (length_bitStream rest)

theorem coeff_streamPoly (bits : List Bool) (i : ℕ) :
    (streamPoly bits).coeff i = coefficient (bits.reverse.getD i false) := by
  induction bits with
  | nil => simp [streamPoly]
  | cons bit bits ih =>
      rw [streamPoly, coeff_add, coeff_C_mul, coeff_X_pow, ih, List.reverse_cons]
      by_cases hi : i < bits.length
      · rw [List.getD_append _ _ _ _ (by simpa using hi), if_neg (by omega), mul_zero, zero_add]
      · rw [List.getD_append_right _ _ _ _ (by simpa using Nat.le_of_not_lt hi),
          List.getD_eq_default _ _ (by simpa using Nat.le_of_not_lt hi)]
        by_cases he : i = bits.length
        · simp [he]
        · have : 0 < i - bits.length := by omega
          obtain ⟨k, hk⟩ := Nat.exists_eq_succ_of_ne_zero this.ne'
          simp [he, hk]

/-- A byte joins the register at its low end, among the highest powers. -/
theorem reflectedPoly_toUInt32 (byte : UInt8) :
    reflectedPoly byte.toUInt32 = X ^ 24 * streamPoly (byteBits byte) := by
  ext i
  rw [coeff_reflectedPoly, coeff_X_pow_mul', UInt8.toBitVec_toUInt32, BitVec.getMsbD_setWidth]
  by_cases hi : 24 ≤ i
  · obtain ⟨k, rfl⟩ := Nat.exists_eq_add_of_le hi
    have hget : (byteBits byte).reverse.getD k false = byte.toBitVec.getMsbD k := by
      by_cases hk : k < 8
      · rw [List.getD_eq_getElem _ _ (by simpa using hk), List.getElem_reverse]
        simp [byteBits, BitVec.getMsbD_eq_getLsbD, hk]
      · rw [List.getD_eq_default _ _ (by simpa using Nat.le_of_not_lt hk),
          BitVec.getMsbD_of_ge _ _ (by omega)]
    rw [if_pos hi, Nat.add_sub_cancel_left, coeff_streamPoly, hget]
    have h8 : 24 + k + 8 - 32 = k := by omega
    simp [h8]
  · simp [hi]

end

end InterleavedCrc
