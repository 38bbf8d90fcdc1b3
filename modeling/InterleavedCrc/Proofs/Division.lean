import InterleavedCrc.Proofs.Polynomial

/-!
# The register divides

Modulo the generator, a shift of the register is a multiplication by `x`, since
the bit that falls out stands for `x^32`.  A byte enters eight places below the
end of the dividend, so feeding a message leaves the remainder of the message
times `x^32` (`Register.reflectedPoly_feed`).
-/

namespace InterleavedCrc

open Polynomial

noncomputable section

/-- What dividing by `g` leaves of the register, moved up by the bytes that follow
it, and of those bytes, moved up by the width of the register. -/
def remainder (g : (ZMod 2)[X]) (register : UInt32) (data : List UInt8) : (ZMod 2)[X] :=
  (reflectedPoly register * X ^ (8 * data.length) + messagePoly data * X ^ 32) %ₘ g

def wordClass (poly word : UInt32) : AdjoinRoot (generator poly) :=
  AdjoinRoot.mk (generator poly) (reflectedPoly word)

@[simp] theorem wordClass_zero (poly : UInt32) : wordClass poly 0 = 0 := by
  simp [wordClass]

@[simp] theorem wordClass_xor (poly a b : UInt32) :
    wordClass poly (a ^^^ b) = wordClass poly a + wordClass poly b := by
  simp [wordClass]

/-- The word of a class is the remainder of any of its members. -/
theorem reflectedPoly_eq_modByMonic {poly word : UInt32} {p : (ZMod 2)[X]}
    (h : wordClass poly word = AdjoinRoot.mk (generator poly) p) :
    reflectedPoly word = p %ₘ generator poly := by
  have hdvd : generator poly ∣ reflectedPoly word - p := AdjoinRoot.mk_eq_mk.1 h
  rw [← modByMonic_eq_of_dvd_sub (generator_monic poly) hdvd, reflectedPoly_modByMonic]

theorem wordClass_injective (poly : UInt32) : Function.Injective (wordClass poly) := by
  intro a b h
  apply reflectedPoly_injective
  rw [reflectedPoly_eq_modByMonic h, reflectedPoly_modByMonic]

namespace Register

theorem and_one_eq_one_iff (register : UInt32) :
    register &&& 1 = 1 ↔ register.toBitVec.getMsbD 31 = true := by
  rw [← UInt32.toBitVec_inj, UInt32.toBitVec_and]
  have h := BitVec.and_one_eq_setWidth_ofBool_getLsbD (x := register.toBitVec)
  change register.toBitVec &&& 1#32 = 1#32 ↔ register.toBitVec.getLsbD 0 = true
  rw [h]
  cases register.toBitVec.getLsbD 0 <;> decide

theorem reflectedPoly_shiftRight_one (register : UInt32) :
    reflectedPoly (register >>> 1) + C (coefficient (register.toBitVec.getMsbD 31)) * X ^ 32
      = X * reflectedPoly register := by
  ext i
  rw [coeff_add, coeff_C_mul, coeff_X_pow, coeff_reflectedPoly]
  have hshift : (register >>> 1).toBitVec = register.toBitVec >>> 1 := rfl
  rw [hshift, BitVec.getMsbD_ushiftRight]
  cases i with
  | zero => simp
  | succ i =>
      rw [coeff_X_mul, coeff_reflectedPoly]
      by_cases hi : i + 1 < 32
      · have : i + 1 ≠ 32 := by omega
        simp [hi, this]
      · by_cases he : i = 31
        · subst he
          simp
        · rw [BitVec.getMsbD_of_ge _ i (by omega)]
          simp [hi, he]

theorem wordClass_shiftBit (poly register : UInt32) :
    wordClass poly (shiftBit poly register)
      = AdjoinRoot.root (generator poly) * wordClass poly register := by
  have hshift := congrArg (AdjoinRoot.mk (generator poly))
    (reflectedPoly_shiftRight_one register)
  have hroot : AdjoinRoot.mk (generator poly) (X ^ 32) = wordClass poly poly := by
    apply AdjoinRoot.mk_eq_mk.2
    rw [sub_eq_add_neg, ZModModule.neg_eq_self]
    exact dvd_refl (generator poly)
  rw [map_add, map_mul, map_mul, AdjoinRoot.mk_X, hroot] at hshift
  unfold shiftBit
  split
  · rename_i h
    rw [(and_one_eq_one_iff register).1 h, coefficient_true, C_1, map_one, one_mul] at hshift
    rw [wordClass_xor]
    exact hshift
  · rename_i h
    rw [Bool.eq_false_iff.2 (mt (and_one_eq_one_iff register).2 h), coefficient_false, C_0,
      map_zero, zero_mul, add_zero] at hshift
    exact hshift

theorem wordClass_shiftBits (poly : UInt32) (count : ℕ) (register : UInt32) :
    wordClass poly (shiftBits poly count register)
      = AdjoinRoot.root (generator poly) ^ count * wordClass poly register := by
  induction count generalizing register with
  | zero => rw [shiftBits, pow_zero, one_mul]
  | succ count ih => rw [shiftBits, ih, wordClass_shiftBit, pow_succ, mul_assoc]

/-- The byte is `x^24` high in the register, and eight shifts make that `x^32`. -/
theorem wordClass_absorb (poly register : UInt32) (byte : UInt8) :
    wordClass poly (absorb poly register byte)
      = AdjoinRoot.mk (generator poly)
          (X ^ 8 * reflectedPoly register + X ^ 32 * streamPoly (byteBits byte)) := by
  rw [absorb, wordClass_shiftBits, wordClass, reflectedPoly_xor, reflectedPoly_toUInt32,
    ← AdjoinRoot.mk_X, ← map_pow, ← map_mul]
  congr 1
  ring

theorem wordClass_feed (poly register : UInt32) (data : List UInt8) :
    wordClass poly (feed poly register data)
      = AdjoinRoot.mk (generator poly)
          (reflectedPoly register * X ^ (8 * data.length) + messagePoly data * X ^ 32) := by
  induction data generalizing register with
  | nil => simp [wordClass]
  | cons byte rest ih =>
      have habsorb := wordClass_absorb poly register byte
      rw [wordClass] at habsorb
      have hdividend : (X ^ 8 * reflectedPoly register + X ^ 32 * streamPoly (byteBits byte))
            * X ^ (8 * rest.length) + messagePoly rest * X ^ 32
          = reflectedPoly register * X ^ (8 * (byte :: rest).length)
            + messagePoly (byte :: rest) * X ^ 32 := by
        rw [messagePoly_cons, List.length_cons, Nat.mul_succ, pow_add]
        ring
      rw [feed_cons, ih, map_add, map_mul, habsorb, ← map_mul, ← map_add, hdividend]

theorem reflectedPoly_feed (poly register : UInt32) (data : List UInt8) :
    reflectedPoly (feed poly register data) = remainder (generator poly) register data :=
  reflectedPoly_eq_modByMonic (wordClass_feed poly register data)

end Register

end

end InterleavedCrc
