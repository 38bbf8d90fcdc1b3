import InterleavedCrc.Proofs.Division

/-!
# Linearity of the register

Feeding is linear in the register and the bytes together (`Register.feed_xor`).
A register that meets its own low byte only moves down, so that it can be traded
for bytes: it cancels against its own bytes after as many of them as it holds.
-/

namespace InterleavedCrc

def xorBytes (a b : List UInt8) : List UInt8 := List.zipWith (· ^^^ ·) a b

namespace Register

theorem shiftBits_xor (poly : UInt32) (count : ℕ) (a b : UInt32) :
    shiftBits poly count (a ^^^ b) = shiftBits poly count a ^^^ shiftBits poly count b := by
  apply wordClass_injective poly
  simp only [wordClass_shiftBits, wordClass_xor, mul_add]

theorem absorb_xor (poly a b : UInt32) (x y : UInt8) :
    absorb poly (a ^^^ b) (x ^^^ y) = absorb poly a x ^^^ absorb poly b y := by
  have harg : a ^^^ b ^^^ (x.toUInt32 ^^^ y.toUInt32)
      = (a ^^^ x.toUInt32) ^^^ (b ^^^ y.toUInt32) := by ac_rfl
  rw [absorb, UInt8.toUInt32_xor, harg, shiftBits_xor]
  rfl

theorem feed_xor (poly r s : UInt32) {a b : List UInt8} (h : a.length = b.length) :
    feed poly (r ^^^ s) (xorBytes a b) = feed poly r a ^^^ feed poly s b := by
  induction a generalizing r s b with
  | nil =>
      cases b with
      | nil => rfl
      | cons y b => simp at h
  | cons x a ih =>
      cases b with
      | nil => simp at h
      | cons y b =>
          rw [xorBytes, List.zipWith_cons_cons, feed_cons, absorb_xor, feed_cons, feed_cons]
          exact ih _ _ (by simpa using h)

@[simp] theorem absorb_zero (poly : UInt32) : absorb poly 0 0 = 0 := by
  apply wordClass_injective poly
  rw [absorb, wordClass_shiftBits]
  simp

@[simp] theorem feed_zero_zeros (poly : UInt32) (n : ℕ) :
    feed poly 0 (List.replicate n 0) = 0 := by
  induction n with
  | zero => rfl
  | succ n ih => rw [List.replicate_succ, feed_cons, absorb_zero, ih]

theorem xorBytes_zeros (data : List UInt8) :
    xorBytes (List.replicate data.length 0) data = data := by
  induction data with
  | nil => rfl
  | cons byte rest ih =>
      rw [xorBytes] at ih
      simp [xorBytes, List.replicate_succ, ih]

/-- What came before and what comes now act apart. -/
theorem feed_eq_zeros_xor (poly register : UInt32) (data : List UInt8) :
    feed poly register data
      = feed poly register (List.replicate data.length 0) ^^^ feed poly 0 data := by
  rw [← feed_xor poly register 0 List.length_replicate, UInt32.xor_zero, xorBytes_zeros]

/-- The sum of what each byte alone leaves behind when the others are zero. -/
def feedApart (poly : UInt32) : List UInt8 → UInt32
  | [] => 0
  | byte :: rest =>
      feed poly 0 (byte :: List.replicate rest.length 0) ^^^ feedApart poly rest

theorem feed_zero_eq_feedApart (poly : UInt32) (data : List UInt8) :
    feed poly 0 data = feedApart poly data := by
  induction data with
  | nil => rfl
  | cons byte rest ih => rw [feed_cons, feed_eq_zeros_xor, ih, feedApart, feed_cons]

/-! ## A register against its own bytes -/

theorem wordClass_shiftRight_eight (poly : UInt32) {word : UInt32}
    (h : ∀ i < 8, word.toBitVec.getLsbD i = false) :
    wordClass poly (word >>> 8)
      = AdjoinRoot.root (generator poly) ^ 8 * wordClass poly word := by
  have hpoly : reflectedPoly (word >>> 8) = Polynomial.X ^ 8 * reflectedPoly word := by
    ext i
    have hshift : (word >>> 8).toBitVec = word.toBitVec >>> 8 := rfl
    rw [coeff_reflectedPoly, Polynomial.coeff_X_pow_mul', coeff_reflectedPoly, hshift,
      BitVec.getMsbD_ushiftRight]
    by_cases h8 : i < 8
    · simp [h8, Nat.not_le.2 h8]
    · by_cases h32 : i < 32
      · simp [h8, h32, Nat.not_lt.1 h8]
      · have hout : word.toBitVec.getMsbD (i - 8) = false := by
          rw [BitVec.getMsbD_eq_getLsbD]
          by_cases h40 : i < 40
          · rw [h (32 - 1 - (i - 8)) (by omega), Bool.and_false]
          · have h24 : ¬ i - 8 < 32 := by omega
            simp [h24]
        simp [h32, hout]
  rw [wordClass, hpoly, map_mul, map_pow, AdjoinRoot.mk_X, wordClass]

theorem getLsbD_xor_low_byte (register : UInt32) (i : ℕ) :
    (register ^^^ register.toUInt8.toUInt32).toBitVec.getLsbD i
      = (!decide (i < 8) && register.toBitVec.getLsbD i) := by
  have hlow : register.toUInt8.toUInt32.toBitVec = (register.toBitVec.setWidth 8).setWidth 32 := rfl
  rw [UInt32.toBitVec_xor, hlow, BitVec.getLsbD_xor]
  by_cases h8 : i < 8
  · have h32 : i < 32 := by omega
    simp [h8, h32]
  · simp [h8]

theorem absorb_low_byte (poly register : UInt32) :
    absorb poly register register.toUInt8 = register >>> 8 := by
  have hclear : ∀ i < 8,
      (register ^^^ register.toUInt8.toUInt32).toBitVec.getLsbD i = false := by
    intro i hi
    simp only [getLsbD_xor_low_byte, hi, decide_true, Bool.not_true, Bool.false_and]
  have hhigh : (register ^^^ register.toUInt8.toUInt32) >>> 8 = register >>> 8 := by
    apply UInt32.toBitVec_inj.1
    apply BitVec.eq_of_getLsbD_eq
    intro i _
    change ((register ^^^ register.toUInt8.toUInt32).toBitVec >>> 8).getLsbD i
      = (register.toBitVec >>> 8).getLsbD i
    rw [BitVec.getLsbD_ushiftRight, BitVec.getLsbD_ushiftRight, getLsbD_xor_low_byte]
    simp
  apply wordClass_injective poly
  rw [absorb, wordClass_shiftBits, ← wordClass_shiftRight_eight poly hclear, hhigh]

/-- One byte by table look-up: the rest of the register only moves down. -/
theorem absorb_eq (poly register : UInt32) (byte : UInt8) :
    absorb poly register byte
      = (register >>> 8) ^^^ absorb poly 0 (register.toUInt8 ^^^ byte) := by
  rw [← absorb_low_byte poly register, ← absorb_xor, UInt32.xor_zero, ← UInt8.xor_assoc,
    UInt8.xor_self, UInt8.zero_xor]

theorem toNat_feed_lowBytes (poly register : UInt32) (count : ℕ) :
    (feed poly register (lowBytes count register.toUInt64)).toNat
      = register.toNat / 2 ^ (8 * count) := by
  induction count generalizing register with
  | zero => simp [lowBytes]
  | succ count ih =>
      have hnext : register.toUInt64 >>> 8 = (register >>> 8).toUInt64 := by
        rw [UInt32.toUInt64_shiftRight]
        rfl
      have hshift : (register >>> 8).toNat = register.toNat / 2 ^ 8 := by
        rw [UInt32.toNat_shiftRight, Nat.shiftRight_eq_div_pow]
        rfl
      rw [lowBytes, hnext, UInt32.toUInt8_toUInt64, feed_cons, absorb_low_byte, ih, hshift,
        Nat.div_div_eq_div_mul, ← Nat.pow_add, Nat.mul_succ, Nat.add_comm]

theorem feed_lowBytes_self (poly register : UInt32) {count : ℕ} (h : 4 ≤ count) :
    feed poly register (lowBytes count register.toUInt64) = 0 := by
  apply UInt32.toNat_inj.1
  rw [toNat_feed_lowBytes]
  apply Nat.div_eq_of_lt
  exact Nat.lt_of_lt_of_le register.toNat_lt (Nat.pow_le_pow_right (by decide) (by omega))

end Register

end InterleavedCrc
