import InterleavedCrc.Residue
import InterleavedCrc.Proofs.Linearity

/-!
# Residues as a ring

The product of two residues is the product of their classes: the coefficients of
one operand select multiples by `x^i` of the other.  No turn of repeated squaring changes
what the turns will come to (`Powering.value_turn`), so advancing over `n` bytes multiplies
by `x^(8n)`, as feeding `n` zero bytes does.
-/

namespace InterleavedCrc

open Polynomial

namespace Residue

theorem and_one_eq_one_iff (a : UInt32) : a &&& one = one ↔ a.toBitVec.getMsbD 0 = true := by
  have hbit : ∀ i < 32, one.toBitVec.getMsbD i = decide (i = 0) := by decide
  constructor
  · intro h
    have h0 : (a &&& one).toBitVec.getMsbD 0 = true := by rw [h, hbit 0 (by decide)]; rfl
    rw [UInt32.toBitVec_and, BitVec.getMsbD_and, Bool.and_eq_true] at h0
    exact h0.1
  · intro h
    apply UInt32.toBitVec_inj.1
    apply BitVec.eq_of_getMsbD_eq
    intro i hi
    rw [UInt32.toBitVec_and, BitVec.getMsbD_and, hbit i hi]
    by_cases h0 : i = 0
    · subst h0
      rw [h]
      rfl
    · simp [h0]

/-- The first `count` coefficients of `a`, lowest power first, times `b`. -/
theorem wordClass_mulTerms (count : ℕ) (a b : UInt32) :
    wordClass castagnoli (mulTerms count a b)
      = AdjoinRoot.mk (generator castagnoli)
          (∑ i ∈ Finset.range count, C (coefficient (a.toBitVec.getMsbD i)) * X ^ i)
        * wordClass castagnoli b := by
  induction count generalizing a b with
  | zero => simp
  | succ count ih =>
      have hfirst : wordClass castagnoli (if a &&& one = one then b else 0)
          = AdjoinRoot.mk (generator castagnoli) (C (coefficient (a.toBitVec.getMsbD 0)))
            * wordClass castagnoli b := by
        split
        · rename_i h
          rw [(and_one_eq_one_iff a).1 h, coefficient_true, C_1, map_one, one_mul]
        · rename_i h
          rw [Bool.eq_false_iff.2 (mt (and_one_eq_one_iff a).2 h), coefficient_false, C_0,
            map_zero, zero_mul, wordClass_zero]
      have hnext : ∀ i, (a <<< 1).toBitVec.getMsbD i = a.toBitVec.getMsbD (i + 1) := by
        intro i
        change (a.toBitVec <<< 1).getMsbD i = _
        rw [BitVec.getMsbD_shiftLeft]
      have hsum : ∑ i ∈ Finset.range (count + 1), C (coefficient (a.toBitVec.getMsbD i)) * X ^ i
          = (∑ i ∈ Finset.range count, C (coefficient ((a <<< 1).toBitVec.getMsbD i)) * X ^ i) * X
            + C (coefficient (a.toBitVec.getMsbD 0)) := by
        rw [Finset.sum_range_succ', pow_zero, mul_one, Finset.sum_mul]
        simp only [hnext, pow_succ, mul_assoc]
      rw [mulTerms, wordClass_xor, hfirst, ih, mulX, Register.wordClass_shiftBit, hsum, map_add,
        map_mul, AdjoinRoot.mk_X, add_mul, mul_assoc, add_comm]

theorem reflectedPoly_eq_sum (word : UInt32) :
    reflectedPoly word
      = ∑ i ∈ Finset.range 32, C (coefficient (word.toBitVec.getMsbD i)) * X ^ i := by
  ext i
  rw [coeff_reflectedPoly, finsetSum_coeff]
  simp only [coeff_C_mul, coeff_X_pow, mul_ite, mul_one, mul_zero, Finset.sum_ite_eq,
    Finset.mem_range]
  split
  · rfl
  · rw [BitVec.getMsbD_of_ge _ _ (by omega), coefficient_false]

@[simp] theorem wordClass_mul (a b : UInt32) :
    wordClass castagnoli (mul a b) = wordClass castagnoli a * wordClass castagnoli b := by
  rw [mul, wordClass_mulTerms, ← reflectedPoly_eq_sum]
  rfl

theorem reflectedPoly_eq_X_pow {word : UInt32} {n : ℕ} (hn : n < 32)
    (h : ∀ i < 32, word.toBitVec.getMsbD i = decide (i = n)) : reflectedPoly word = X ^ n := by
  ext i
  rw [coeff_reflectedPoly, coeff_X_pow]
  by_cases hi : i < 32
  · rw [h i hi]
    by_cases he : i = n <;> simp [he]
  · rw [BitVec.getMsbD_of_ge _ _ (by omega), if_neg (by omega), coefficient_false]

@[simp] theorem wordClass_one : wordClass castagnoli one = 1 := by
  rw [wordClass, reflectedPoly_eq_X_pow (n := 0) (by decide) (by decide), pow_zero, map_one]

@[simp] theorem wordClass_x8 :
    wordClass castagnoli x8 = AdjoinRoot.root (generator castagnoli) ^ 8 := by
  rw [wordClass, reflectedPoly_eq_X_pow (n := 8) (by decide) (by decide), map_pow, AdjoinRoot.mk_X]

namespace Powering

/-- What the turns that are left will make of the result. -/
noncomputable def value (p : Powering) : AdjoinRoot (generator castagnoli) :=
  wordClass castagnoli p.square ^ p.exponent * wordClass castagnoli p.result

/-- One digit moves from the power to the result. -/
theorem value_turn (p : Powering) : p.turn.value = p.value := by
  have hsquare : wordClass castagnoli p.turn.square ^ (p.exponent / 2)
      = wordClass castagnoli p.square ^ (2 * (p.exponent / 2)) := by
    by_cases hlast : p.exponent / 2 = 0
    -- No digit is left that would ask for the square.
    · rw [hlast, Nat.mul_zero, pow_zero, pow_zero]
    · rw [turn, if_neg hlast, wordClass_mul, ← pow_two, ← pow_mul]
  have hresult : wordClass castagnoli p.turn.result
      = wordClass castagnoli p.square ^ (p.exponent % 2) * wordClass castagnoli p.result := by
    rcases Nat.mod_two_eq_zero_or_one p.exponent with heven | hodd
    · simp [turn, heven]
    · simp [turn, hodd]
  calc p.turn.value
      = wordClass castagnoli p.turn.square ^ (p.exponent / 2)
          * wordClass castagnoli p.turn.result := rfl
    _ = wordClass castagnoli p.square ^ (2 * (p.exponent / 2) + p.exponent % 2)
          * wordClass castagnoli p.result := by
        rw [hsquare, hresult, pow_add, mul_assoc]
    _ = p.value := by rw [Nat.div_add_mod, value]

theorem value_loop (p : Powering) : p.loop.value = p.value := by
  induction p using loop.induct with
  | case1 p h => rw [loop_of_exponent_eq_zero h]
  | case2 p h ih => rw [loop_of_exponent_ne_zero h, ih, value_turn]

theorem wordClass_result_loop (p : Powering) :
    wordClass castagnoli p.loop.result
      = wordClass castagnoli p.square ^ p.exponent * wordClass castagnoli p.result := by
  have hvalue := value_loop p
  rwa [value, exponent_loop, pow_zero, one_mul] at hvalue

end Powering

theorem wordClass_xPow8 (n : ℕ) :
    wordClass castagnoli (xPow8 n) = AdjoinRoot.root (generator castagnoli) ^ (8 * n) := by
  rw [xPow8, Powering.wordClass_result_loop, wordClass_one, mul_one, wordClass_x8, pow_mul]

theorem wordClass_advance (register : UInt32) (n : ℕ) :
    wordClass castagnoli (advance register n)
      = AdjoinRoot.root (generator castagnoli) ^ (8 * n) * wordClass castagnoli register := by
  rw [advance, wordClass_mul, wordClass_xPow8]

theorem mul_xor (a b c : UInt32) : mul a (b ^^^ c) = mul a b ^^^ mul a c := by
  apply wordClass_injective castagnoli
  rw [wordClass_xor, wordClass_mul, wordClass_mul, wordClass_mul, wordClass_xor, mul_add]

/-- Advancing over `n` bytes is what any `n` bytes do to the register, their own
part aside. -/
theorem feed_eq_advance_xor (register : UInt32) (data : List UInt8) :
    Register.feed castagnoli register data
      = advance register data.length ^^^ Register.feed castagnoli 0 data := by
  apply wordClass_injective castagnoli
  rw [wordClass_xor, wordClass_advance, Register.wordClass_feed, Register.wordClass_feed,
    reflectedPoly_zero, zero_mul, zero_add, map_add, map_mul, map_pow, AdjoinRoot.mk_X, mul_comm]
  rfl

theorem feed_zeros (register : UInt32) (n : ℕ) :
    Register.feed castagnoli register (List.replicate n 0) = advance register n := by
  rw [feed_eq_advance_xor, List.length_replicate, Register.feed_zero_zeros, UInt32.xor_zero]

theorem feed_append_eq (register : UInt32) (a b : List UInt8) :
    Register.feed castagnoli register (a ++ b)
      = advance (Register.feed castagnoli register a) b.length
        ^^^ Register.feed castagnoli 0 b := by
  rw [Register.feed_append, feed_eq_advance_xor]

end Residue

end InterleavedCrc
