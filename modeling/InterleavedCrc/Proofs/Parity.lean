import InterleavedCrc.Proofs.Difference
import InterleavedCrc.Proofs.Remainder
import InterleavedCrc.Proofs.ResidueRing

/-!
# Parity

Modulo two, the ones of a word or of a byte string are counted by the value of its
polynomial at one.  The Castagnoli polynomial has an even number of terms, so division
by it keeps that value.  Hence the ones of a checksum are as many, modulo two, as those
of the running checksum and of the data together.
-/

namespace InterleavedCrc

open Polynomial

/-- How many bits of a word are ones. -/
def wordWeight (word : UInt32) : ℕ := (List.range 32).countP word.toBitVec.getLsbD

/-- How many bits of a byte string are ones. -/
def dataWeight (data : List UInt8) : ℕ := (bitStream data).count true

theorem natCast_countP_range (p : ℕ → Bool) (n : ℕ) :
    ((List.range n).countP p : ZMod 2) = ∑ i ∈ Finset.range n, coefficient (p i) := by
  induction n with
  | zero => simp
  | succ n ih =>
      rw [List.range_succ, List.countP_append, Nat.cast_add, ih, Finset.sum_range_succ,
        List.countP_singleton, coefficient, Nat.cast_ite, Nat.cast_one, Nat.cast_zero]

theorem eval_one_reflectedPoly (word : UInt32) :
    (reflectedPoly word).eval 1 = (wordWeight word : ZMod 2) := by
  rw [Residue.reflectedPoly_eq_sum, eval_finsetSum, wordWeight, natCast_countP_range,
    ← Finset.sum_range_reflect]
  refine Finset.sum_congr rfl fun i hi ↦ ?_
  have hlow : i < 32 := Finset.mem_range.1 hi
  have hbit : word.toBitVec.getLsbD i = word.toBitVec.getMsbD (32 - 1 - i) := by
    rw [BitVec.getLsbD_eq_getMsbD, decide_eq_true hlow, Bool.true_and]
  rw [hbit, eval_C_mul, eval_pow, eval_X, one_pow, mul_one]

theorem eval_one_streamPoly (bits : List Bool) :
    (streamPoly bits).eval 1 = (bits.count true : ZMod 2) := by
  induction bits with
  | nil => simp [streamPoly]
  | cons bit bits ih => cases bit <;> simp [streamPoly, ih, add_comm]

theorem eval_one_messagePoly (data : List UInt8) :
    (messagePoly data).eval 1 = (dataWeight data : ZMod 2) :=
  eval_one_streamPoly (bitStream data)

theorem natCast_wordWeight_xor (a b : UInt32) :
    (wordWeight (a ^^^ b) : ZMod 2) = wordWeight a + wordWeight b := by
  rw [← eval_one_reflectedPoly, reflectedPoly_xor, eval_add, eval_one_reflectedPoly,
    eval_one_reflectedPoly]

/-- There are thirty-two bits to invert, an even number. -/
theorem natCast_wordWeight_not (word : UInt32) :
    (wordWeight (~~~word) : ZMod 2) = wordWeight word := by
  have hones : wordWeight initialRegister = 32 := by decide
  have heven : ((32 : ℕ) : ZMod 2) = 0 := by decide
  rw [← xor_initialRegister, natCast_wordWeight_xor, hones, heven, add_zero]

/-- The generator has eighteen terms. -/
theorem eval_one_generator : (generator castagnoli).eval 1 = 0 := by
  have hones : wordWeight castagnoli = 17 := by decide
  rw [generator, eval_add, eval_pow, eval_X, one_pow, eval_one_reflectedPoly, hones]
  decide

/-- Division by the generator does not change the value at its root. -/
theorem natCast_wordWeight_feed (register : UInt32) (data : List UInt8) :
    (wordWeight (Register.feed castagnoli register data) : ZMod 2)
      = wordWeight register + dataWeight data := by
  calc (wordWeight (Register.feed castagnoli register data) : ZMod 2)
      = (remainder (generator castagnoli) register data).eval 1 := by
        rw [← eval_one_reflectedPoly, Register.reflectedPoly_feed]
    _ = (reflectedPoly register * X ^ (8 * data.length) + messagePoly data * X ^ 32).eval 1 := by
        rw [remainder]
        exact eval₂_modByMonic_eq_self_of_root eval_one_generator
    _ = wordWeight register + dataWeight data := by
        simp [eval_one_reflectedPoly, eval_one_messagePoly]

theorem natCast_wordWeight_crc32c {plan : Plan} (hplan : plan.Obtainable) (backend : Backend)
    (running : UInt32) (data : List UInt8) :
    (wordWeight (crc32c backend.kernel running data plan) : ZMod 2)
      = wordWeight running + dataWeight data := by
  rw [crc32c_eq_register backend.kernel_sound hplan, natCast_wordWeight_not,
    natCast_wordWeight_feed, natCast_wordWeight_not]

/-- Every flip makes one bit more or less a one. -/
theorem natCast_card_flips {a b : List UInt8} (hlen : a.length = b.length) :
    ((flips a b).card : ZMod 2) = dataWeight a - dataWeight b := by
  have heval := congrArg (eval 1) (messagePoly_sub_eq_sum hlen)
  rw [eval_sub, eval_one_messagePoly, eval_one_messagePoly, eval_finsetSum] at heval
  simp [heval]

theorem parity_of_checksum {plan : Plan} (hplan : plan.Obtainable) (backend : Backend)
    (running : UInt32) (data : List UInt8) :
    wordWeight (crc32c backend.kernel running data plan)
        ≡ wordWeight running + dataWeight data [MOD 2] ∧
      (∀ other : List UInt8, ¬ dataWeight data ≡ dataWeight other [MOD 2] →
        crc32c backend.kernel running data plan ≠ crc32c backend.kernel running other plan) ∧
      ∀ other : List UInt8, data.length = other.length → Odd (flips data other).card →
        crc32c backend.kernel running data plan ≠ crc32c backend.kernel running other plan := by
  have hother : ∀ other : List UInt8, ¬ dataWeight data ≡ dataWeight other [MOD 2] →
      crc32c backend.kernel running data plan ≠ crc32c backend.kernel running other plan := by
    intro other hparity heq
    apply hparity
    rw [← ZMod.natCast_eq_natCast_iff]
    have hdata := natCast_wordWeight_crc32c hplan backend running data
    rw [heq, natCast_wordWeight_crc32c hplan] at hdata
    exact (add_left_cancel hdata).symm
  refine ⟨?_, hother, fun other hlen hodd ↦ hother other fun hparity ↦ ?_⟩
  · rw [← ZMod.natCast_eq_natCast_iff, Nat.cast_add]
    exact natCast_wordWeight_crc32c hplan backend running data
  · have heven : ((flips data other).card : ZMod 2) = 0 := by
      rw [natCast_card_flips hlen, (ZMod.natCast_eq_natCast_iff _ _ 2).2 hparity, sub_self]
    exact Nat.not_even_iff_odd.2 hodd ((ZMod.natCast_eq_zero_iff_even).1 heven)

/-- A message of another parity and length, and three flips in the fifth digit. -/
theorem parity_of_digits :
    nestedPlan.Obtainable ∧ ¬ dataWeight digits ≡ dataWeight [0x30] [MOD 2] ∧
      Odd (flips digits (digits.set 4 0x32)).card ∧
      Odd (wordWeight (crc32c Backend.sse42.kernel 0 digits nestedPlan)) ∧
      crc32c Backend.sse42.kernel 0 digits nestedPlan
        ≠ crc32c Backend.sse42.kernel 0 [0x30] nestedPlan ∧
      crc32c Backend.sse42.kernel 0 digits nestedPlan
        ≠ crc32c Backend.sse42.kernel 0 (digits.set 4 0x32) nestedPlan := by
  have hweight : ¬ dataWeight digits ≡ dataWeight [0x30] [MOD 2] := by decide
  have hflips : Odd (flips digits (digits.set 4 0x32)).card := by decide
  obtain ⟨hparity, hother, hodd⟩ := parity_of_checksum obtainable_nestedPlan .sse42 0 digits
  refine ⟨obtainable_nestedPlan, hweight, hflips, ?_, hother _ hweight, ?_⟩
  · have hsum : (wordWeight 0 + dataWeight digits) % 2 = 1 := by decide
    exact Nat.odd_iff.2 (Eq.trans hparity hsum)
  · exact hodd _ List.length_set.symm hflips

end InterleavedCrc
