import InterleavedCrc.Proofs.Difference
import InterleavedCrc.Proofs.ResidueRing

/-!
# The period of the generator

Squaring `x` thirty-one times modulo the Castagnoli polynomial leads back to `x`, so the
order of `x` divides the prime `2^31 - 1`, and is that.  Two flips therefore cancel
exactly at distances that are multiples of it.
-/

namespace InterleavedCrc

open Polynomial

namespace Residue

def x : UInt32 := 0x40000000

def square (a : UInt32) : UInt32 := mul a a

@[simp] theorem wordClass_x : wordClass castagnoli x = AdjoinRoot.root (generator castagnoli) := by
  rw [wordClass, reflectedPoly_eq_X_pow (n := 1) (by decide) (by decide), pow_one, AdjoinRoot.mk_X]

theorem wordClass_iterate_square (a : UInt32) (n : ℕ) :
    wordClass castagnoli (square^[n] a) = wordClass castagnoli a ^ 2 ^ n := by
  induction n with
  | zero => simp
  | succ n ih =>
      rw [Function.iterate_succ_apply', square, wordClass_mul, ih, ← pow_two, ← pow_mul, pow_succ]

theorem iterate_square_x : square^[31] x = x := by decide +kernel

end Residue

theorem root_pow_two_pow :
    AdjoinRoot.root (generator castagnoli) ^ 2 ^ 31 = AdjoinRoot.root (generator castagnoli) := by
  rw [← Residue.wordClass_x, ← Residue.wordClass_iterate_square, Residue.iterate_square_x]

theorem generator_dvd_iff_root_pow_eq_one (poly : UInt32) (n : ℕ) :
    generator poly ∣ X ^ n - 1 ↔ AdjoinRoot.root (generator poly) ^ n = 1 := by
  rw [← AdjoinRoot.mk_eq_zero, map_sub, map_pow, AdjoinRoot.mk_X, map_one, sub_eq_zero]

/-- The root is invertible, so one factor of it can be dropped. -/
theorem root_pow_eq_one {n : ℕ}
    (h : AdjoinRoot.root (generator castagnoli) ^ (n + 1)
      = AdjoinRoot.root (generator castagnoli)) :
    AdjoinRoot.root (generator castagnoli) ^ n = 1 := by
  have hdvd : generator castagnoli ∣ (X ^ n - 1) * X ^ 1 := by
    have hfactor : ((X ^ n - 1) * X ^ 1 : (ZMod 2)[X]) = X ^ (n + 1) - X := by ring
    rw [hfactor, ← AdjoinRoot.mk_eq_zero, map_sub, map_pow, AdjoinRoot.mk_X, h, sub_self]
  exact (generator_dvd_iff_root_pow_eq_one castagnoli n).1
    ((dvd_mul_X_pow_iff (by decide) _ 1).1 hdvd)

theorem orderOf_root_castagnoli :
    orderOf (AdjoinRoot.root (generator castagnoli)) = 2 ^ 31 - 1 := by
  have hprime : Nat.Prime (2 ^ 31 - 1) :=
    lucas_lehmer_sufficiency 31 (by norm_num) (by norm_num)
  have : Fact (Nat.Prime (2 ^ 31 - 1)) := ⟨hprime⟩
  have hne : AdjoinRoot.root (generator castagnoli) ≠ 1 := by
    rw [← Residue.wordClass_x, ← Residue.wordClass_one]
    exact fun h ↦ absurd (wordClass_injective castagnoli h) (by decide)
  exact orderOf_eq_prime (root_pow_eq_one root_pow_two_pow) hne

/-- The Castagnoli polynomial divides `x^n + 1` only at multiples of its period. -/
theorem generator_castagnoli_dvd_iff (n : ℕ) :
    generator castagnoli ∣ X ^ n - 1 ↔ 2 ^ 31 - 1 ∣ n := by
  rw [generator_dvd_iff_root_pow_eq_one, ← orderOf_root_castagnoli, orderOf_dvd_iff_pow_eq_one]

/-! ## Two flips -/

theorem lt_of_flips_eq_pair {p q : ℕ} {a b : List UInt8} (hflips : flips a b = {p, q}) :
    q < 8 * a.length := by
  have hmem : q ∈ flips a b := by simp [hflips]
  exact lt_of_mem_flips hmem

/-- The later flip is the lower power, and their quotient has the distance for degree. -/
theorem messagePoly_sub_of_pair {p q : ℕ} {a b : List UInt8} (hlen : a.length = b.length)
    (hflips : flips a b = {p, q}) (hpq : p < q) :
    messagePoly a - messagePoly b = (X ^ (q - p) - 1) * X ^ (8 * a.length - (q + 1)) := by
  have hq : q < 8 * a.length := lt_of_flips_eq_pair hflips
  have hpower : 8 * a.length - (p + 1) = (q - p) + (8 * a.length - (q + 1)) := by omega
  rw [messagePoly_sub_eq_sum hlen, hflips, Finset.sum_pair hpq.ne, hpower, pow_add, sub_mul,
    one_mul, sub_eq_add_neg, ZModModule.neg_eq_self]

/-- Two flips are noticed unless they stand whole periods apart, for which a short message
has no room. -/
theorem two_flips_cancel_iff {p q : ℕ} {a b : List UInt8} (hlen : a.length = b.length)
    (hflips : flips a b = {p, q}) (hpq : p < q) {plan : Plan} (hplan : plan.Obtainable)
    (backend : Backend) (running : UInt32) :
    (crc32c backend.kernel running a plan = crc32c backend.kernel running b plan ↔
      2 ^ 31 - 1 ∣ q - p) ∧
    (a.length ≤ 2 ^ 28 - 1 →
      crc32c backend.kernel running a plan ≠ crc32c backend.kernel running b plan) := by
  have hiff : crc32c backend.kernel running a plan = crc32c backend.kernel running b plan ↔
      2 ^ 31 - 1 ∣ q - p := by
    rw [crc32c_eq_crc32c_iff hplan hplan backend backend running hlen,
      messagePoly_sub_of_pair hlen hflips hpq, dvd_mul_X_pow_iff (by decide),
      generator_castagnoli_dvd_iff]
  refine ⟨hiff, fun hshort heq ↦ ?_⟩
  have hq : q < 8 * a.length := lt_of_flips_eq_pair hflips
  have hperiod : 2 ^ 31 - 1 ≤ q - p := Nat.le_of_dvd (by omega) (hiff.1 heq)
  omega

/-- Zeros of which the first and the last bit are flipped. -/
def bentZeros (n : ℕ) : List UInt8 := 1 :: (List.replicate n 0 ++ [0x80])

theorem bitAt_bentZeros_iff (n position : ℕ) :
    bitAt (bentZeros n) position = true ↔ position = 0 ∨ position = 8 * n + 15 := by
  by_cases hfirst : position < 8
  · have hbit : ∀ i < 8, (1 : UInt8).toBitVec.getLsbD i = true ↔ i = 0 := by decide
    rw [bentZeros, bitAt_cons_of_lt _ _ hfirst, hbit position hfirst]
    omega
  · obtain ⟨next, rfl⟩ := Nat.exists_eq_add_of_le' (Nat.le_of_not_lt hfirst)
    rw [bentZeros, bitAt_cons_add_eight]
    by_cases hzero : next < 8 * n
    · rw [bitAt_append_of_lt _ (by simpa using hzero), bitAt_zeros]
      exact iff_of_false Bool.false_ne_true (by omega)
    · obtain ⟨last, rfl⟩ := Nat.exists_eq_add_of_le (Nat.le_of_not_lt hzero)
      have hlast := bitAt_append_add (List.replicate n 0) [0x80] last
      rw [List.length_replicate] at hlast
      rw [hlast]
      by_cases hend : last < 8
      · have hbit : ∀ i < 8, (0x80 : UInt8).toBitVec.getLsbD i = true ↔ i = 7 := by decide
        rw [bitAt_cons_of_lt _ _ hend, hbit last hend]
        omega
      · have hfalse : bitAt [0x80] last ≠ true := fun h ↦ hend (lt_of_bitAt h)
        exact iff_of_false hfalse (by omega)

theorem length_bentZeros (n : ℕ) :
    (List.replicate (n + 2) (0 : UInt8)).length = (bentZeros n).length := by
  simp [bentZeros]

theorem flips_bentZeros (n : ℕ) :
    flips (List.replicate (n + 2) 0) (bentZeros n) = {0, 8 * n + 15} := by
  ext position
  rw [mem_flips (length_bentZeros n), bitAt_zeros, Finset.mem_insert, Finset.mem_singleton,
    ← bitAt_bentZeros_iff, ne_comm, Bool.ne_false_iff]

/-- In two bytes the flips are noticed.  In one byte more than the bound allows they stand a
whole period apart, and are not. -/
theorem bent_zeros_collide :
    crc32c Backend.sse42.kernel 0 (List.replicate 2 0) nestedPlan
        ≠ crc32c Backend.sse42.kernel 0 (bentZeros 0) nestedPlan ∧
      (List.replicate (2 ^ 28) (0 : UInt8)).length = 2 ^ 28 - 1 + 1 ∧
      flips (List.replicate (2 ^ 28) 0) (bentZeros (2 ^ 28 - 2)) = {0, 2 ^ 31 - 1} ∧
      crc32c Backend.sse42.kernel 0 (List.replicate (2 ^ 28) 0) nestedPlan
        = crc32c Backend.sse42.kernel 0 (bentZeros (2 ^ 28 - 2)) nestedPlan := by
  have hshort := two_flips_cancel_iff (length_bentZeros 0) (flips_bentZeros 0) (by decide)
    obtainable_nestedPlan .sse42 0
  have hlength := length_bentZeros (2 ^ 28 - 2)
  have hflips := flips_bentZeros (2 ^ 28 - 2)
  have hsize : 2 ^ 28 - 2 + 2 = 2 ^ 28 := by norm_num
  have hlast : 8 * (2 ^ 28 - 2) + 15 = 2 ^ 31 - 1 := by norm_num
  rw [hsize] at hlength hflips
  rw [hlast] at hflips
  have hlong := two_flips_cancel_iff hlength hflips (by norm_num) obtainable_nestedPlan .sse42 0
  refine ⟨hshort.2 (by norm_num), ?_, hflips, hlong.1.2 (by norm_num)⟩
  rw [List.length_replicate]
  norm_num

end InterleavedCrc
