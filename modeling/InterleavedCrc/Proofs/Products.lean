import InterleavedCrc.Proofs.Remainder

/-!
# Products of residues

Multiplication scans one operand and multiplies the other by `x` again and again, and yet
it is the product of both, divided by the generator (`Residue.product_is_remainder`).
Every class modulo the generator has its word, so that the words are the whole residue
ring (`Residue.words_are_residue_ring`).
-/

namespace InterleavedCrc

open Polynomial

theorem coeff_eq_coefficient_decide (p : (ZMod 2)[X]) (i : ℕ) :
    coefficient (decide (p.coeff i = 1)) = p.coeff i := by
  have hall : ∀ c : ZMod 2, coefficient (decide (c = 1)) = c := by decide
  exact hall (p.coeff i)

theorem reflectedPoly_reflectedWord {p : (ZMod 2)[X]} (h : p.degree < 32) :
    reflectedPoly (reflectedWord p) = p := by
  ext i
  rw [coeff_reflectedPoly]
  by_cases hi : i < 32
  · simp [reflectedWord, BitVec.getMsbD_ofFnBE, hi, coeff_eq_coefficient_decide]
  · have hzero : p.coeff i = 0 := by
      apply coeff_eq_zero_of_degree_lt
      exact h.trans_le (by exact_mod_cast Nat.le_of_not_lt hi)
    rw [BitVec.getMsbD_of_ge _ _ (by omega), coefficient_false, hzero]

theorem wordClass_surjective (poly : UInt32) : Function.Surjective (wordClass poly) := by
  intro z
  obtain ⟨p, rfl⟩ := AdjoinRoot.mk_surjective z
  have hdegree : (p %ₘ generator poly).degree < 32 := by
    rw [← degree_generator poly]
    exact degree_modByMonic_lt p (generator_monic poly)
  refine ⟨reflectedWord (p %ₘ generator poly), ?_⟩
  rw [wordClass, reflectedPoly_reflectedWord hdegree]
  exact AdjoinRoot.mk_eq_mk.2 (dvd_modByMonic_sub p (generator poly))

namespace Residue

/-- Where the scan stops early, it has multiplied by the coefficients met so far. -/
theorem reflectedPoly_mulTerms (count : ℕ) (a b : UInt32) :
    reflectedPoly (mulTerms count a b)
      = ((∑ i ∈ Finset.range count, C (coefficient (a.toBitVec.getMsbD i)) * X ^ i)
          * reflectedPoly b) %ₘ generator castagnoli := by
  apply reflectedPoly_eq_modByMonic
  rw [wordClass_mulTerms, map_mul, wordClass]

theorem degree_reflectedPoly_mul_lt (a b : UInt32) :
    (reflectedPoly a * reflectedPoly b).degree < 63 := by
  have hle : ∀ word : UInt32, (reflectedPoly word).degree ≤ 31 := by
    intro word
    apply (degree_le_iff_coeff_zero _ _).2
    intro i hi
    have hlt : 31 < i := by exact_mod_cast hi
    rw [coeff_reflectedPoly, BitVec.getMsbD_of_ge _ _ (by omega), coefficient_false]
  calc (reflectedPoly a * reflectedPoly b).degree ≤ 31 + 31 := degree_mul_le_of_le (hle a) (hle b)
    _ < 63 := by norm_num

/-- The product of two words is their full product, of up to sixty-three coefficients,
divided by the Castagnoli polynomial. -/
theorem product_is_remainder (a b : UInt32) :
    (reflectedPoly a * reflectedPoly b).degree < 63 ∧
      reflectedPoly (mul a b)
        = (reflectedPoly a * reflectedPoly b) %ₘ (X ^ 32 + normalPoly castagnoliNormal) ∧
      mul a b
        = reflectedWord
            ((reflectedPoly a * reflectedPoly b) %ₘ (X ^ 32 + normalPoly castagnoliNormal)) := by
  have hproduct : reflectedPoly (mul a b)
      = (reflectedPoly a * reflectedPoly b) %ₘ (X ^ 32 + normalPoly castagnoliNormal) := by
    rw [mul, reflectedPoly_mulTerms, ← reflectedPoly_eq_sum, generator_castagnoli]
  refine ⟨degree_reflectedPoly_mul_lt a b, hproduct, ?_⟩
  rw [← hproduct, reflectedWord_reflectedPoly]

/-- Past `x^31` comes the rest of the polynomial. -/
example : mul 1 0x40000000 = castagnoli := by decide +kernel

/-! ## The residue ring -/

protected theorem mul_comm (a b : UInt32) : mul a b = mul b a := by
  apply wordClass_injective castagnoli
  rw [wordClass_mul, wordClass_mul, mul_comm]

protected theorem mul_assoc (a b c : UInt32) : mul (mul a b) c = mul a (mul b c) := by
  apply wordClass_injective castagnoli
  simp only [wordClass_mul, mul_assoc]

theorem xor_mul (a b c : UInt32) : mul (a ^^^ b) c = mul a c ^^^ mul b c := by
  rw [Residue.mul_comm, mul_xor, Residue.mul_comm c a, Residue.mul_comm c b]

@[simp] protected theorem one_mul (a : UInt32) : mul one a = a := by
  apply wordClass_injective castagnoli
  rw [wordClass_mul, wordClass_one, one_mul]

/-- Each word stands for one class modulo the generator, and each class has its word. -/
noncomputable def wordEquiv : UInt32 ≃ AdjoinRoot (generator castagnoli) :=
  Equiv.ofBijective (wordClass castagnoli)
    ⟨wordClass_injective castagnoli, wordClass_surjective castagnoli⟩

/-- Exclusive or and product obey the laws of a commutative ring, and the ring is that of
the residues modulo the generator. -/
theorem words_are_residue_ring :
    (∀ a b : UInt32, mul a b = mul b a) ∧
    (∀ a b c : UInt32, mul (mul a b) c = mul a (mul b c)) ∧
    (∀ a b c : UInt32, mul a (b ^^^ c) = mul a b ^^^ mul a c) ∧
    (∀ a b c : UInt32, mul (a ^^^ b) c = mul a c ^^^ mul b c) ∧
    (∀ a : UInt32, mul one a = a) ∧
    (∀ a b c : UInt32, a ^^^ b ^^^ c = a ^^^ (b ^^^ c)) ∧
    (∀ a b : UInt32, a ^^^ b = b ^^^ a) ∧
    (∀ a : UInt32, 0 ^^^ a = a ∧ a ^^^ a = 0) ∧
    (∀ a b : UInt32, wordEquiv (a ^^^ b) = wordEquiv a + wordEquiv b) ∧
    (∀ a b : UInt32, wordEquiv (mul a b) = wordEquiv a * wordEquiv b) ∧
    wordEquiv 0 = 0 ∧ wordEquiv one = 1 := by
  refine ⟨Residue.mul_comm, Residue.mul_assoc, mul_xor, xor_mul, Residue.one_mul,
    UInt32.xor_assoc, UInt32.xor_comm, fun a ↦ ⟨UInt32.zero_xor, UInt32.xor_self⟩, ?_, ?_, ?_, ?_⟩
  · exact wordClass_xor castagnoli
  · exact wordClass_mul
  · exact wordClass_zero castagnoli
  · exact wordClass_one

end Residue

end InterleavedCrc
