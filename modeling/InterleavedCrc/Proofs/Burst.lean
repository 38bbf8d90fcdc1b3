import InterleavedCrc.Proofs.Difference

/-!
# Bursts are detected

The difference of a burst is a power of `x` times a polynomial of degree below 32.
The power is invertible modulo the generator, and the generator is too large to divide
what is left.
-/

namespace InterleavedCrc

open Polynomial

/-- The messages differ, and only inside 32 consecutive positions. -/
structure DifferInBurst (first : ℕ) (a b : List UInt8) : Prop where
  length_eq : a.length = b.length
  differ : ∃ position, bitAt a position ≠ bitAt b position
  within : ∀ position, bitAt a position ≠ bitAt b position →
    first ≤ position ∧ position < first + 32

/-- A nonzero polynomial whose terms lie among 32 consecutive powers. -/
theorem not_generator_dvd {poly : UInt32} (hpoly : poly.toBitVec.getMsbD 0 = true)
    {p : (ZMod 2)[X]} (hp : p ≠ 0) {low : ℕ}
    (hwindow : ∀ i, p.coeff i ≠ 0 → low ≤ i ∧ i < low + 32) : ¬ generator poly ∣ p := by
  obtain ⟨burst, rfl⟩ : X ^ low ∣ p := by
    rw [X_pow_dvd_iff]
    intro i hi
    by_contra hcoeff
    exact absurd (hwindow i hcoeff).1 (Nat.not_le.2 hi)
  have hdegree : burst.degree < (generator poly).degree := by
    rw [degree_generator]
    refine (degree_lt_iff_coeff_zero _ 32).2 fun i hi ↦ ?_
    by_contra hcoeff
    have hlt := (hwindow (i + low) (by rwa [coeff_X_pow_mul])).2
    omega
  rw [mul_comm, dvd_mul_X_pow_iff hpoly]
  exact (generator_monic poly).not_dvd_of_degree_lt (right_ne_zero_of_mul hp) hdegree

namespace DifferInBurst

variable {first : ℕ} {a b : List UInt8}

/-- The last position of the burst stands for its lowest power, unless the message ends
first. -/
theorem not_dvd_messagePoly (h : DifferInBurst first a b) :
    ¬ generator castagnoli ∣ messagePoly a - messagePoly b := by
  obtain ⟨position, hposition⟩ := h.differ
  have hne : messagePoly a - messagePoly b ≠ 0 :=
    sub_ne_zero.2 (messagePoly_ne h.length_eq hposition)
  have hwindow : ∀ i, (messagePoly a - messagePoly b).coeff i ≠ 0 →
      8 * a.length - (first + 32) ≤ i ∧ i < 8 * a.length - (first + 32) + 32 := by
    intro i hi
    obtain ⟨position, hsum, hdiffer⟩ := exists_position_of_coeff_ne_zero h.length_eq hi
    have hwithin := h.within position hdiffer
    omega
  exact not_generator_dvd (by decide) hne hwindow

end DifferInBurst

theorem burst_is_detected {first : ℕ} {a b : List UInt8} (h : DifferInBurst first a b)
    {plan : Plan} (hplan : plan.Obtainable) (backend : Backend) (running : UInt32) :
    crc32c backend.kernel running a plan ≠ crc32c backend.kernel running b plan := by
  rw [Ne, crc32c_eq_crc32c_iff hplan hplan backend backend running h.length_eq]
  exact h.not_dvd_messagePoly

/-- The bytes from zero to thirty-six. -/
def ascending : List UInt8 := (List.range 37).map UInt8.ofNat

/-- The same bytes after a burst from the last bit of the fourteenth byte to the seventh
bit of the eighteenth.  The first block of the nested plan ends inside it. -/
def ascendingBent : List UInt8 := ((ascending.set 13 0x8D).set 15 0xAA).set 17 0x51

theorem burst_in_ascending :
    DifferInBurst 111 ascending ascendingBent ∧ nestedPlan.Obtainable ∧
      crc32c Backend.sse42.kernel 0 ascending nestedPlan
        ≠ crc32c Backend.sse42.kernel 0 ascendingBent nestedPlan := by
  have hlength : ascending.length = ascendingBent.length := by simp [ascendingBent]
  have hbounded : ∀ position < 8 * ascending.length,
      bitAt ascending position ≠ bitAt ascendingBent position →
        111 ≤ position ∧ position < 111 + 32 := by
    decide +kernel
  have hburst : DifferInBurst 111 ascending ascendingBent :=
    { length_eq := hlength
      differ := ⟨111, by decide +kernel⟩
      within := fun position h ↦ hbounded position (lt_of_bitAt_ne hlength h) h }
  exact ⟨hburst, obtainable_nestedPlan,
    burst_is_detected hburst obtainable_nestedPlan .sse42 0⟩

end InterleavedCrc
