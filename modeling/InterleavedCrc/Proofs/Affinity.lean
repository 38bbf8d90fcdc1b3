import InterleavedCrc.Proofs.Remainder

/-!
# Sums of checksums

Levels do not change that a register is linear: along any accepted ones, the sum of two
registers over the sum of two byte strings ends in the sum of their ends
(`Kernel.feedAlong_xor`).  Inversion is not linear but keeps the sum of three, and so does a
checksum.
-/

namespace InterleavedCrc

theorem length_xorBytes {a b : List UInt8} (h : a.length = b.length) :
    (xorBytes a b).length = a.length := by
  rw [xorBytes, List.length_zipWith, h, Nat.min_self]

/-- Three inversions leave one. -/
theorem not_xor_xor (a b c : UInt32) : ~~~(a ^^^ b ^^^ c) = ~~~a ^^^ ~~~b ^^^ ~~~c := by
  simp only [UInt32.not_xor, UInt32.xor_not, UInt32.not_not]

theorem Kernel.feedAlong_xor {kernel : Kernel} (hkernel : kernel.Sound) {levels : List Level}
    (hlevels : ∀ level ∈ levels, level.Valid) (r s : UInt32) {a b : List UInt8}
    (h : a.length = b.length) :
    kernel.feedAlong levels (r ^^^ s) (xorBytes a b)
      = kernel.feedAlong levels r a ^^^ kernel.feedAlong levels s b := by
  simp only [feedAlong_eq hkernel hlevels]
  exact Register.feed_xor castagnoli r s h

theorem Register.not_feed_not_xor_xor (poly r s t : UInt32) {a b c : List UInt8}
    (hab : a.length = b.length) (hbc : b.length = c.length) :
    ~~~feed poly (~~~(r ^^^ s ^^^ t)) (xorBytes (xorBytes a b) c)
      = ~~~feed poly (~~~r) a ^^^ ~~~feed poly (~~~s) b ^^^ ~~~feed poly (~~~t) c := by
  have habc : (xorBytes a b).length = c.length := (length_xorBytes hab).trans (hab.trans hbc)
  rw [not_xor_xor, feed_xor poly _ _ habc, feed_xor poly _ _ hab, not_xor_xor]

/-- Of three byte strings of one length, the checksums add up to that of the sum, whatever the
plans and the backends.  Of two, the registers do. -/
theorem checksum_is_affine :
    (∀ p q s t : Plan, p.Obtainable → q.Obtainable → s.Obtainable → t.Obtainable →
      ∀ (whole first second third : Backend) (r₁ r₂ r₃ : UInt32) (a b c : List UInt8),
        a.length = b.length → b.length = c.length →
          crc32c whole.kernel (r₁ ^^^ r₂ ^^^ r₃) (xorBytes (xorBytes a b) c) p
            = crc32c first.kernel r₁ a q ^^^ crc32c second.kernel r₂ b s
              ^^^ crc32c third.kernel r₃ c t) ∧
    ∀ levels : List Level, (∀ level ∈ levels, ∃ depth shape, Level.make depth shape = .ok level) →
      ∀ (backend : Backend) (x y : UInt32) (a b : List UInt8), a.length = b.length →
        backend.kernel.feedAlong levels (x ^^^ y) (xorBytes a b)
          = backend.kernel.feedAlong levels x a ^^^ backend.kernel.feedAlong levels y b := by
  constructor
  · intro p q s t hp hq hs ht whole first second third r₁ r₂ r₃ a b c hab hbc
    rw [crc32c_eq_register whole.kernel_sound hp, crc32c_eq_register first.kernel_sound hq,
      crc32c_eq_register second.kernel_sound hs, crc32c_eq_register third.kernel_sound ht]
    exact Register.not_feed_not_xor_xor castagnoli r₁ r₂ r₃ hab hbc
  · intro levels hmade backend x y a b h
    have hlevels : ∀ level ∈ levels, level.Valid := by
      intro level hlevel
      obtain ⟨depth, shape, hmake⟩ := hmade level hlevel
      exact Level.valid_of_make hmake
    exact Kernel.feedAlong_xor backend.kernel_sound hlevels x y h

/-- The digits at odd places, and zeros at the others. -/
def oddDigits : List UInt8 := [0x31, 0, 0x33, 0, 0x35, 0, 0x37, 0, 0x39]

def evenDigits : List UInt8 := [0, 0x32, 0, 0x34, 0, 0x36, 0, 0x38, 0]

theorem digits_from_odd_and_even :
    nestedPlan.Obtainable ∧ Plan.standard.Obtainable ∧ Plan.sequential.Obtainable ∧
      xorBytes (xorBytes oddDigits evenDigits) (List.replicate 9 0) = digits ∧
      crc32c Backend.sse42.kernel 1 oddDigits nestedPlan
          ^^^ crc32c Backend.portable.kernel 2 evenDigits .standard
          ^^^ crc32c Backend.sse42.kernel 3 (List.replicate 9 0) .sequential = 0xE3069283 ∧
      Kernel.portable.feedAlong nestedPlan.levels 3 digits
        = Kernel.portable.feedAlong nestedPlan.levels 1 oddDigits
          ^^^ Kernel.portable.feedAlong nestedPlan.levels 2 evenDigits := by
  obtain ⟨hthree, htwo⟩ := checksum_is_affine
  have hsum : xorBytes (xorBytes oddDigits evenDigits) (List.replicate 9 0) = digits := rfl
  have hvalue : crc32c Backend.portable.kernel 0 digits nestedPlan = 0xE3069283 := by
    rw [crc32c_eq_register Backend.portable.kernel_sound obtainable_nestedPlan]
    decide +kernel
  have hmade : ∀ level ∈ nestedPlan.levels,
      ∃ depth shape, Level.make depth shape = .ok level := by
    have houter : Level.make 0 ⟨2, 1⟩ = .ok (Level.ofShape ⟨2, 1⟩) := rfl
    have hinner : Level.make 1 ⟨1, 2⟩ = .ok (Level.ofShape ⟨1, 2⟩) := rfl
    simp only [nestedPlan, List.forall_mem_cons]
    exact ⟨⟨_, _, houter⟩, ⟨_, _, hinner⟩, by simp⟩
  have hchecksums := hthree nestedPlan nestedPlan .standard .sequential obtainable_nestedPlan
    obtainable_nestedPlan Plan.obtainable_standard Plan.obtainable_sequential
    .portable .sse42 .portable .sse42 1 2 3 oddDigits evenDigits (List.replicate 9 0) rfl rfl
  have hregisters := htwo nestedPlan.levels hmade .portable 1 2 oddDigits evenDigits rfl
  refine ⟨obtainable_nestedPlan, Plan.obtainable_standard, Plan.obtainable_sequential, hsum, ?_,
    hregisters⟩
  rw [← hchecksums, hsum]
  exact hvalue

end InterleavedCrc
