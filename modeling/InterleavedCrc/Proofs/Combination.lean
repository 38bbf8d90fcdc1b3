import InterleavedCrc.Hasher.Basic
import InterleavedCrc.Proofs.Remainder

/-!
# Combination of checksums

The register after two parts is the first one advanced past the second part, plus
that of the second part from zero.  Inverted checksums obey the same law, since the
inversion of the second one carries the starting ones that the first must lose.
-/

namespace InterleavedCrc

namespace Residue

@[simp] theorem advance_zero (register : UInt32) : advance register 0 = register := by
  apply wordClass_injective castagnoli
  rw [wordClass_advance, Nat.mul_zero, pow_zero, one_mul]

theorem advance_xor (a b : UInt32) (n : ℕ) :
    advance (a ^^^ b) n = advance a n ^^^ advance b n :=
  mul_xor (xPow8 n) a b

end Residue

/-- An empty second part makes no exception when its checksum is that of nothing. -/
theorem combine_eq_advance_xor {a b : UInt32} {length : ℕ} (h : length = 0 → b = 0) :
    combine a b length = Residue.advance a length ^^^ b := by
  by_cases hlength : length = 0
  · rw [hlength, combine_zero, Residue.advance_zero, h hlength, UInt32.xor_zero]
  · rw [combine, if_neg hlength]

theorem combine_feed (register : UInt32) (a b : List UInt8) :
    combine (Register.feed castagnoli register a) (Register.feed castagnoli 0 b) b.length
      = Register.feed castagnoli register (a ++ b) := by
  have hempty : b.length = 0 → Register.feed castagnoli 0 b = 0 := by
    intro hb
    rw [List.eq_nil_of_length_eq_zero hb, Register.feed_nil]
  rw [combine_eq_advance_xor hempty, Residue.feed_append_eq]

/-- The starting ones of the second part cancel against the inversion of the first. -/
theorem combine_not_feed (register : UInt32) (a b : List UInt8) :
    combine (~~~Register.feed castagnoli register a)
        (~~~Register.feed castagnoli initialRegister b) b.length
      = ~~~Register.feed castagnoli register (a ++ b) := by
  have hempty : b.length = 0 → ~~~Register.feed castagnoli initialRegister b = 0 := by
    intro hb
    rw [List.eq_nil_of_length_eq_zero hb, Register.feed_nil]
    rfl
  have hsecond := Residue.feed_eq_advance_xor initialRegister b
  have hcancel : ∀ x y z : UInt32,
      (x ^^^ y) ^^^ ((y ^^^ z) ^^^ initialRegister) = (x ^^^ z) ^^^ initialRegister := by
    intro x y z
    have hpair : (x ^^^ y) ^^^ ((y ^^^ z) ^^^ initialRegister)
        = (y ^^^ y) ^^^ ((x ^^^ z) ^^^ initialRegister) := by ac_rfl
    rw [hpair, UInt32.xor_self, UInt32.zero_xor]
  rw [combine_eq_advance_xor hempty, ← xor_initialRegister, ← xor_initialRegister,
    ← xor_initialRegister, Residue.advance_xor, hsecond, hcancel, Residue.feed_append_eq]

theorem combine_is_concatenation :
    (∀ (register : UInt32) (a b : List UInt8),
      combine (Register.feed castagnoli register a) (Register.feed castagnoli 0 b) b.length
        = Register.feed castagnoli register (a ++ b)) ∧
    (∀ p q s : Plan, p.Obtainable → q.Obtainable → s.Obtainable →
      ∀ (first second whole : Backend) (running : UInt32) (a b : List UInt8),
        combine (crc32c first.kernel running a p) (crc32c second.kernel 0 b q) b.length
          = crc32c whole.kernel running (a ++ b) s) ∧
    ∀ (backend : Backend) (a b : UInt32) (length : ℕ),
      (CombiningAlgorithm.crc32c backend.kernel).combine a b length = combine a b length := by
  refine ⟨combine_feed, ?_, fun backend a b length ↦ rfl⟩
  intro p q s hp hq hs first second whole running a b
  rw [crc32c_eq_register first.kernel_sound hp, crc32c_eq_register second.kernel_sound hq,
    crc32c_eq_register whole.kernel_sound hs]
  exact combine_not_feed (~~~running) a b

theorem combine_of_digits :
    nestedPlan.Obtainable ∧ Plan.sequential.Obtainable ∧ Plan.standard.Obtainable ∧
      combine (crc32c Backend.sse42.kernel 0 [0x31, 0x32, 0x33, 0x34] nestedPlan)
          (crc32c Kernel.portable 0 [0x35, 0x36, 0x37, 0x38, 0x39] .sequential) 5
        = 0xE3069283 := by
  have hcombine := combine_is_concatenation.2.1 nestedPlan .sequential .standard
    obtainable_nestedPlan Plan.obtainable_sequential Plan.obtainable_standard
    .sse42 .portable .portable 0 [0x31, 0x32, 0x33, 0x34] [0x35, 0x36, 0x37, 0x38, 0x39]
  have hvalue : crc32c Backend.portable.kernel 0 digits Plan.standard = 0xE3069283 := by
    rw [crc32c_eq_register Backend.portable.kernel_sound Plan.obtainable_standard]
    decide +kernel
  exact ⟨obtainable_nestedPlan, Plan.obtainable_sequential, Plan.obtainable_standard,
    hcombine.trans hvalue⟩

end InterleavedCrc
