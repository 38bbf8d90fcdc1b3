import InterleavedCrc.Proofs.AnyPlan

/-!
# The checksum by polynomial division

The register is a remainder, and the Castagnoli polynomial may be read from either
end.  So the checksum from zero, along any plan, is the remainder of the message
under a register of ones, with all bits inverted.
-/

namespace InterleavedCrc

open Polynomial

theorem generator_castagnoli : generator castagnoli = X ^ 32 + normalPoly castagnoliNormal := by
  rw [generator, normalPoly_eq_of_reverse reverse_castagnoliNormal]

theorem Register.feed_eq_reflectedWord (poly register : UInt32) (data : List UInt8) :
    feed poly register data = reflectedWord (remainder (generator poly) register data) := by
  rw [← reflectedPoly_feed, reflectedWord_reflectedPoly]

/-- The digits one to nine in ASCII. -/
def digits : List UInt8 := [0x31, 0x32, 0x33, 0x34, 0x35, 0x36, 0x37, 0x38, 0x39]

theorem register_is_remainder :
    (∀ (poly register : UInt32) (data : List UInt8),
      reflectedPoly (Register.feed poly register data)
          = remainder (X ^ 32 + reflectedPoly poly) register data ∧
        Register.feed poly register data
          = reflectedWord (remainder (X ^ 32 + reflectedPoly poly) register data)) ∧
    (∀ (register : UInt32) (data : List UInt8),
      Register.feed castagnoli register data
        = reflectedWord (remainder (X ^ 32 + normalPoly castagnoliNormal) register data)) ∧
    ∀ plan : Plan, plan.Obtainable → ∀ (backend : Backend) (data : List UInt8),
      crc32c backend.kernel 0 data plan
        = reflectedWord
            (remainder (X ^ 32 + normalPoly castagnoliNormal) initialRegister data)
          ^^^ initialRegister := by
  have hcastagnoli : ∀ (register : UInt32) (data : List UInt8),
      Register.feed castagnoli register data
        = reflectedWord (remainder (X ^ 32 + normalPoly castagnoliNormal) register data) := by
    intro register data
    rw [← generator_castagnoli]
    exact Register.feed_eq_reflectedWord castagnoli register data
  refine ⟨fun poly register data ↦ ⟨?_, ?_⟩, hcastagnoli, fun plan hplan backend data ↦ ?_⟩
  · exact Register.reflectedPoly_feed poly register data
  · exact Register.feed_eq_reflectedWord poly register data
  · rw [← hcastagnoli, xor_initialRegister, crc32c_eq_register backend.kernel_sound hplan]
    rfl

theorem remainder_of_digits :
    Plan.standard.Obtainable ∧
      reflectedWord (remainder (X ^ 32 + normalPoly castagnoliNormal) initialRegister digits)
          ^^^ initialRegister = 0xE3069283 := by
  have hvalue : crc32c Backend.sse42.kernel 0 digits Plan.standard = 0xE3069283 := by
    rw [crc32c_eq_register Backend.sse42.kernel_sound Plan.obtainable_standard]
    decide +kernel
  have hremainder := register_is_remainder.2.2 Plan.standard Plan.obtainable_standard .sse42 digits
  exact ⟨Plan.obtainable_standard, hremainder.symm.trans hvalue⟩

end InterleavedCrc
