import InterleavedCrc.Proofs.Combination
import InterleavedCrc.Proofs.Difference
import InterleavedCrc.Proofs.Stream

/-!
# What follows masks no difference

Whatever is fed behind two registers keeps them apart, and so does a run of zero bytes, be
it jumped over or looked up.  Registers being finite in number, each of them comes out as
well.  A combination tells either part when the other is known, the second one unless it is
empty.
-/

namespace InterleavedCrc

theorem bitwiseCrc_left_injective (data : List UInt8) :
    Function.Injective (bitwiseCrc · data) := by
  intro r s heq
  have hregister : Register.feed castagnoli (~~~r) data = Register.feed castagnoli (~~~s) data :=
    UInt32.not_inj.1 heq
  exact UInt32.not_inj.1 (Register.feed_left_injective (by decide) data hregister)

theorem crc32c_bijective {plan : Plan} (hplan : plan.Obtainable) (backend : Backend)
    (data : List UInt8) :
    Function.Bijective fun running ↦ crc32c backend.kernel running data plan := by
  apply Finite.injective_iff_bijective.1
  simpa only [crc32c_eq_bitwiseCrc hplan] using bitwiseCrc_left_injective data

theorem xor_bijective (word : UInt32) : Function.Bijective (word ^^^ ·) := by
  have hinv : Function.Involutive (word ^^^ ·) := by
    intro other
    simp
  exact hinv.bijective

/-- Not every residue can be cancelled from a product, but a power of `x` can. -/
theorem Residue.advance_bijective (n : ℕ) : Function.Bijective (advance · n) := by
  have hfeed : Function.Injective (Register.feed castagnoli · (List.replicate n 0)) :=
    Register.feed_left_injective (by decide) (List.replicate n 0)
  apply Finite.injective_iff_bijective.1
  simpa only [feed_zeros] using hfeed

theorem ZeroExtension.apply_bijective (n : ℕ) : Function.Bijective (ofLength n).apply := by
  have happly : (ofLength n).apply = (Residue.advance · n) := funext (apply_ofLength n)
  exact happly ▸ Residue.advance_bijective n

theorem combine_left_bijective (b : UInt32) (n : ℕ) : Function.Bijective (combine · b n) := by
  rcases Nat.eq_zero_or_pos n with rfl | hn
  · exact Function.bijective_id
  · have hcombine : (combine · b n) = (b ^^^ ·) ∘ (Residue.advance · n) := by
      funext a
      simp [combine, hn.ne', UInt32.xor_comm b]
    exact hcombine ▸ (xor_bijective b).comp (Residue.advance_bijective n)

theorem combine_right_bijective_iff (a : UInt32) (n : ℕ) :
    Function.Bijective (combine a · n) ↔ 0 < n := by
  rcases Nat.eq_zero_or_pos n with rfl | hn
  -- The combination with an empty part is the same for all checksums of that part.
  · have hsame : combine a 0 0 = combine a 1 0 := rfl
    have hnot : ¬ Function.Bijective (combine a · 0) := fun h ↦
      absurd (h.injective hsame) (by decide)
    simpa using hnot
  · have hcombine : (combine a · n) = (Residue.advance a n ^^^ ·) := by
      funext b
      simp [combine, hn.ne']
    simpa only [hcombine, hn, iff_true] using xor_bijective (Residue.advance a n)

/-- Of a checksum, a jump, the four look-ups and a combination, each is a bijection in the
register that it starts from; a combination is one in its second part too, if that is not
empty. -/
theorem no_suffix_masks_difference :
    (∀ plan : Plan, plan.Obtainable → ∀ (backend : Backend) (data : List UInt8),
      Function.Bijective fun running ↦ crc32c backend.kernel running data plan) ∧
    (∀ n : ℕ, Function.Bijective fun crc ↦ Residue.advance crc n) ∧
    (∀ n : ℕ, Function.Bijective fun crc ↦ (ZeroExtension.ofLength n).apply crc) ∧
    (∀ (b : UInt32) (n : ℕ), Function.Bijective fun a ↦ combine a b n) ∧
    ∀ (a : UInt32) (n : ℕ), Function.Bijective (fun b ↦ combine a b n) ↔ 0 < n := by
  refine ⟨?_, ?_, ?_, ?_, ?_⟩
  · intro plan hplan backend data
    exact crc32c_bijective hplan backend data
  · exact Residue.advance_bijective
  · exact ZeroExtension.apply_bijective
  · exact combine_left_bijective
  · exact combine_right_bijective_iff

/-- From one running checksum only do the digits lead to zero, and only one checksum of nine
bytes behind that of the digits gives zero. -/
theorem zero_behind_digits :
    nestedPlan.Obtainable ∧
      (∃! running, crc32c Backend.sse42.kernel running digits nestedPlan = 0) ∧
      ∃! b, combine (crc32c Backend.sse42.kernel 0 digits nestedPlan) b 9 = 0 := by
  obtain ⟨hchecksum, -, -, -, hcombine⟩ := no_suffix_masks_difference
  refine ⟨obtainable_nestedPlan, ?_, ?_⟩
  · exact (hchecksum nestedPlan obtainable_nestedPlan .sse42 digits).existsUnique 0
  · exact ((hcombine _ 9).2 (by decide)).existsUnique 0

end InterleavedCrc
