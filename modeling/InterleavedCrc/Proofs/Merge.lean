import InterleavedCrc.Residue
import InterleavedCrc.Proofs.LinearTables
import InterleavedCrc.Proofs.ResidueRing

/-!
# Zero extension and the merge of lanes

The tables of a zero extension hold a linear map byte by byte, so four look-ups
are one multiplication.  Lanes that started from zero merge into the register of
their concatenation.
-/

namespace InterleavedCrc

theorem getLsbD_byte_in_place (x : BitVec 32) (s : ℕ) {i : ℕ} (hi : i < 32) :
    (((x >>> s).setWidth 8).setWidth 32 <<< s).getLsbD i
      = (decide (s ≤ i ∧ i < s + 8) && x.getLsbD i) := by
  simp only [BitVec.getLsbD_shiftLeft, BitVec.getLsbD_setWidth, BitVec.getLsbD_ushiftRight, hi,
    decide_true, Bool.true_and]
  by_cases hs : s ≤ i
  · obtain ⟨k, rfl⟩ := Nat.exists_eq_add_of_le hs
    have h32 : k < 32 := by omega
    by_cases h8 : k < 8
    · simp [h8, h32]
    · simp [h8]
  · have hlow : i < s := Nat.lt_of_not_le hs
    simp [hs, hlow]

theorem register_eq_bytes (register : UInt32) :
    register.toUInt8.toUInt32 <<< 0 ^^^ (register >>> 8).toUInt8.toUInt32 <<< 8
      ^^^ (register >>> 16).toUInt8.toUInt32 <<< 16
      ^^^ (register >>> 24).toUInt8.toUInt32 <<< 24 = register := by
  apply UInt32.toBitVec_inj.1
  apply BitVec.eq_of_getLsbD_eq
  intro i hi
  change (((register.toBitVec >>> 0).setWidth 8).setWidth 32 <<< 0
    ^^^ ((register.toBitVec >>> 8).setWidth 8).setWidth 32 <<< 8
    ^^^ ((register.toBitVec >>> 16).setWidth 8).setWidth 32 <<< 16
    ^^^ ((register.toBitVec >>> 24).setWidth 8).setWidth 32 <<< 24).getLsbD i = _
  simp only [BitVec.getLsbD_xor, getLsbD_byte_in_place _ _ hi]
  have hbyte : i < 8 ∨ (8 ≤ i ∧ i < 16) ∨ (16 ≤ i ∧ i < 24) ∨ 24 ≤ i := by omega
  rcases hbyte with h | h | h | h <;>
    simp (disch := omega) only [decide_eq_true, decide_eq_false, Bool.true_and, Bool.false_and,
      Bool.xor_false, Bool.false_xor]

namespace ZeroExtension

theorem entry_ofLength (length : ℕ) (k : Fin 4) (byte : UInt8) :
    (ofLength length).tables[k].entry byte
      = Residue.advance (byte.toUInt32 <<< UInt32.ofNat (8 * k.val)) length := by
  have hf : XorLinear (Residue.mul (Residue.xPow8 length)) :=
    Residue.mul_xor (Residue.xPow8 length)
  rw [Residue.advance, ← ByteTable.entry_ofBits hf k byte]
  simp [ofLength, images]

theorem apply_ofLength (length : ℕ) (register : UInt32) :
    (ofLength length).apply register = Residue.advance register length := by
  have hf : XorLinear fun word ↦ Residue.advance word length :=
    Residue.mul_xor (Residue.xPow8 length)
  change (ofLength length).tables[(0 : Fin 4)].entry register.toUInt8
    ^^^ (ofLength length).tables[(1 : Fin 4)].entry (register >>> 8).toUInt8
    ^^^ (ofLength length).tables[(2 : Fin 4)].entry (register >>> 16).toUInt8
    ^^^ (ofLength length).tables[(3 : Fin 4)].entry (register >>> 24).toUInt8 = _
  rw [entry_ofLength, entry_ofLength, entry_ofLength, entry_ofLength, ← hf, ← hf, ← hf]
  exact congrArg (Residue.advance · length) (register_eq_bytes register)

theorem apply_ofLength_eq_feed (length : ℕ) (register : UInt32) :
    (ofLength length).apply register
      = Register.feed castagnoli register (List.replicate length 0) := by
  rw [apply_ofLength, Residue.feed_zeros]

/-- Lanes of one length merge into the register of their concatenation. -/
theorem merge_feed (n : ℕ) (register : UInt32) (first : List UInt8) (others : List (List UInt8))
    (h : ∀ lane ∈ others, lane.length = n) :
    (ofLength n).merge
        (Register.feed castagnoli register first :: others.map (Register.feed castagnoli 0))
      = Register.feed castagnoli register (first ++ others.flatten) := by
  -- The first lane grows by one lane at every step, so it must stay general.
  induction others generalizing first with
  | nil => simp
  | cons lane others ih =>
      have hlane : lane.length = n := h lane List.mem_cons_self
      have hstep : (ofLength n).apply (Register.feed castagnoli register first)
            ^^^ Register.feed castagnoli 0 lane
          = Register.feed castagnoli register (first ++ lane) := by
        rw [apply_ofLength, ← hlane, ← Residue.feed_append_eq]
      have hrest := ih (first ++ lane) fun other ho ↦ h other (List.mem_cons_of_mem lane ho)
      rw [List.map_cons, merge_cons_cons, hstep, hrest, List.flatten_cons, List.append_assoc]

end ZeroExtension

end InterleavedCrc
