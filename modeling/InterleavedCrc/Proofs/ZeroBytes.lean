import InterleavedCrc.Proofs.Combination
import InterleavedCrc.Proofs.Products
import Mathlib.Data.Nat.Size

/-!
# Runs of zero bytes

A run of zero bytes can be fed byte by byte, jumped over by one product with a power of
`x`, or looked up in the tables made for its length; all three ways lead to the same
register.

The power is found in as many turns of repeated squaring as the length has binary digits
(`Residue.Powering.loop_eq_iterate`).  They leave what as many single multiplications as the
length counts would leave (`Residue.Powering.result_loop`), so exponents add up, and so do
the lengths of jumps.
-/

namespace InterleavedCrc

/-! ## Powers by repeated squaring -/

namespace Residue

namespace Powering

theorem size_eq_size_div_two_add_one {n : ℕ} (h : n ≠ 0) : n.size = (n / 2).size + 1 := by
  have hbit : Nat.bit n.bodd n.div2 = n := Nat.bit_bodd_div2 n
  have hsize := Nat.size_bit (hbit.symm ▸ h)
  rwa [hbit, Nat.div2_val] at hsize

/-- One turn for each digit. -/
theorem loop_eq_iterate (p : Powering) : p.loop = turn^[p.exponent.size] p := by
  induction p using loop.induct with
  | case1 p h =>
      rw [loop_of_exponent_eq_zero h, h, Nat.size_zero, Function.iterate_zero_apply]
  | case2 p h ih =>
      rw [loop_of_exponent_ne_zero h, size_eq_size_div_two_add_one h,
        Function.iterate_succ_apply]
      exact ih

end Powering

theorem wordClass_iterate_mul (factor a : UInt32) (n : ℕ) :
    wordClass castagnoli ((mul factor)^[n] a)
      = wordClass castagnoli factor ^ n * wordClass castagnoli a := by
  induction n with
  | zero => simp
  | succ n ih => rw [Function.iterate_succ_apply', wordClass_mul, ih, pow_succ', mul_assoc]

/-- Repeated squaring multiplies as often as the exponent says. -/
theorem Powering.result_loop (p : Powering) :
    p.loop.result = (mul p.square)^[p.exponent] p.result := by
  apply wordClass_injective castagnoli
  rw [wordClass_result_loop, wordClass_iterate_mul]

theorem xPow8_add (m n : ℕ) : xPow8 (m + n) = mul (xPow8 m) (xPow8 n) := by
  apply wordClass_injective castagnoli
  rw [wordClass_mul, wordClass_xPow8, wordClass_xPow8, wordClass_xPow8, ← pow_add, mul_add]

theorem advance_advance (register : UInt32) (m n : ℕ) :
    advance (advance register m) n = advance register (m + n) := by
  rw [advance, advance, advance, ← Residue.mul_assoc, ← xPow8_add, Nat.add_comm]

/-- The loop ends, for a machine word after at most sixty-four turns, and leaves `n`
factors of `x^8`; so jumps follow one another in any order. -/
theorem powers_by_repeated_squaring :
    (∀ n : ℕ,
      (Powering.loop ⟨x8, one, n⟩).exponent = 0 ∧
      Powering.loop ⟨x8, one, n⟩ = Powering.turn^[n.size] ⟨x8, one, n⟩ ∧
      (Powering.loop ⟨x8, one, n⟩).result = xPow8 n ∧
      xPow8 n = (mul x8)^[n] one ∧
      xPow8 n = (fun power ↦ mul power x8)^[n] one) ∧
    (∀ n : UInt64, ∃ turns ≤ 64,
      Powering.loop ⟨x8, one, n.toNat⟩ = Powering.turn^[turns] ⟨x8, one, n.toNat⟩) ∧
    (∀ m n : ℕ, xPow8 (m + n) = mul (xPow8 m) (xPow8 n)) ∧
    ∀ (register : UInt32) (m n : ℕ),
      advance (advance register m) n = advance register (m + n) ∧
      advance register (m + n) = advance (advance register n) m := by
  have hright : (fun power ↦ mul power x8) = mul x8 :=
    funext fun power ↦ Residue.mul_comm power x8
  refine ⟨fun n ↦ ⟨?_, ?_, ?_, ?_, ?_⟩, fun n ↦ ⟨n.toNat.size, ?_, ?_⟩, xPow8_add, ?_⟩
  · exact Powering.exponent_loop _
  · exact Powering.loop_eq_iterate _
  · rfl
  · exact Powering.result_loop ⟨x8, one, n⟩
  · rw [hright]
    exact Powering.result_loop ⟨x8, one, n⟩
  · exact Nat.size_le.2 n.toNat_lt
  · exact Powering.loop_eq_iterate _
  · intro register m n
    refine ⟨advance_advance register m n, ?_⟩
    rw [advance_advance, Nat.add_comm]

end Residue

/-! ## Three ways over a run -/

theorem Register.feed_zeros_eq_iterate (poly register : UInt32) (n : ℕ) :
    feed poly register (List.replicate n 0) = (absorb poly · 0)^[n] register := by
  induction n generalizing register with
  | zero => rfl
  | succ n ih => rw [List.replicate_succ, feed_cons, ih, Function.iterate_succ_apply]

/-- The jump, of a logarithmic number of turns, ends where the bytes lead one by one. -/
theorem jump_over_zero_bytes (register : UInt32) (n : ℕ) :
    Residue.advance register n = Register.feed castagnoli register (List.replicate n 0) ∧
      Residue.advance register n = (Register.absorb castagnoli · 0)^[n] register ∧
      (Residue.Powering.loop ⟨Residue.x8, Residue.one, n⟩).exponent = 0 ∧
      Residue.Powering.loop ⟨Residue.x8, Residue.one, n⟩
        = Residue.Powering.turn^[n.size] ⟨Residue.x8, Residue.one, n⟩ ∧
      Residue.advance register n
        = Residue.mul (Residue.Powering.loop ⟨Residue.x8, Residue.one, n⟩).result register := by
  have hfeed : Residue.advance register n
      = Register.feed castagnoli register (List.replicate n 0) :=
    (Residue.feed_zeros register n).symm
  refine ⟨hfeed, ?_, Residue.Powering.exponent_loop _, Residue.Powering.loop_eq_iterate _, rfl⟩
  rw [hfeed, Register.feed_zeros_eq_iterate]

/-- The tables of a length hold the jump over it, for each byte of the register. -/
theorem lookups_over_zero_bytes (length : ℕ) :
    (∀ register, (ZeroExtension.ofLength length).apply register
      = Residue.advance register length) ∧
    (ZeroExtension.ofLength length).length = length ∧
    ∀ (k : Fin 4) (byte : UInt8),
      ((ZeroExtension.ofLength length).tables.get k).entry byte
        = Residue.advance (byte.toUInt32 <<< UInt32.ofNat (8 * k.val)) length :=
  ⟨ZeroExtension.apply_ofLength length, ZeroExtension.length_ofLength length,
    ZeroExtension.entry_ofLength length⟩

end InterleavedCrc
