import InterleavedCrc.Tables
import Mathlib.Data.Nat.Notation

/-!
# Tables of linear maps

A linear map of words, restricted to one byte of the word, is tabulated from the images
of eight bits.  The table is filled upwards: a byte is the sum of its lowest bit and of a
smaller byte, whose entry is already there (`ByteTable.entry_ofBits`).
-/

namespace InterleavedCrc

def XorLinear (f : UInt32 → UInt32) : Prop := ∀ a b, f (a ^^^ b) = f a ^^^ f b

theorem XorLinear.map_zero {f : UInt32 → UInt32} (hf : XorLinear f) : f 0 = 0 := by
  have h := hf 0 0
  rwa [UInt32.xor_self, UInt32.xor_self] at h

namespace ByteTable

theorem toNat_clearLowest_lt {byte : UInt8} (h : byte ≠ 0) :
    (clearLowest byte).toNat < byte.toNat := by
  have hpos : 0 < byte.toNat := Nat.pos_of_ne_zero fun h0 ↦ h (UInt8.toNat_inj.1 h0)
  have hone : (1 : UInt8) ≤ byte := UInt8.le_iff_toNat_le.2 hpos
  have hle : (clearLowest byte).toNat ≤ (byte - 1).toNat := by
    rw [clearLowest, UInt8.toNat_and]
    exact Nat.and_le_right
  have hpred : (byte - 1).toNat = byte.toNat - 1 := UInt8.toNat_sub_of_le byte 1 hone
  omega

/-- In each place of the word a byte is the byte without its lowest bit, and that bit. -/
theorem shiftLeft_eq_clearLowest_xor (k : Fin 4) {byte : UInt8} (h : byte ≠ 0) :
    byte.toUInt32 <<< UInt32.ofNat (8 * k.val)
      = (clearLowest byte).toUInt32 <<< UInt32.ofNat (8 * k.val)
        ^^^ 1 <<< UInt32.ofNat (8 * k.val + (lowestBit byte).val) := by
  have hall : ∀ k : Fin 4, ∀ b : Fin 256, b ≠ 0 →
      (UInt8.ofNat b.val).toUInt32 <<< UInt32.ofNat (8 * k.val)
        = (clearLowest (UInt8.ofNat b.val)).toUInt32 <<< UInt32.ofNat (8 * k.val)
          ^^^ 1 <<< UInt32.ofNat (8 * k.val + (lowestBit (UInt8.ofNat b.val)).val) := by
    decide +kernel
  have hne : (⟨byte.toNat, byte.toNat_lt⟩ : Fin 256) ≠ 0 :=
    fun h0 ↦ h (UInt8.toNat_inj.1 (Fin.val_eq_of_eq h0))
  have hbyte := hall k ⟨byte.toNat, byte.toNat_lt⟩ hne
  rwa [UInt8.ofNat_toNat] at hbyte

/-- Entries are final once they are filled. -/
theorem entry_filled {f : UInt32 → UInt32} (hf : XorLinear f) (k : Fin 4) {last : ℕ}
    (hlast : last < 256) {byte : UInt8} (h : byte.toNat ≤ last) :
    (filled (fun i ↦ f (1 <<< UInt32.ofNat (8 * k.val + i.val))) last).entry byte
      = f (byte.toUInt32 <<< UInt32.ofNat (8 * k.val)) := by
  induction last generalizing byte with
  | zero =>
      have hzero : byte = 0 := UInt8.toNat_inj.1 (Nat.le_zero.1 h)
      have hword : (0 : UInt8).toUInt32 = 0 := rfl
      rw [filled, entry_ofFn, hzero, hword, UInt32.zero_shiftLeft, hf.map_zero]
  | succ last ih =>
      have hearlier : last < 256 := by omega
      have hnew : (UInt8.ofNat (last + 1)).toNat = last + 1 := UInt8.toNat_ofNat_of_lt' hlast
      rw [filled, fill]
      by_cases heq : byte = UInt8.ofNat (last + 1)
      · have hne : byte ≠ 0 := by
          rintro rfl
          rw [← heq] at hnew
          exact Nat.succ_ne_zero last hnew.symm
        -- The byte without its lowest bit is smaller, so its entry was filled before.
        have hlower := toNat_clearLowest_lt hne
        rw [← heq, entry_put_self, ih hearlier (by omega), ← hf,
          ← shiftLeft_eq_clearLowest_xor k hne]
      · have hold : byte.toNat ≠ last + 1 :=
          fun hn ↦ heq (UInt8.toNat_inj.1 (hn.trans hnew.symm))
        rw [entry_put_ne _ heq, ih hearlier (by omega)]

theorem entry_ofBits {f : UInt32 → UInt32} (hf : XorLinear f) (k : Fin 4) (byte : UInt8) :
    (ofBits fun i ↦ f (1 <<< UInt32.ofNat (8 * k.val + i.val))).entry byte
      = f (byte.toUInt32 <<< UInt32.ofNat (8 * k.val)) :=
  entry_filled hf k (by decide) (Nat.le_of_lt_succ byte.toNat_lt)

end ByteTable

end InterleavedCrc
