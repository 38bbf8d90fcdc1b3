import InterleavedCrc.Proofs.Difference
import InterleavedCrc.Proofs.Remainder

/-!
# Trailers

Its own four bytes, the lowest first, empty a register, and no other four bytes do
(`Register.feed_eq_zero_iff`).  So a message followed by the bytes of its checksum leaves what
four zeros leave of the starting register, and followed by any other four bytes it leaves
something else.  One constant therefore tells right trailers from wrong ones.
-/

namespace InterleavedCrc

/-- The bytes of a word, the lowest first. -/
def littleEndian (word : UInt32) : List UInt8 := lowBytes 4 word.toUInt64

/-- Any four bytes are those of some word. -/
theorem exists_littleEndian_eq {bytes : List UInt8} (h : bytes.length = 4) :
    ∃ word, littleEndian word = bytes := by
  have hle : bytes.length ≤ wordBytes := by simp [h, wordBytes]
  have hlt : (wordOfBytes bytes).toNat < 2 ^ 32 := by simpa [h] using wordOfBytes_lt hle
  have hword : (wordOfBytes bytes).toUInt32.toUInt64 = wordOfBytes bytes := by
    apply UInt64.toNat_inj.1
    simpa using Nat.mod_eq_of_lt hlt
  refine ⟨(wordOfBytes bytes).toUInt32, ?_⟩
  calc littleEndian (wordOfBytes bytes).toUInt32
      = lowBytes bytes.length (wordOfBytes bytes) := by rw [littleEndian, hword, h]
    _ = bytes := lowBytes_wordOfBytes hle

namespace Register

theorem feed_littleEndian_self (poly register : UInt32) :
    feed poly register (littleEndian register) = 0 :=
  feed_lowBytes_self poly register le_rfl

theorem feed_eq_zero_iff {poly : UInt32} (hpoly : poly.toBitVec.getMsbD 0 = true)
    (register : UInt32) {bytes : List UInt8} (h : bytes.length = 4) :
    feed poly register bytes = 0 ↔ bytes = littleEndian register := by
  constructor
  · intro hzero
    obtain ⟨word, rfl⟩ := exists_littleEndian_eq h
    -- The word that these bytes make up is emptied by them too, so it is the register.
    have hsame : feed poly register (littleEndian word) = feed poly word (littleEndian word) :=
      hzero.trans (feed_littleEndian_self poly word).symm
    exact congrArg littleEndian (feed_left_injective hpoly (littleEndian word) hsame).symm
  · rintro rfl
    exact feed_littleEndian_self poly register

/-- Four bytes have to make up for the difference of two registers. -/
theorem feed_eq_feed_zeros_iff {poly : UInt32} (hpoly : poly.toBitVec.getMsbD 0 = true)
    (register other : UInt32) {bytes : List UInt8} (h : bytes.length = 4) :
    feed poly register bytes = feed poly other [0, 0, 0, 0] ↔
      bytes = littleEndian (register ^^^ other) := by
  have hbytes : xorBytes bytes [0, 0, 0, 0] = bytes := by
    obtain ⟨word, rfl⟩ := exists_littleEndian_eq h
    simp [xorBytes, littleEndian, lowBytes]
  have hsum : feed poly (register ^^^ other) bytes
      = feed poly register bytes ^^^ feed poly other [0, 0, 0, 0] := by
    have hlength : bytes.length = [(0 : UInt8), 0, 0, 0].length := h
    simpa only [hbytes] using feed_xor poly register other hlength
  calc feed poly register bytes = feed poly other [0, 0, 0, 0]
      ↔ feed poly (register ^^^ other) bytes = 0 := by rw [hsum, UInt32.xor_eq_zero_iff]
    _ ↔ bytes = littleEndian (register ^^^ other) := feed_eq_zero_iff hpoly _ h

end Register

/-- What a message and its trailer leave does not depend on the message, the plans or the
backends, and no wrong trailer leaves it. -/
theorem trailer_is_recognised {p q s : Plan} (hp : p.Obtainable) (hq : q.Obtainable)
    (hs : s.Obtainable) (whole zeros message : Backend) (running : UInt32) (data : List UInt8)
    {trailer : List UInt8} (htrailer : trailer.length = 4) :
    crc32c zeros.kernel 0 [0, 0, 0, 0] q = 0x48674BC7 ∧
      (crc32c whole.kernel running (data ++ trailer) p = crc32c zeros.kernel 0 [0, 0, 0, 0] q ↔
        trailer = littleEndian (crc32c message.kernel running data s)) := by
  have hzeros : crc32c zeros.kernel 0 [0, 0, 0, 0] q
      = ~~~Register.feed castagnoli initialRegister [0, 0, 0, 0] :=
    crc32c_eq_register zeros.kernel_sound hq 0 [0, 0, 0, 0]
  have hwhole : crc32c whole.kernel running (data ++ trailer) p
      = ~~~Register.feed castagnoli (Register.feed castagnoli (~~~running) data) trailer := by
    rw [crc32c_eq_register whole.kernel_sound hp, Register.feed_append]
  have hmessage : Register.feed castagnoli (~~~running) data ^^^ initialRegister
      = crc32c message.kernel running data s := by
    rw [crc32c_eq_register message.kernel_sound hs, xor_initialRegister]
  constructor
  · rw [hzeros]
    decide +kernel
  · rw [hwhole, hzeros, UInt32.not_inj, ← hmessage]
    exact Register.feed_eq_feed_zeros_iff (by decide) _ initialRegister htrailer

/-- The checksum of the digits behind them, and the same with its last bit flipped. -/
theorem trailer_of_digits :
    nestedPlan.Obtainable ∧ Plan.sequential.Obtainable ∧ Plan.standard.Obtainable ∧
      crc32c Backend.sse42.kernel 0 (digits ++ [0x83, 0x92, 0x06, 0xE3]) nestedPlan = 0x48674BC7 ∧
      crc32c Backend.sse42.kernel 0 (digits ++ [0x83, 0x92, 0x06, 0x63]) nestedPlan
        ≠ 0x48674BC7 := by
  have hdigits : littleEndian (crc32c Backend.portable.kernel 0 digits .standard)
      = [0x83, 0x92, 0x06, 0xE3] := by
    rw [crc32c_eq_register Backend.portable.kernel_sound Plan.obtainable_standard]
    decide +kernel
  have hiff : ∀ {trailer : List UInt8}, trailer.length = 4 →
      (crc32c Backend.sse42.kernel 0 (digits ++ trailer) nestedPlan = 0x48674BC7 ↔
        trailer = [0x83, 0x92, 0x06, 0xE3]) := by
    intro trailer htrailer
    obtain ⟨hresidue, hright⟩ := trailer_is_recognised obtainable_nestedPlan
      Plan.obtainable_sequential Plan.obtainable_standard .sse42 .portable .portable 0 digits
      htrailer
    rwa [hresidue, hdigits] at hright
  exact ⟨obtainable_nestedPlan, Plan.obtainable_sequential, Plan.obtainable_standard,
    (hiff rfl).2 rfl, mt (hiff rfl).1 (by decide)⟩

end InterleavedCrc
