import InterleavedCrc.Kernel
import InterleavedCrc.Proofs.Linearity

/-!
# Slicing by eight is sound

A byte that enters the zero register and is followed by `t` zero bytes leaves the
entry of table `t`.  A word is the sum of such bytes once the register has been
traded for the bytes it cancels, so eight look-ups feed a whole word.
-/

namespace InterleavedCrc

namespace ByteTable

theorem entry_ofPolynomial (poly : UInt32) (byte : UInt8) :
    (ofPolynomial poly).entry byte = Register.absorb poly 0 byte := by
  rw [ofPolynomial, entry_ofFn]

theorem entry_next (poly : UInt32) (table : ByteTable) (byte : UInt8) :
    (next (ofPolynomial poly) table).entry byte = Register.absorb poly (table.entry byte) 0 := by
  rw [next, entry_ofFn, Register.absorb_eq poly (table.entry byte), UInt8.xor_zero,
    ← entry_ofPolynomial]

theorem entry_after (poly : UInt32) (t : ℕ) (byte : UInt8) :
    ((ofPolynomial poly).after t).entry byte
      = Register.feed poly 0 (byte :: List.replicate t 0) := by
  induction t with
  | zero => exact entry_ofPolynomial poly byte
  | succ t ih =>
      rw [after, entry_next, ih, List.replicate_succ', ← List.cons_append, Register.feed_append]
      rfl

end ByteTable

/-! ## The bytes of a word -/

theorem lowBytes_xor (count : ℕ) (a b : UInt64) :
    lowBytes count (a ^^^ b) = xorBytes (lowBytes count a) (lowBytes count b) := by
  induction count generalizing a b with
  | zero => rfl
  | succ count ih =>
      rw [lowBytes, UInt64.toUInt8_xor, UInt64.shiftRight_xor, ih]
      rfl

theorem shiftRight_shiftRight (word : UInt64) {i j : UInt64} (h : i.toNat + j.toNat < 64) :
    word >>> i >>> j = word >>> (i + j) := by
  have hadd : (i + j).toNat = i.toNat + j.toNat := by
    rw [UInt64.toNat_add, Nat.mod_eq_of_lt (by omega)]
  have hi : i.toNat < 64 := by omega
  have hj : j.toNat < 64 := by omega
  apply UInt64.toNat_inj.1
  rw [UInt64.toNat_shiftRight, UInt64.toNat_shiftRight, UInt64.toNat_shiftRight, hadd,
    Nat.mod_eq_of_lt hi, Nat.mod_eq_of_lt hj, Nat.mod_eq_of_lt h, Nat.shiftRight_add]

theorem bytesOfWord_eq (word : UInt64) :
    bytesOfWord word
      = [byteAt word 0, byteAt word 1, byteAt word 2, byteAt word 3, byteAt word 4,
        byteAt word 5, byteAt word 6, byteAt word 7] := by
  simp (disch := decide) only [bytesOfWord, wordBytes, lowBytes, byteAt, shiftRight_shiftRight]
  rfl

namespace SlicingTables

/-- The entry of table `t`. -/
def lookUp (slices : SlicingTables) (t : Fin 8) (byte : UInt8) : UInt32 :=
  (slices.tables.get t).entry byte

theorem entry_tables (poly : UInt32) {t : ℕ} (ht : t < 8) (byte : UInt8) :
    ((ofPolynomial poly).tables[t]).entry byte
      = Register.feed poly 0 (byte :: List.replicate t 0) := by
  rw [tables_ofPolynomial poly ht, ByteTable.entry_after]

theorem absorbByte_ofPolynomial (poly register : UInt32) (byte : UInt8) :
    (ofPolynomial poly).absorbByte register byte = Register.absorb poly register byte := by
  rw [absorbByte, entry_tables poly (by decide), Register.absorb_eq poly register byte]
  rfl

theorem absorbWord_ofPolynomial (poly register : UInt32) (word : UInt64) :
    (ofPolynomial poly).absorbWord register word
      = Register.feed poly register (bytesOfWord word) := by
  have hcancel : Register.feed poly register (bytesOfWord word)
      = Register.feed poly 0 (bytesOfWord (word ^^^ register.toUInt64)) := by
    have hself : Register.feed poly register (bytesOfWord register.toUInt64) = 0 :=
      Register.feed_lowBytes_self poly register (by decide)
    have hlen : (bytesOfWord word).length = (bytesOfWord register.toUInt64).length := by
      simp [bytesOfWord]
    have hxor := Register.feed_xor poly register register hlen
    rw [UInt32.xor_self] at hxor
    have hbytes : bytesOfWord (word ^^^ register.toUInt64)
        = xorBytes (bytesOfWord word) (bytesOfWord register.toUInt64) := lowBytes_xor _ _ _
    rw [hbytes, hxor, hself, UInt32.xor_zero]
  rw [hcancel, bytesOfWord_eq, Register.feed_zero_eq_feedApart]
  simp only [absorbWord, entry_tables, Register.feedApart, List.length_cons, List.length_nil,
    Nat.reduceAdd, UInt32.xor_zero, UInt32.xor_assoc]

end SlicingTables

theorem Kernel.portable_sound : Kernel.portable.Sound :=
  ⟨SlicingTables.absorbWord_ofPolynomial castagnoli,
    SlicingTables.absorbByte_ofPolynomial castagnoli⟩

/-- The first byte of a word has seven more to pass, the last one none. -/
theorem slices_feed_words :
    (∀ (poly : UInt32) (t : Fin 8) (byte : UInt8),
      (SlicingTables.ofPolynomial poly).lookUp t byte
        = Register.feed poly 0 (byte :: List.replicate t 0)) ∧
    (∀ (poly register : UInt32) (word : UInt64),
      (SlicingTables.ofPolynomial poly).lookUp 7 (byteAt (word ^^^ register.toUInt64) 0)
        ^^^ (SlicingTables.ofPolynomial poly).lookUp 6 (byteAt (word ^^^ register.toUInt64) 1)
        ^^^ (SlicingTables.ofPolynomial poly).lookUp 5 (byteAt (word ^^^ register.toUInt64) 2)
        ^^^ (SlicingTables.ofPolynomial poly).lookUp 4 (byteAt (word ^^^ register.toUInt64) 3)
        ^^^ (SlicingTables.ofPolynomial poly).lookUp 3 (byteAt (word ^^^ register.toUInt64) 4)
        ^^^ (SlicingTables.ofPolynomial poly).lookUp 2 (byteAt (word ^^^ register.toUInt64) 5)
        ^^^ (SlicingTables.ofPolynomial poly).lookUp 1 (byteAt (word ^^^ register.toUInt64) 6)
        ^^^ (SlicingTables.ofPolynomial poly).lookUp 0 (byteAt (word ^^^ register.toUInt64) 7)
        = Register.feed poly register (bytesOfWord word)) ∧
    ∀ (register : UInt32) (word : UInt64) (byte : UInt8),
      Kernel.portable.absorbWord register word
          = Register.feed castagnoli register (bytesOfWord word) ∧
        Kernel.portable.absorbByte register byte = Register.absorb castagnoli register byte := by
  refine ⟨?_, ?_, ?_⟩
  · intro poly t byte
    exact SlicingTables.entry_tables poly t.isLt byte
  · intro poly register word
    exact SlicingTables.absorbWord_ofPolynomial poly register word
  · intro register word byte
    exact ⟨Kernel.portable_sound.absorbWord register word,
      Kernel.portable_sound.absorbByte register byte⟩

end InterleavedCrc
