import InterleavedCrc.Register

/-!
# Tables indexed by a byte

A table of 256 words answers for every byte at once.  A linear map of one byte
is determined by the images of its eight bits (`ofBits`); its table is filled from
zero upwards, each entry from that of the byte without its lowest bit.

Slicing by eight takes eight tables.  Table `t` holds the register that a byte
leaves behind when `t` further bytes have passed, and eight look-ups, one in each
table, retire a whole word.
-/

namespace InterleavedCrc

structure ByteTable where
  words : Vector UInt32 256
deriving DecidableEq

namespace ByteTable

def ofFn (f : UInt8 → UInt32) : ByteTable :=
  ⟨Vector.ofFn fun i ↦ f (UInt8.ofNat i)⟩

def entry (table : ByteTable) (byte : UInt8) : UInt32 :=
  have : byte.toNat < 256 := byte.toNat_lt
  table.words[byte.toNat]

def put (table : ByteTable) (byte : UInt8) (word : UInt32) : ByteTable :=
  ⟨table.words.set byte.toNat word byte.toNat_lt⟩

/-- The place of the lowest bit of a byte other than zero. -/
def lowestBit (byte : UInt8) : Fin 8 := Fin.ofNat 8 byte.toBitVec.ctz.toNat

/-- The byte without its lowest bit. -/
def clearLowest (byte : UInt8) : UInt8 := byte &&& (byte - 1)

/-- One more entry, which differs from an earlier one by the image of one bit. -/
def fill (images : Fin 8 → UInt32) (table : ByteTable) (byte : UInt8) : ByteTable :=
  table.put byte (table.entry (clearLowest byte) ^^^ images (lowestBit byte))

/-- The entries of the bytes up to `last`, above them zero. -/
def filled (images : Fin 8 → UInt32) : Nat → ByteTable
  | 0 => ofFn fun _ ↦ 0
  | last + 1 => fill images (filled images last) (UInt8.ofNat (last + 1))

/-- The linear map that takes bit `i` to `images i`. -/
def ofBits (images : Fin 8 → UInt32) : ByteTable := filled images 255

def toList (table : ByteTable) : List UInt32 := table.words.toList

@[simp] theorem entry_ofFn (f : UInt8 → UInt32) (byte : UInt8) :
    (ofFn f).entry byte = f byte := by
  simp [ofFn, entry]

@[simp] theorem entry_put_self (table : ByteTable) (byte : UInt8) (word : UInt32) :
    (table.put byte word).entry byte = word := by
  simp [put, entry]

theorem entry_put_ne (table : ByteTable) {byte other : UInt8} (h : other ≠ byte)
    (word : UInt32) : (table.put byte word).entry other = table.entry other := by
  have hne : byte.toNat ≠ other.toNat := fun heq ↦ h (UInt8.toNat_inj.1 heq.symm)
  simp [put, entry, hne]

end ByteTable

/-! ## Slicing by eight -/

namespace ByteTable

def ofPolynomial (poly : UInt32) : ByteTable :=
  ofFn fun byte ↦ Register.absorb poly 0 byte

/-- The entries of `table` after one more byte, which `first` knows how to absorb. -/
def next (first table : ByteTable) : ByteTable :=
  ofFn fun byte ↦
    let register := table.entry byte
    (register >>> 8) ^^^ first.entry register.toUInt8

/-- The entries of `first` after `count` further bytes. -/
def after (first : ByteTable) : Nat → ByteTable
  | 0 => first
  | count + 1 => next first (after first count)

end ByteTable

/-- Eight tables, the first for the last byte of a word. -/
structure SlicingTables where
  tables : Vector ByteTable 8
deriving DecidableEq

namespace SlicingTables

def ofPolynomial (poly : UInt32) : SlicingTables :=
  let first := ByteTable.ofPolynomial poly
  ⟨Vector.ofFn fun t ↦ first.after t.val⟩

def absorbWord (slices : SlicingTables) (register : UInt32) (word : UInt64) : UInt32 :=
  let mixed := word ^^^ register.toUInt64
  slices.tables[7].entry (byteAt mixed 0)
    ^^^ slices.tables[6].entry (byteAt mixed 1)
    ^^^ slices.tables[5].entry (byteAt mixed 2)
    ^^^ slices.tables[4].entry (byteAt mixed 3)
    ^^^ slices.tables[3].entry (byteAt mixed 4)
    ^^^ slices.tables[2].entry (byteAt mixed 5)
    ^^^ slices.tables[1].entry (byteAt mixed 6)
    ^^^ slices.tables[0].entry (byteAt mixed 7)

def absorbByte (slices : SlicingTables) (register : UInt32) (byte : UInt8) : UInt32 :=
  (register >>> 8) ^^^ slices.tables[0].entry (register.toUInt8 ^^^ byte)

def castagnoli : SlicingTables := ofPolynomial InterleavedCrc.castagnoli

theorem tables_ofPolynomial (poly : UInt32) {t : Nat} (ht : t < 8) :
    (ofPolynomial poly).tables[t] = (ByteTable.ofPolynomial poly).after t := by
  simp [ofPolynomial]

end SlicingTables

end InterleavedCrc
