import InterleavedCrc.Bytes

/-!
# The shift register

A reflected 32-bit polynomial keeps the coefficient of `x^i` in bit `31 - i`;
its `x^32` term is implicit.  The register takes a byte at its low end and then
shifts eight times, the polynomial joining in whenever a one falls out.  Feeding
pieces one after another feeds their concatenation (`feed_append`).
-/

namespace InterleavedCrc

/-- The Castagnoli polynomial, reflected. -/
def castagnoli : UInt32 := 0x82F63B78

/-- The Castagnoli polynomial with the coefficient of `x^i` in bit `i`. -/
def castagnoliNormal : UInt32 := 0x1EDC6F41

/-- Every checksum starts from this register, and is inverted by it at the end. -/
def initialRegister : UInt32 := 0xFFFFFFFF

theorem reverse_castagnoliNormal :
    castagnoliNormal.toBitVec.reverse = castagnoli.toBitVec := by decide +kernel

theorem xor_initialRegister (register : UInt32) :
    register ^^^ initialRegister = ~~~register := by
  apply UInt32.toBitVec_inj.1
  exact BitVec.xor_allOnes

namespace Register

def shiftBit (poly register : UInt32) : UInt32 :=
  if register &&& 1 = 1 then (register >>> 1) ^^^ poly else register >>> 1

def shiftBits (poly : UInt32) : Nat → UInt32 → UInt32
  | 0, register => register
  | count + 1, register => shiftBits poly count (shiftBit poly register)

def absorb (poly register : UInt32) (byte : UInt8) : UInt32 :=
  shiftBits poly 8 (register ^^^ byte.toUInt32)

def feed (poly register : UInt32) (data : List UInt8) : UInt32 :=
  data.foldl (absorb poly) register

def trace (poly : UInt32) : UInt32 → List UInt8 → List UInt32
  | _, [] => []
  | register, byte :: rest =>
      let next := absorb poly register byte
      next :: trace poly next rest

@[simp] theorem feed_nil (poly register : UInt32) : feed poly register [] = register := rfl

@[simp] theorem feed_cons (poly register : UInt32) (byte : UInt8) (rest : List UInt8) :
    feed poly register (byte :: rest) = feed poly (absorb poly register byte) rest := rfl

theorem feed_append (poly register : UInt32) (a b : List UInt8) :
    feed poly register (a ++ b) = feed poly (feed poly register a) b :=
  List.foldl_append

end Register

end InterleavedCrc
