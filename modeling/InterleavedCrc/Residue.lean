import InterleavedCrc.Tables

/-!
# Residues modulo the Castagnoli polynomial

A 32-bit word is also a polynomial over GF(2) of degree at most 31, reflected
like the register.  Sums are exclusive ors; products are reduced modulo the
generator.  A zero byte multiplies the register by `x^8`, so `n` of them are one
product with `x^(8n)`, which repeated squaring finds (`Powering.loop`), and the
checksum of a concatenation follows from those of its two parts (`combine`).

Multiplication by `x^(8n)` is linear, so for a fixed `n` it is four tables, one
for each byte of the register.  Registers of lanes of that length are merged
with it, in the order of the lanes (`ZeroExtension.merge`).
-/

namespace InterleavedCrc

namespace Residue

def one : UInt32 := 0x80000000

def x8 : UInt32 := 0x00800000

def mulX (a : UInt32) : UInt32 := Register.shiftBit castagnoli a

/-- The sum of `b * x^i` over the first `count` coefficients of `a`, lowest
power first. -/
def mulTerms : Nat → UInt32 → UInt32 → UInt32
  | 0, _, _ => 0
  | count + 1, a, b => (if a &&& one = one then b else 0) ^^^ mulTerms count (a <<< 1) (mulX b)

/-- The product modulo the generator. -/
def mul (a b : UInt32) : UInt32 := mulTerms 32 a b

/-- Where repeated squaring stands: the result so far still has to be multiplied by this
power of the square. -/
structure Powering where
  square : UInt32
  result : UInt32
  exponent : Nat

namespace Powering

/-- One turn settles the lowest binary digit of the exponent.  With the last digit the
square stays as it is. -/
def turn (p : Powering) : Powering where
  square := if p.exponent / 2 = 0 then p.square else mul p.square p.square
  result := if p.exponent % 2 = 1 then mul p.square p.result else p.result
  exponent := p.exponent / 2

/-- Turns until no digit is left. -/
def loop (p : Powering) : Powering := if p.exponent = 0 then p else p.turn.loop
termination_by p.exponent
decreasing_by exact Nat.div_lt_self (Nat.pos_of_ne_zero ‹_›) (by decide)

end Powering

def xPow8 (n : Nat) : UInt32 := (Powering.loop ⟨x8, one, n⟩).result

/-- The register after `n` zero bytes, without feeding them. -/
def advance (register : UInt32) (n : Nat) : UInt32 := mul (xPow8 n) register

@[simp] theorem mulTerms_zero (a b : UInt32) : mulTerms 0 a b = 0 := rfl

namespace Powering

theorem loop_of_exponent_eq_zero {p : Powering} (h : p.exponent = 0) : p.loop = p := by
  rw [loop, if_pos h]

theorem loop_of_exponent_ne_zero {p : Powering} (h : p.exponent ≠ 0) : p.loop = p.turn.loop := by
  rw [loop, if_neg h]

theorem exponent_loop (p : Powering) : p.loop.exponent = 0 := by
  induction p using loop.induct with
  | case1 p h => rwa [loop_of_exponent_eq_zero h]
  | case2 p h ih => rwa [loop_of_exponent_ne_zero h]

end Powering

end Residue

/-- The checksum of a concatenation, from the checksums of both parts and the
length of the second.  An empty second part has no say, whatever its checksum. -/
def combine (a b : UInt32) (length : Nat) : UInt32 :=
  if length = 0 then a else Residue.advance a length ^^^ b

@[simp] theorem combine_zero (a b : UInt32) : combine a b 0 = a := rfl

/-! ## Extension by a fixed number of zero bytes -/

/-- The register's step over `length` zero bytes, tabulated. -/
structure ZeroExtension where
  tables : Vector ByteTable 4
  length : Nat
deriving DecidableEq

namespace ZeroExtension

/-- The images of the register's bits under multiplication by `factor`. -/
def images (factor : UInt32) : Vector UInt32 32 :=
  Vector.ofFn fun i ↦ Residue.mul factor (1 <<< UInt32.ofNat i.val)

def ofLength (length : Nat) : ZeroExtension :=
  let images := images (Residue.xPow8 length)
  ⟨Vector.ofFn fun k ↦ ByteTable.ofBits fun i ↦ images[8 * k.val + i.val], length⟩

/-- The register after `length` zero bytes, by four look-ups. -/
def apply (zeros : ZeroExtension) (register : UInt32) : UInt32 :=
  zeros.tables[0].entry register.toUInt8
    ^^^ zeros.tables[1].entry (register >>> 8).toUInt8
    ^^^ zeros.tables[2].entry (register >>> 16).toUInt8
    ^^^ zeros.tables[3].entry (register >>> 24).toUInt8

/-- The description that tells the length and holds back the tables. -/
def describe (zeros : ZeroExtension) : String :=
  "ZeroShift \x7b len_bytes: " ++ toString zeros.length ++ ", .. \x7d"

@[simp] theorem length_ofLength (length : Nat) : (ofLength length).length = length := rfl

/-- The register of consecutive lanes, each as long as `zeros` is.  The first
lane carries what came before; every other started from zero. -/
def merge (zeros : ZeroExtension) : List UInt32 → UInt32
  | [] => 0
  | first :: others => others.foldl (fun merged lane ↦ zeros.apply merged ^^^ lane) first

@[simp] theorem merge_nil (zeros : ZeroExtension) : zeros.merge [] = 0 := rfl

@[simp] theorem merge_singleton (zeros : ZeroExtension) (lane : UInt32) :
    zeros.merge [lane] = lane := rfl

theorem merge_cons_cons (zeros : ZeroExtension) (first second : UInt32) (others : List UInt32) :
    zeros.merge (first :: second :: others)
      = zeros.merge ((zeros.apply first ^^^ second) :: others) := rfl

end ZeroExtension

end InterleavedCrc
