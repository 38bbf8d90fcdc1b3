import InterleavedCrc.Text

/-!
# Processor capabilities

A capability set is one word with a bit for each feature: the low half belongs to
one family of processors and the high half to another, so that a requirement of
either can be asked of any set.  Two features have names; all bits count.
-/

namespace InterleavedCrc

structure Capabilities where
  word : UInt64
deriving DecidableEq

namespace Capabilities

def empty : Capabilities := ⟨0⟩

def bit (n : Fin 64) : Capabilities := ⟨1 <<< UInt64.ofNat n.val⟩

def sse42 : Capabilities := bit 0

def crcExtension : Capabilities := bit 32

def contains (held : Capabilities) (n : Nat) : Bool := held.word.toNat.testBit n

def includes (held required : Capabilities) : Bool :=
  held.word &&& required.word = required.word

def union (a b : Capabilities) : Capabilities := ⟨a.word ||| b.word⟩

def difference (a b : Capabilities) : Capabilities := ⟨a.word &&& ~~~b.word⟩

instance : OrOp Capabilities := ⟨union⟩

def isEmpty (held : Capabilities) : Bool := held.word = 0

/-- How many features there are, named or not. -/
def count (held : Capabilities) : Nat := (List.range 64).countP held.contains

/-- The features that have names, in the order of their bits. -/
def named : List (Capabilities × String) := [(sse42, "sse4.2"), (crcExtension, "crc")]

def names (held : Capabilities) : List String :=
  (named.filter fun feature ↦ held.includes feature.1).map Prod.snd

def outline (held : Capabilities) : Outline := .group .set (held.names.map .quoted)

theorem contains_eq_getLsbD (held : Capabilities) (n : Nat) :
    held.contains n = held.word.toBitVec.getLsbD n := rfl

@[simp] theorem or_eq_union (a b : Capabilities) : a ||| b = a.union b := rfl

@[simp] theorem contains_union (a b : Capabilities) (n : Nat) :
    (a.union b).contains n = (a.contains n || b.contains n) := by
  simp [contains, union, Nat.testBit_or]

theorem contains_of_ge (held : Capabilities) {n : Nat} (h : 64 ≤ n) : held.contains n = false :=
  Nat.testBit_lt_two_pow
    (Nat.lt_of_lt_of_le held.word.toNat_lt (Nat.pow_le_pow_right (by decide) h))

@[simp] theorem contains_difference (a b : Capabilities) (n : Nat) :
    (a.difference b).contains n = (a.contains n && !b.contains n) := by
  simp only [contains_eq_getLsbD, difference, UInt64.toBitVec_and, UInt64.toBitVec_not,
    BitVec.getLsbD_and, BitVec.getLsbD_not]
  by_cases hn : n < 64
  · rw [decide_eq_true hn, Bool.true_and]
  · rw [BitVec.getLsbD_of_ge _ _ (Nat.le_of_not_lt hn), Bool.false_and, Bool.false_and]

@[simp] theorem contains_bit (n : Fin 64) (m : Nat) :
    (bit n).contains m = decide (n.val = m) := by
  have hlt : n.val < 2 ^ 64 := Nat.lt_trans n.isLt (by decide)
  have hpow : 2 ^ n.val < 2 ^ 64 := Nat.pow_lt_pow_right (by decide) n.isLt
  have hword : (bit n).word.toNat = 2 ^ n.val := by
    change (1 <<< UInt64.ofNat n.val : UInt64).toNat = _
    rw [UInt64.toNat_shiftLeft, UInt64.toNat_ofNat', Nat.mod_eq_of_lt hlt,
      Nat.mod_eq_of_lt n.isLt]
    exact (congrArg (· % 2 ^ 64) (Nat.one_shiftLeft n.val)).trans (Nat.mod_eq_of_lt hpow)
  rw [contains, hword, Nat.testBit_two_pow]

theorem ext_contains {a b : Capabilities} (h : ∀ n < 64, a.contains n = b.contains n) :
    a = b := by
  obtain ⟨a⟩ := a
  obtain ⟨b⟩ := b
  exact congrArg mk (UInt64.toBitVec_inj.1 (BitVec.eq_of_getLsbD_eq h))

theorem includes_iff {held required : Capabilities} :
    held.includes required ↔ ∀ n < 64, required.contains n → held.contains n := by
  rw [includes, decide_eq_true_iff, ← UInt64.toBitVec_inj, BitVec.eq_of_getLsbD_eq_iff]
  simp only [UInt64.toBitVec_and, BitVec.getLsbD_and, Bool.and_eq_right_iff_imp,
    contains_eq_getLsbD]

theorem includes_bit (held : Capabilities) (n : Fin 64) :
    held.includes (bit n) = held.contains n := by
  rw [Bool.eq_iff_iff, includes_iff]
  constructor
  · intro h
    exact h n n.isLt (by simp)
  · intro h m _ hm
    rw [contains_bit, decide_eq_true_iff] at hm
    exact hm ▸ h

end Capabilities

inductive Architecture where
  | x86_64
  | aarch64
  | other
deriving DecidableEq

namespace Architecture

/-- The family that backends are selected for. -/
def current : Architecture := x86_64

def name : Architecture → String
  | x86_64 => "x86_64"
  | aarch64 => "aarch64"
  | other => "other"

def label : Architecture → String
  | x86_64 => "X86_64"
  | aarch64 => "Aarch64"
  | other => "Other"

end Architecture

end InterleavedCrc
