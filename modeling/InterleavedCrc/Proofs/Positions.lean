import InterleavedCrc.Proofs.ZeroBytes

/-!
# Lanes by position

Each lane that is merged moves the ones before it on by its own length.  The merge is
therefore the sum of all lanes, each moved past those after it
(`ZeroExtension.merge_eq_sumByPosition`), and for lanes that were fed from zero, behind a
first one fed from anywhere, it is the register of their concatenation.
-/

namespace InterleavedCrc

/-- The sum of the lanes, each moved past the lanes of `n` bytes after it. -/
def sumByPosition (n : ℕ) : List UInt32 → UInt32
  | [] => 0
  | lane :: others => Residue.advance lane (n * others.length) ^^^ sumByPosition n others

/-- Two lanes count as one that has the first already moved past the second. -/
theorem sumByPosition_cons_cons (n : ℕ) (first second : UInt32) (others : List UInt32) :
    sumByPosition n (first :: second :: others)
      = sumByPosition n ((Residue.advance first n ^^^ second) :: others) := by
  have hlength : n * (second :: others).length = n + n * others.length := by
    rw [List.length_cons, Nat.mul_succ, Nat.add_comm]
  calc sumByPosition n (first :: second :: others)
      = Residue.advance (Residue.advance first n) (n * others.length)
          ^^^ (Residue.advance second (n * others.length) ^^^ sumByPosition n others) := by
        rw [sumByPosition, sumByPosition, hlength, Residue.advance_advance]
    _ = Residue.advance (Residue.advance first n ^^^ second) (n * others.length)
          ^^^ sumByPosition n others := by
        rw [Residue.advance_xor, UInt32.xor_assoc]

theorem ZeroExtension.merge_eq_sumByPosition (n : ℕ) (lanes : List UInt32) :
    (ofLength n).merge lanes = sumByPosition n lanes := by
  cases lanes with
  | nil => rfl
  | cons first others =>
      induction others generalizing first with
      | nil => simp [sumByPosition]
      | cons second others ih =>
          rw [merge_cons_cons, ih, apply_ofLength, sumByPosition_cons_cons]

/-- Lanes of `n` bytes behind a first one of any length merge into the register of all of
them together, and any registers at all into their sum by position. -/
theorem lanes_merge_by_position (n : ℕ) :
    (∀ (register : UInt32) (first : List UInt8) (others : List (List UInt8)),
      (∀ lane ∈ others, lane.length = n) →
        (ZeroExtension.ofLength n).merge
            (Register.feed castagnoli register first :: others.map (Register.feed castagnoli 0))
          = Register.feed castagnoli register (first ++ others.flatten)) ∧
      ∀ lanes : List UInt32, (ZeroExtension.ofLength n).merge lanes = sumByPosition n lanes :=
  ⟨ZeroExtension.merge_feed n, ZeroExtension.merge_eq_sumByPosition n⟩

/-- The digits from two to nine in pairs. -/
def digitPairs : List (List UInt8) := [[0x32, 0x33], [0x34, 0x35], [0x36, 0x37], [0x38, 0x39]]

theorem merge_of_digitPairs :
    (∀ lane ∈ digitPairs, lane.length = 2) ∧
      (ZeroExtension.ofLength 2).merge
          (Register.feed castagnoli initialRegister [0x31]
            :: digitPairs.map (Register.feed castagnoli 0))
        = ~~~0xE3069283 := by
  have hpairs : ∀ lane ∈ digitPairs, lane.length = 2 := by decide
  have hmerge := (lanes_merge_by_position 2).1 initialRegister [0x31] digitPairs hpairs
  have hvalue : Register.feed castagnoli initialRegister ([0x31] ++ digitPairs.flatten)
      = ~~~0xE3069283 := by
    decide +kernel
  exact ⟨hpairs, hmerge.trans hvalue⟩

end InterleavedCrc
