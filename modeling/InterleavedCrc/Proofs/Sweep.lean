import InterleavedCrc.Proofs.Lanes

/-!
# The sweep over a block

The lock-step loop meets the words of a block column by column: one address goes on by a
lane within a column, another by a word from column to column.  After any number of columns
every lane has folded as many words of its own row (`Sweep.HasTaken`), and after the last
one the whole row, whatever becomes of a word.
-/

namespace InterleavedCrc.Kernel

/-- Where the loop over a block stands: the column at `offset` is next. -/
@[ext]
structure Sweep where
  offset : ℕ
  registers : List UInt32

namespace Sweep

section Loop

variable (absorbWord : UInt32 → UInt64 → UInt32) (laneBytes : ℕ) (block : Array UInt8)

/-- A word into each lane, the first of them from `start`. -/
def column : ℕ → List UInt32 → List UInt32
  | _, [] => []
  | start, register :: others =>
      absorbWord register (wordAt block start) :: column (start + laneBytes) others

def turn (sweep : Sweep) : Sweep :=
  ⟨sweep.offset + wordBytes, column absorbWord laneBytes block sweep.offset sweep.registers⟩

/-- Turns until the lanes end. -/
def run (sweep : Sweep) : Sweep :=
  if sweep.offset < laneBytes then run (sweep.turn absorbWord laneBytes block) else sweep
termination_by laneBytes - sweep.offset
decreasing_by
  simp only [turn, wordBytes]
  omega

/-- All lanes are zero at first, but for the one that carries the register. -/
def start (lanes : ℕ) (register : UInt32) : Sweep :=
  ⟨0, (List.replicate lanes 0).set 0 register⟩

theorem column_eq_stepLanes (start : ℕ) (registers : List UInt32) :
    column absorbWord laneBytes block start registers
      = stepLanes absorbWord laneBytes block start registers := by
  -- The column from any lane on is a column too, so the address must stay general.
  induction registers generalizing start with
  | nil => rfl
  | cons register others ih =>
      have haddress : ∀ lane,
          (lane + 1) * laneBytes + start = lane * laneBytes + (start + laneBytes) := by
        intro lane
        ring
      simp only [column, ih, stepLanes, List.mapIdx_cons, haddress, Nat.zero_mul, Nat.zero_add]

end Loop

theorem registers_start (lanes : ℕ) (register : UInt32) :
    (start lanes register).registers = seedLanes lanes register := by
  apply List.ext_getElem
  · simp [start]
  · intro lane _ _
    simp [start, seedLanes, List.getElem_set, eq_comm]

/-- Every lane has folded the first `steps` words of its row. -/
structure HasTaken (absorbWord : UInt32 → UInt64 → UInt32) (laneBytes : ℕ) (block : List UInt8)
    (lanes : ℕ) (register : UInt32) (steps : ℕ) (sweep : Sweep) : Prop where
  offset_eq : sweep.offset = wordBytes * steps
  registers_eq : sweep.registers = (List.range lanes).map fun lane ↦
    ((wordsOf (row laneBytes block lane)).take steps).foldl absorbWord
      (if lane = 0 then register else 0)

section Run

variable {absorbWord : UInt32 → UInt64 → UInt32} {laneBytes lanes steps : ℕ}
  {block : List UInt8} {register : UInt32} {sweep : Sweep}

theorem hasTaken_start :
    (start lanes register).HasTaken absorbWord laneBytes block lanes register 0 :=
  ⟨rfl, registers_start lanes register⟩

variable (hword : wordBytes ∣ laneBytes) (hlen : block.length = lanes * laneBytes)

include hword hlen

/-- A column is the next word of every row. -/
theorem HasTaken.turn (h : sweep.HasTaken absorbWord laneBytes block lanes register steps)
    (hsteps : steps < laneBytes / wordBytes) :
    (sweep.turn absorbWord laneBytes block.toArray).HasTaken absorbWord laneBytes block lanes
      register (steps + 1) := by
  refine ⟨congrArg (· + wordBytes) h.offset_eq, ?_⟩
  rw [Sweep.turn, column_eq_stepLanes, h.registers_eq, h.offset_eq, stepLanes_map]
  apply List.map_congr_left
  intro lane hlane
  have hwords := wordsOf_row hword hlen (List.mem_range.1 hlane)
  have hlt : steps < (wordsOf (row laneBytes block lane)).length := by
    simpa [hwords] using hsteps
  have hnext : (wordsOf (row laneBytes block lane))[steps]
      = wordAt block.toArray (lane * laneBytes + wordBytes * steps) := by
    simp [hwords]
  rw [← List.take_append_getElem hlt, List.foldl_append, hnext]
  rfl

/-- The loop ends when every row is used up, from wherever it stands. -/
theorem HasTaken.run (h : sweep.HasTaken absorbWord laneBytes block lanes register steps)
    (hsteps : steps ≤ laneBytes / wordBytes) :
    (sweep.run absorbWord laneBytes block.toArray).HasTaken absorbWord laneBytes block lanes
      register (laneBytes / wordBytes) := by
  have hbytes : wordBytes * (laneBytes / wordBytes) = laneBytes := Nat.mul_div_cancel' hword
  induction sweep using run.induct absorbWord laneBytes block.toArray generalizing steps with
  | case1 sweep hoffset ih =>
      have hlt : steps < laneBytes / wordBytes := by
        rw [h.offset_eq, ← hbytes] at hoffset
        exact Nat.lt_of_mul_lt_mul_left hoffset
      rw [Sweep.run, if_pos hoffset]
      exact ih (h.turn hword hlen hlt) hlt
  | case2 sweep hoffset =>
      have hle : laneBytes / wordBytes ≤ steps := by
        rw [h.offset_eq, ← hbytes, Nat.not_lt] at hoffset
        exact Nat.le_of_mul_le_mul_left hoffset (by decide)
      rw [Sweep.run, if_neg hoffset, Nat.le_antisymm hle hsteps]
      exact h

end Run

end Sweep

/-- The loop leaves each lane with its own row folded in order, and so do steps that take
all lanes at once. -/
theorem lanes_fold_their_rows (absorbWord : UInt32 → UInt64 → UInt32) (level : Level)
    (register : UInt32) {lanes : ℕ} {block : List UInt8}
    (hword : wordBytes ∣ level.laneBytes.toNat)
    (hlen : block.length = lanes * level.laneBytes.toNat) :
    Sweep.run absorbWord level.laneBytes.toNat block.toArray (.start lanes register)
        = ⟨level.laneBytes.toNat,
            laneRegisters absorbWord lanes level.laneBytes.toNat register block.toArray⟩ ∧
      laneRegisters absorbWord lanes level.laneBytes.toNat register block.toArray
        = (List.range lanes).map fun lane ↦
            (wordsOf (row level.laneBytes.toNat block lane)).foldl absorbWord
              (if lane = 0 then register else 0) := by
  have hrows := laneRegisters_eq_rows hword hlen absorbWord register
  have hstart : (Sweep.start lanes register).HasTaken absorbWord level.laneBytes.toNat block lanes
      register 0 := Sweep.hasTaken_start
  obtain ⟨hoffset, hregisters⟩ := hstart.run hword hlen (Nat.zero_le _)
  refine ⟨Sweep.ext ?_ ?_, hrows⟩
  · exact hoffset.trans (Nat.mul_div_cancel' hword)
  · rw [hregisters, hrows]
    apply List.map_congr_left
    intro lane hlane
    have hall : (wordsOf (row level.laneBytes.toNat block lane)).length
        ≤ level.laneBytes.toNat / wordBytes := by
      simp [wordsOf_row hword hlen (List.mem_range.1 hlane)]
    rw [List.take_of_length_le hall]

/-- Logs the low bytes of the words that it meets, the latest at the low end. -/
def logLowByte (register : UInt32) (word : UInt64) : UInt32 :=
  register <<< 8 ||| word.toUInt8.toUInt32

def countingBlock : List UInt8 := (List.range 48).map UInt8.ofNat

theorem rows_of_countingBlock :
    wordBytes ∣ (Level.ofShape ⟨2, 3⟩).laneBytes.toNat ∧
      countingBlock.length = 3 * (Level.ofShape ⟨2, 3⟩).laneBytes.toNat ∧
      Sweep.run logLowByte 16 countingBlock.toArray (.start 3 0xAB)
        = ⟨16, [0xAB0008, 0x1018, 0x2028]⟩ := by
  have hword : wordBytes ∣ (Level.ofShape ⟨2, 3⟩).laneBytes.toNat := by decide
  have hlen : countingBlock.length = 3 * (Level.ofShape ⟨2, 3⟩).laneBytes.toNat := by decide
  obtain ⟨hrun, hrows⟩ := lanes_fold_their_rows logLowByte (Level.ofShape ⟨2, 3⟩) 0xAB hword hlen
  have hvalue : ((List.range 3).map fun lane ↦
      (wordsOf (row (Level.ofShape ⟨2, 3⟩).laneBytes.toNat countingBlock lane)).foldl logLowByte
        (if lane = 0 then 0xAB else 0)) = [0xAB0008, 0x1018, 0x2028] := by
    decide +kernel
  refine ⟨hword, hlen, hrun.trans ?_⟩
  rw [hrows, hvalue]
  rfl

end InterleavedCrc.Kernel
