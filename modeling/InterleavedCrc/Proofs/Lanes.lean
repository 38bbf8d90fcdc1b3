import InterleavedCrc.Kernel
import Mathlib

/-!
# Columns and rows

The lanes of a block are met column by column, but each lane folds the words of
its own row, as if the row were fed in sequence (`Kernel.laneRegisters_eq_rows`).  No
property of the word step is needed for it.
-/

namespace InterleavedCrc

def wordsOf (data : List UInt8) : List UInt64 := (cut wordBytes data).1.map wordOfBytes

theorem takePieces_eq_map (n count : ℕ) (data : List UInt8) :
    (takePieces n count data).1
      = (List.range count).map fun k ↦ (data.drop (n * k)).take n := by
  induction count generalizing data with
  | zero => rfl
  | succ count ih =>
      change data.take n :: (takePieces n count (data.drop n)).1 = _
      rw [List.range_succ_eq_map, List.map_cons, List.map_map, ih]
      simp only [Nat.mul_zero, List.drop_zero, List.drop_drop, Function.comp_def, Nat.mul_succ,
        Nat.add_comm n]

theorem cut_eq_map (n : ℕ) (data : List UInt8) :
    (cut n data).1 = (List.range (data.length / n)).map fun k ↦ (data.drop (n * k)).take n :=
  takePieces_eq_map n _ data

theorem rest_cut_eq_nil {n : ℕ} {data : List UInt8} (h : n ∣ data.length) :
    (cut n data).2 = [] := by
  apply List.eq_nil_of_length_eq_zero
  rw [length_rest_cut, Nat.mod_eq_zero_of_dvd h]

namespace Kernel

theorem wordAt_toArray (block : List UInt8) (start : ℕ) :
    wordAt block.toArray start = wordOfBytes ((block.drop start).take wordBytes) := by
  simp [wordAt]

theorem stepLanes_map (absorbWord : UInt32 → UInt64 → UInt32) (laneBytes : ℕ)
    (block : Array UInt8) (offset lanes : ℕ) (registers : ℕ → UInt32) :
    stepLanes absorbWord laneBytes block offset ((List.range lanes).map registers)
      = (List.range lanes).map fun lane ↦
          absorbWord (registers lane) (wordAt block (lane * laneBytes + offset)) := by
  apply List.ext_getElem
  · simp
  · intro lane _ _
    simp [stepLanes]

/-- Every lane meets its own words only, in the order of the steps. -/
theorem foldl_stepLanes (absorbWord : UInt32 → UInt64 → UInt32) (laneBytes : ℕ)
    (block : Array UInt8) (lanes : ℕ) (steps : List ℕ) (registers : ℕ → UInt32) :
    steps.foldl
        (fun registers step ↦ stepLanes absorbWord laneBytes block (wordBytes * step) registers)
        ((List.range lanes).map registers)
      = (List.range lanes).map fun lane ↦
          steps.foldl
            (fun register step ↦
              absorbWord register (wordAt block (lane * laneBytes + wordBytes * step)))
            (registers lane) := by
  induction steps generalizing registers with
  | nil => rfl
  | cons step steps ih => rw [List.foldl_cons, stepLanes_map, ih]; rfl

/-- The bytes of one lane of a block. -/
def row (laneBytes : ℕ) (block : List UInt8) (lane : ℕ) : List UInt8 :=
  block.extract (lane * laneBytes) ((lane + 1) * laneBytes)

theorem row_eq (laneBytes : ℕ) (block : List UInt8) (lane : ℕ) :
    row laneBytes block lane = (block.drop (lane * laneBytes)).take laneBytes := by
  have hspan : (lane + 1) * laneBytes - lane * laneBytes = laneBytes := by
    rw [Nat.succ_mul, Nat.add_sub_cancel_left]
  rw [row, List.extract_eq_take_drop, hspan]

section Rows

variable {lanes laneBytes : ℕ} {block : List UInt8} (hword : wordBytes ∣ laneBytes)
  (hlen : block.length = lanes * laneBytes)

include hlen in
theorem length_row {lane : ℕ} (hlane : lane < lanes) :
    (row laneBytes block lane).length = laneBytes := by
  have hfit := Nat.mul_le_mul_right laneBytes (Nat.succ_le_of_lt hlane)
  rw [Nat.succ_mul] at hfit
  rw [row_eq, List.length_take, List.length_drop, hlen]
  omega

include hword hlen in
theorem wordsOf_row {lane : ℕ} (hlane : lane < lanes) :
    wordsOf (row laneBytes block lane)
      = (List.range (laneBytes / wordBytes)).map fun step ↦
          wordAt block.toArray (lane * laneBytes + wordBytes * step) := by
  rw [wordsOf, cut_eq_map, length_row hlen hlane, List.map_map]
  apply List.map_congr_left
  intro step hstep
  have hfit : wordBytes ≤ laneBytes - wordBytes * step := by
    have hmul := Nat.mul_le_mul_left wordBytes (Nat.succ_le_of_lt (List.mem_range.1 hstep))
    rw [Nat.mul_div_cancel' hword, Nat.mul_succ] at hmul
    omega
  rw [Function.comp_apply, wordAt_toArray, row_eq, List.drop_take, List.take_take, List.drop_drop,
    Nat.min_eq_left hfit]

include hword hlen in
/-- The words are met by columns, and each row is folded as if it were alone. -/
theorem laneRegisters_eq_rows (absorbWord : UInt32 → UInt64 → UInt32) (register : UInt32) :
    laneRegisters absorbWord lanes laneBytes register block.toArray
      = (List.range lanes).map fun lane ↦
          (wordsOf (row laneBytes block lane)).foldl absorbWord
            (if lane = 0 then register else 0) := by
  rw [laneRegisters, seedLanes, foldl_stepLanes]
  apply List.map_congr_left
  intro lane hlane
  rw [wordsOf_row hword hlen (List.mem_range.1 hlane), List.foldl_map]

include hword hlen in
theorem laneRegisters_eq (absorbWord : UInt32 → UInt64 → UInt32) (register : UInt32)
    (hpos : 0 < laneBytes) :
    laneRegisters absorbWord lanes laneBytes register block.toArray
      = (cut laneBytes block).1.mapIdx fun lane piece ↦
          (wordsOf piece).foldl absorbWord (if lane = 0 then register else 0) := by
  have hcount : block.length / laneBytes = lanes := by rw [hlen, Nat.mul_div_cancel _ hpos]
  rw [laneRegisters_eq_rows hword hlen, cut_eq_map, hcount]
  apply List.ext_getElem
  · simp
  · intro lane _ _
    simp [row_eq, Nat.mul_comm laneBytes]

end Rows

/-- The first lane continues the register, and every other starts from zero. -/
theorem laneRegisters_eq_cons (absorbWord : UInt32 → UInt64 → UInt32) {lanes laneBytes : ℕ}
    (register : UInt32) {block first : List UInt8} {others : List (List UInt8)}
    (hpos : 0 < laneBytes) (hword : wordBytes ∣ laneBytes)
    (hlen : block.length = lanes * laneBytes) (hcut : (cut laneBytes block).1 = first :: others) :
    laneRegisters absorbWord lanes laneBytes register block.toArray
      = (wordsOf first).foldl absorbWord register
          :: others.map fun row ↦ (wordsOf row).foldl absorbWord 0 := by
  rw [laneRegisters_eq hword hlen absorbWord register hpos, hcut, List.mapIdx_cons, if_pos rfl]
  congr 1
  apply List.ext_getElem
  · simp
  · intro lane _ _
    simp

theorem feed_eq_foldl_wordsOf (kernel : Kernel) (register : UInt32) {data : List UInt8}
    (h : wordBytes ∣ data.length) :
    kernel.feed register data = (wordsOf data).foldl kernel.absorbWord register := by
  rw [feed, wordsOf, List.foldl_map]
  simp only [rest_cut_eq_nil h, List.foldl_nil]

end Kernel

end InterleavedCrc
