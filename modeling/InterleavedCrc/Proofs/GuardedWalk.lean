import InterleavedCrc.Kernel

/-!
# The walk with guards

The walk along the levels once more, with every address computed in machine words as
the loops go.  Whatever must not happen on the way is a fault: a size of zero, a sum
that is no machine word, a word read outside its block, a byte read twice or not at all.
-/

namespace InterleavedCrc

inductive Fault where
  /-- Data is cut into pieces of no bytes. -/
  | emptyPiece
  /-- A block is not as long as its lanes together. -/
  | blockLength
  /-- There is no lock-step loop for this number of lanes. -/
  | laneCount
  | overflow
  | outsideBlock
  /-- Some byte of a block is not read exactly once. -/
  | coverage
  /-- A block has no first lane. -/
  | noFirstLane
  /-- No registers are to be merged. -/
  | nothingToMerge
deriving DecidableEq

namespace Guarded

def require (condition : Prop) [Decidable condition] (fault : Fault) : Except Fault Unit :=
  if condition then .ok () else .error fault

theorem require_of {condition : Prop} [Decidable condition] (h : condition) (fault : Fault) :
    require condition fault = .ok () := if_pos h

@[simp] theorem ok_bind {α β : Type} (a : α) (f : α → Except Fault β) :
    (Except.ok a >>= f) = f a := rfl

def add (a b : UInt64) : Except Fault UInt64 := do
  require (a.toNat + b.toNat < UInt64.size) .overflow
  return a + b

theorem add_eq_ok {a b : UInt64} (h : a.toNat + b.toNat < UInt64.size) : add a b = .ok (a + b) := by
  rw [add, require_of h]
  rfl

theorem toNat_of_add_eq_ok {a b sum : UInt64} (h : add a b = .ok sum) :
    sum.toNat = a.toNat + b.toNat := by
  by_cases hsum : a.toNat + b.toNat < UInt64.size
  · rw [add_eq_ok hsum] at h
    cases h
    rw [UInt64.toNat_add]
    exact Nat.mod_eq_of_lt hsum
  · rw [add, require, if_neg hsum] at h
    cases h

def mul (a b : UInt64) : Except Fault UInt64 := do
  require (a.toNat * b.toNat < UInt64.size) .overflow
  return a * b

def cutInto (n : UInt64) (data : List UInt8) : Except Fault (List (List UInt8) × List UInt8) := do
  require (n ≠ 0) .emptyPiece
  return cut n.toNat data

def read (block : Array UInt8) (start : UInt64) : Except Fault UInt64 := do
  require (start.toNat + wordBytes ≤ block.size) .outsideBlock
  return Kernel.wordAt block start.toNat

def merge (past : ZeroExtension) (lanes : List UInt32) : Except Fault UInt32 := do
  require (lanes ≠ []) .nothingToMerge
  return past.merge lanes

/-- One step of the lanes that start at `start`, and where their words were read. -/
def column (absorbWord : UInt32 → UInt64 → UInt32) (laneBytes : UInt64) (block : Array UInt8) :
    UInt64 → List UInt32 → Except Fault (List UInt32 × List Nat)
  | _, [] => .ok ([], [])
  | start, register :: registers => do
      let word ← read block start
      -- The address moves past the last lane too, where nothing is read any more.
      let next ← add start laneBytes
      let (others, starts) ← column absorbWord laneBytes block next registers
      return (absorbWord register word :: others, start.toNat :: starts)

theorem rest_lt_of_add {offset next laneBytes : UInt64} (hoffset : offset < laneBytes)
    (hnext : add offset 8 = .ok next) :
    laneBytes.toNat - next.toNat < laneBytes.toNat - offset.toNat := by
  have hsum := toNat_of_add_eq_ok hnext
  have hlt := UInt64.lt_iff_toNat_lt.1 hoffset
  have height : (8 : UInt64).toNat = 8 := rfl
  omega

/-- The lock-step loop from `offset` to the end of the lanes. -/
def columns (absorbWord : UInt32 → UInt64 → UInt32) (laneBytes : UInt64) (block : Array UInt8)
    (offset : UInt64) (registers : List UInt32) (starts : List Nat) :
    Except Fault (List UInt32 × List Nat) :=
  if hoffset : offset < laneBytes then do
    let (registers, more) ← column absorbWord laneBytes block offset registers
    match hnext : add offset 8 with
    | .ok next =>
        have := rest_lt_of_add hoffset hnext
        columns absorbWord laneBytes block next registers (starts ++ more)
    | .error fault => .error fault
  else .ok (registers, starts)
termination_by laneBytes.toNat - offset.toNat

theorem columns_of_lt {absorbWord : UInt32 → UInt64 → UInt32} {laneBytes : UInt64}
    {block : Array UInt8} {offset : UInt64} {registers after : List UInt32} {more : List Nat}
    (hoffset : offset < laneBytes) (hnext : offset.toNat + 8 < UInt64.size)
    (hcolumn : column absorbWord laneBytes block offset registers = .ok (after, more))
    (starts : List Nat) :
    columns absorbWord laneBytes block offset registers starts
      = columns absorbWord laneBytes block (offset + 8) after (starts ++ more) := by
  have hadd : add offset 8 = .ok (offset + 8) := add_eq_ok hnext
  rw [columns, dif_pos hoffset, hcolumn]
  simp only [ok_bind]
  split
  · rename_i next heq
    rw [hadd] at heq
    cases heq
    rfl
  · rename_i fault heq
    rw [hadd] at heq
    cases heq

/-- Every byte lies in exactly one of the words that start there. -/
def ReadOnce (length : Nat) (starts : List Nat) : Prop :=
  ∀ byte < length, starts.countP (fun start ↦ start ≤ byte ∧ byte < start + wordBytes) = 1

instance (length : Nat) (starts : List Nat) : Decidable (ReadOnce length starts) :=
  inferInstanceAs (Decidable (∀ byte < length, _))

def lockstep (kernel : Kernel) (lanes : UInt64) (level : Level) (register : UInt32)
    (block : List UInt8) : Except Fault UInt32 := do
  let size ← mul lanes level.laneBytes
  require (block.length = size.toNat) .blockLength
  let (registers, starts) ← columns kernel.absorbWord level.laneBytes block.toArray 0
    (Kernel.seedLanes lanes.toNat register) []
  require (ReadOnce block.length starts) .coverage
  merge level.pastLane registers

def innermost (kernel : Kernel) (level : Level) (register : UInt32) (block : List UInt8) :
    Except Fault UInt32 := do
  require (1 ≤ level.shape.lanes ∧ level.shape.lanes ≤ maxLanes) .laneCount
  lockstep kernel level.shape.lanes level register block

def outer (level : Level) (inside : UInt32 → List UInt8 → Except Fault UInt32)
    (register : UInt32) (block : List UInt8) : Except Fault UInt32 := do
  let (lanes, _) ← cutInto level.laneBytes block
  match lanes with
  | [] => .error .noFirstLane
  | first :: others => do
      let merged ← inside register first
      others.foldlM
        (fun merged lane ↦ do
          let register ← inside 0 lane
          return level.pastLane.apply merged ^^^ register)
        merged

/-- The walk of `Kernel.feedAlong` under guard. -/
def along (kernel : Kernel) : List Level → UInt32 → List UInt8 → Except Fault UInt32
  | [], register, data => .ok (kernel.feed register data)
  | level :: inner, register, data => do
      let (blocks, rest) ← cutInto level.blockBytes data
      let feedBlock := if inner.isEmpty then innermost kernel level
        else outer level (along kernel inner)
      let register ← blocks.foldlM feedBlock register
      along kernel inner register rest

end Guarded

end InterleavedCrc
