import InterleavedCrc.Plan.Basic

/-!
# Kernels

A kernel moves the register over a word and over a byte.  Everything above it
asks for these two steps only, and a sound kernel takes both as the bit-at-a-time
register does.

Whole blocks of the outermost level of a plan are cut into lanes; what is left over
goes to the levels inside it, and last to the words and bytes in sequence.  The
lanes of the innermost level advance in lock-step, and each lane of another level
goes through the levels inside.  A checksum is the inverted register (`crc32c`).
-/

namespace InterleavedCrc

structure Kernel where
  absorbWord : UInt32 → UInt64 → UInt32
  absorbByte : UInt32 → UInt8 → UInt32

namespace Kernel

/-- Table look-ups; runs everywhere. -/
def portable : Kernel :=
  ⟨SlicingTables.castagnoli.absorbWord, SlicingTables.castagnoli.absorbByte⟩

/-- The processor's own instruction, by the register it is specified to leave. -/
def instruction : Kernel :=
  ⟨fun register word ↦ Register.feed castagnoli register (bytesOfWord word),
    Register.absorb castagnoli⟩

structure Sound (kernel : Kernel) : Prop where
  absorbWord : ∀ register word,
    kernel.absorbWord register word = Register.feed castagnoli register (bytesOfWord word)
  absorbByte : ∀ register byte,
    kernel.absorbByte register byte = Register.absorb castagnoli register byte

theorem instruction_sound : instruction.Sound := ⟨fun _ _ ↦ rfl, fun _ _ ↦ rfl⟩

/-! ### Lanes in lock-step

The lanes of a block are consecutive runs of equal length.  They advance
together, one word of each lane a step, so the words are met column by column.
The first lane continues the register; every other starts from zero. -/

def wordAt (block : Array UInt8) (start : Nat) : UInt64 :=
  wordOfBytes (block.extract start (start + wordBytes)).toList

def seedLanes (lanes : Nat) (register : UInt32) : List UInt32 :=
  (List.range lanes).map fun lane ↦ if lane = 0 then register else 0

/-- One step: every lane takes its word at `offset`. -/
def stepLanes (absorbWord : UInt32 → UInt64 → UInt32) (laneBytes : Nat) (block : Array UInt8)
    (offset : Nat) (registers : List UInt32) : List UInt32 :=
  registers.mapIdx fun lane register ↦
    absorbWord register (wordAt block (lane * laneBytes + offset))

/-- The registers after every word of a lane. -/
def laneRegisters (absorbWord : UInt32 → UInt64 → UInt32) (lanes laneBytes : Nat)
    (register : UInt32) (block : Array UInt8) : List UInt32 :=
  (List.range (laneBytes / wordBytes)).foldl
    (fun registers step ↦ stepLanes absorbWord laneBytes block (wordBytes * step) registers)
    (seedLanes lanes register)

@[simp] theorem length_seedLanes (lanes : Nat) (register : UInt32) :
    (seedLanes lanes register).length = lanes := by
  simp [seedLanes]

@[simp] theorem length_stepLanes (absorbWord : UInt32 → UInt64 → UInt32) (laneBytes : Nat)
    (block : Array UInt8) (offset : Nat) (registers : List UInt32) :
    (stepLanes absorbWord laneBytes block offset registers).length = registers.length := by
  simp [stepLanes]

@[simp] theorem length_laneRegisters (absorbWord : UInt32 → UInt64 → UInt32)
    (lanes laneBytes : Nat) (register : UInt32) (block : Array UInt8) :
    (laneRegisters absorbWord lanes laneBytes register block).length = lanes := by
  have hfold : ∀ (steps : List Nat) (registers : List UInt32),
      (steps.foldl (fun registers step ↦
        stepLanes absorbWord laneBytes block (wordBytes * step) registers) registers).length
        = registers.length := by
    intro steps
    induction steps with
    | nil => intro registers; rfl
    | cons step steps ih =>
        intro registers
        rw [List.foldl_cons, ih, length_stepLanes]
  rw [laneRegisters, hfold, length_seedLanes]

/-! ### Along the levels of a plan -/

/-- Whole words, then the bytes that do not fill one. -/
def feed (kernel : Kernel) (register : UInt32) (data : List UInt8) : UInt32 :=
  let (words, bytes) := cut wordBytes data
  bytes.foldl kernel.absorbByte
    (words.foldl (fun register word ↦ kernel.absorbWord register (wordOfBytes word)) register)

def feedLockstep (kernel : Kernel) (level : Level) (register : UInt32) (block : List UInt8) :
    UInt32 :=
  level.pastLane.merge
    (laneRegisters kernel.absorbWord level.shape.lanes.toNat level.laneBytes.toNat register
      block.toArray)

/-- One block of the innermost level.  A lane count that no level may have is
not cut into lanes. -/
def feedInnermost (kernel : Kernel) (level : Level) (register : UInt32) (block : List UInt8) :
    UInt32 :=
  if 1 ≤ level.shape.lanes ∧ level.shape.lanes ≤ maxLanes then
    kernel.feedLockstep level register block
  else kernel.feed register block

def feedOuter (level : Level) (inside : UInt32 → List UInt8 → UInt32) (register : UInt32)
    (block : List UInt8) : UInt32 :=
  match (cut level.laneBytes.toNat block).1 with
  | [] => register
  | first :: others => level.pastLane.merge (inside register first :: others.map (inside 0))

/-- The register after `data`, along levels from the outermost. -/
def feedAlong (kernel : Kernel) : List Level → UInt32 → List UInt8 → UInt32
  | [], register, data => kernel.feed register data
  | level :: inner, register, data =>
      let (blocks, rest) := cut level.blockBytes.toNat data
      let feedBlock := if inner.isEmpty then kernel.feedInnermost level
        else feedOuter level (kernel.feedAlong inner)
      kernel.feedAlong inner (blocks.foldl feedBlock register) rest

@[simp] theorem feedAlong_nil (kernel : Kernel) (register : UInt32) (data : List UInt8) :
    kernel.feedAlong [] register data = kernel.feed register data := rfl

end Kernel

/-- The CRC-32C of everything up to the end of `data`, when `running` is that of
everything before it. -/
def crc32c (kernel : Kernel) (running : UInt32) (data : List UInt8) (plan : Plan) : UInt32 :=
  if data.isEmpty then running else ~~~kernel.feedAlong plan.levels (~~~running) data

@[simp] theorem crc32c_nil (kernel : Kernel) (running : UInt32) (plan : Plan) :
    crc32c kernel running [] plan = running := rfl

end InterleavedCrc
