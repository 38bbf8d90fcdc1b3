/-!
# Checksum algorithms

An algorithm feeds bytes to a state and reads a checksum off it.  Several buffers
are fed in order.  A combining algorithm also joins the checksums of two parts.
-/

namespace InterleavedCrc

/-- A borrowed buffer, known by its bytes alone. -/
structure Slice where
  bytes : List UInt8
deriving DecidableEq

structure Algorithm (State Output : Type) where
  outputBytes : Nat
  fresh : State
  resume : Output → State
  update : State → List UInt8 → State
  finalize : State → Output
  reset : State → State

structure CombiningAlgorithm (State Output : Type) extends Algorithm State Output where
  combine : Output → Output → Nat → Output

namespace Algorithm

variable {State Output : Type}

def updateAll (algorithm : Algorithm State Output) (state : State)
    (buffers : List (List UInt8)) : State :=
  buffers.foldl algorithm.update state

/-- Feeds borrowed buffers in order. -/
def updateSlices (algorithm : Algorithm State Output) (state : State) (slices : List Slice) :
    State :=
  slices.foldl (fun state slice ↦ algorithm.update state slice.bytes) state

def checksum (algorithm : Algorithm State Output) (data : List UInt8) : Output :=
  algorithm.finalize (algorithm.update algorithm.fresh data)

def checksumAll (algorithm : Algorithm State Output) (buffers : List (List UInt8)) : Output :=
  algorithm.finalize (algorithm.updateAll algorithm.fresh buffers)

@[simp] theorem updateAll_nil (algorithm : Algorithm State Output) (state : State) :
    algorithm.updateAll state [] = state := rfl

@[simp] theorem updateAll_cons (algorithm : Algorithm State Output) (state : State)
    (buffer : List UInt8) (buffers : List (List UInt8)) :
    algorithm.updateAll state (buffer :: buffers)
      = algorithm.updateAll (algorithm.update state buffer) buffers := rfl

theorem updateSlices_eq (algorithm : Algorithm State Output) (state : State)
    (slices : List Slice) :
    algorithm.updateSlices state slices
      = algorithm.updateAll state (slices.map Slice.bytes) :=
  List.foldl_map.symm

end Algorithm

namespace CombiningAlgorithm

variable {State Output : Type}

/-- The checksum so far, with that of one more buffer joined to it. -/
def join (algorithm : CombiningAlgorithm State Output) (running : Output)
    (buffer : List UInt8) : Output :=
  algorithm.combine running (algorithm.checksum buffer) buffer.length

/-- The checksum after each buffer, from those of the single buffers. -/
def joined (algorithm : CombiningAlgorithm State Output) :
    Output → List (List UInt8) → List Output
  | _, [] => []
  | running, buffer :: buffers =>
      let next := algorithm.join running buffer
      next :: algorithm.joined next buffers

def xor8 : CombiningAlgorithm UInt8 UInt8 where
  outputBytes := 1
  fresh := 0
  resume running := running
  update state data := data.foldl (· ^^^ ·) state
  finalize state := state
  reset _ := 0
  combine a b _ := a ^^^ b

end CombiningAlgorithm

end InterleavedCrc
