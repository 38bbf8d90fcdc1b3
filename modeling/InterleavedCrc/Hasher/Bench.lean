import InterleavedCrc.Backend
import InterleavedCrc.Hasher.Basic

/-!
# Numbered hashers

A bench holds hashers in numbered slots.  A command names a slot and what to do
there; it changes no other slot.  A call carries out a command on the backend that is
recorded at the time, on the hasher itself or through its algorithm.  A run keeps the
answers of all its calls.
-/

namespace InterleavedCrc

/-- The hashers by slot; the latest one put into a slot is the one in it. -/
structure Bench where
  slots : List (Nat × Hasher)

namespace Bench

def empty : Bench := ⟨[]⟩

def get? (bench : Bench) (slot : Nat) : Option Hasher := bench.slots.lookup slot

def put (bench : Bench) (slot : Nat) (hasher : Hasher) : Bench :=
  ⟨(slot, hasher) :: bench.slots⟩

@[simp] theorem get?_put_self (bench : Bench) (slot : Nat) (hasher : Hasher) :
    (bench.put slot hasher).get? slot = some hasher := by
  simp [get?, put]

theorem get?_put_ne (bench : Bench) {slot other : Nat} (h : other ≠ slot) (hasher : Hasher) :
    (bench.put slot hasher).get? other = bench.get? other := by
  have : (other == slot) = false := by simpa using h
  simp [get?, put, List.lookup_cons, this]

end Bench

inductive Action where
  | new
  | default
  | newWith (plan : Plan)
  | resume (crc : UInt32)
  | resumeWith (crc : UInt32) (plan : Plan)
  | clone (source : Nat)
  | update (data : List UInt8)
  | updateAll (buffers : List (List UInt8))
  | updateSlices (slices : List Slice)
  | write (data : List UInt8)
  | writeAll (data : List UInt8)
  | flush
  | reset
  | finalize
  | plan
  | outline
  /-- Joins this slot's checksum with that of another slot, for data so long. -/
  | combine (other : Nat) (length : Nat)

structure Command where
  slot : Nat
  action : Action

/-- A command, the backend that is recorded when it is carried out, and whether it
reaches the hasher through the algorithm. -/
structure Call where
  backend : Backend
  generic : Bool
  command : Command

namespace Bench

inductive Answer where
  | done
  | taken (bytes : Nat)
  | succeeded (value : Bool)
  | checksum (value : UInt32)
  | plan (value : Plan)
  | outline (value : Outline)

def act (kernel : Kernel) (bench : Bench) (slot : Nat) : Action → Option (Hasher × Answer)
  | .new => some (.new, .done)
  | .default => some (default, .done)
  | .newWith plan => some (.newWith plan, .done)
  | .resume crc => some (.resume crc, .done)
  | .resumeWith crc plan => some (.resumeWith crc plan, .done)
  | .clone source => (bench.get? source).map fun hasher ↦ (hasher, .done)
  | .update data => (bench.get? slot).map fun hasher ↦ (hasher.update kernel data, .done)
  | .updateAll buffers =>
      (bench.get? slot).map fun hasher ↦ (hasher.updateAll kernel buffers, .done)
  | .updateSlices slices =>
      (bench.get? slot).map fun hasher ↦ (hasher.updateSlices kernel slices, .done)
  | .write data =>
      (bench.get? slot).map fun hasher ↦
        let (next, bytes) := hasher.write kernel data
        (next, .taken bytes)
  | .writeAll data =>
      (bench.get? slot).map fun hasher ↦
        match hasher.writeAll kernel data with
        | some next => (next, .succeeded true)
        | none => (hasher, .succeeded false)
  | .flush =>
      (bench.get? slot).map fun hasher ↦
        match hasher.flush with
        | some next => (next, .succeeded true)
        | none => (hasher, .succeeded false)
  | .reset => (bench.get? slot).map fun hasher ↦ (hasher.reset, .done)
  | .finalize => (bench.get? slot).map fun hasher ↦ (hasher, .checksum hasher.finalize)
  | .plan => (bench.get? slot).map fun hasher ↦ (hasher, .plan hasher.plan)
  | .outline => (bench.get? slot).map fun hasher ↦ (hasher, .outline hasher.outline)
  | .combine other length => do
      let hasher ← bench.get? slot
      let second ← bench.get? other
      return (hasher, .checksum (InterleavedCrc.combine hasher.finalize second.finalize length))

/-- The actions that every algorithm offers, taken through this one; any other is the
hasher's own. -/
def actGeneric (kernel : Kernel) (bench : Bench) (slot : Nat) : Action → Option (Hasher × Answer)
  | .new => some ((CombiningAlgorithm.crc32c kernel).fresh, .done)
  | .default => some (default, .done)
  | .resume crc => some ((CombiningAlgorithm.crc32c kernel).resume crc, .done)
  | .update data =>
      (bench.get? slot).map fun hasher ↦
        ((CombiningAlgorithm.crc32c kernel).update hasher data, .done)
  | .updateAll buffers =>
      (bench.get? slot).map fun hasher ↦
        ((CombiningAlgorithm.crc32c kernel).updateAll hasher buffers, .done)
  | .updateSlices slices =>
      (bench.get? slot).map fun hasher ↦
        ((CombiningAlgorithm.crc32c kernel).updateSlices hasher slices, .done)
  | .reset =>
      (bench.get? slot).map fun hasher ↦ ((CombiningAlgorithm.crc32c kernel).reset hasher, .done)
  | .finalize =>
      (bench.get? slot).map fun hasher ↦
        (hasher, .checksum ((CombiningAlgorithm.crc32c kernel).finalize hasher))
  | .combine other length => do
      let hasher ← bench.get? slot
      let second ← bench.get? other
      return (hasher, .checksum ((CombiningAlgorithm.crc32c kernel).combine
        ((CombiningAlgorithm.crc32c kernel).finalize hasher)
        ((CombiningAlgorithm.crc32c kernel).finalize second) length))
  | action => bench.act kernel slot action

/-- The bench after a command, and the answer.  There is none when a slot that
the command reads holds no hasher. -/
def step (kernel : Kernel) (bench : Bench) (command : Command) : Option (Bench × Answer) :=
  (bench.act kernel command.slot command.action).map fun (hasher, answer) ↦
    (bench.put command.slot hasher, answer)

/-- The bench after a call, and the answer. -/
def perform (bench : Bench) (call : Call) : Option (Bench × Answer) :=
  if call.generic then
    (bench.actGeneric call.backend.kernel call.command.slot call.command.action).map
      fun (hasher, answer) ↦ (bench.put call.command.slot hasher, answer)
  else bench.step call.backend.kernel call.command

/-- The bench after the calls, and their answers in order. -/
def run (bench : Bench) : List Call → Option (Bench × List Answer)
  | [] => some (bench, [])
  | call :: calls => do
      let (next, answer) ← bench.perform call
      (next.run calls).map fun (last, answers) ↦ (last, answer :: answers)

end Bench

end InterleavedCrc
