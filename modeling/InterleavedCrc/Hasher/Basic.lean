import InterleavedCrc.Algorithm
import InterleavedCrc.Kernel

/-!
# Streaming hashers

A hasher holds the checksum so far, the checksum it was created with and its
plan.  A reset returns to the checksum of the creation.

A hasher is also a sink, which takes bytes and tells how many it took.  Whoever
wants all of them taken offers the rest again, and fails when a sink takes none.
A hasher takes whatever it is offered.
-/

namespace InterleavedCrc

structure Hasher where
  crc : UInt32
  initial : UInt32
  plan : Plan
deriving DecidableEq

namespace Hasher

def resumeWith (crc : UInt32) (plan : Plan) : Hasher := ⟨crc, crc, plan⟩

def newWith (plan : Plan) : Hasher := resumeWith 0 plan

def resume (crc : UInt32) : Hasher := resumeWith crc .standard

def new : Hasher := newWith .standard

instance : Inhabited Hasher := ⟨newWith .standard⟩

/-- The checksum of data in one call, without a hasher. -/
def checksum (kernel : Kernel) (data : List UInt8) : UInt32 := crc32c kernel 0 data .standard

def update (kernel : Kernel) (hasher : Hasher) (data : List UInt8) : Hasher :=
  ⟨crc32c kernel hasher.crc data hasher.plan, hasher.initial, hasher.plan⟩

def finalize (hasher : Hasher) : UInt32 := hasher.crc

def reset (hasher : Hasher) : Hasher := ⟨hasher.initial, hasher.initial, hasher.plan⟩

def outline (hasher : Hasher) : Outline :=
  .group (.record "Crc32c")
    [.field "crc" (.ofNat hasher.crc.toNat),
      .field "initial" (.ofNat hasher.initial.toNat),
      .field "plan" hasher.plan.outline]

@[simp] theorem initial_update (kernel : Kernel) (hasher : Hasher) (data : List UInt8) :
    (hasher.update kernel data).initial = hasher.initial := rfl

@[simp] theorem plan_update (kernel : Kernel) (hasher : Hasher) (data : List UInt8) :
    (hasher.update kernel data).plan = hasher.plan := rfl

@[simp] theorem update_nil (kernel : Kernel) (hasher : Hasher) :
    hasher.update kernel [] = hasher := rfl

end Hasher

/-- CRC-32C as an algorithm; new hashers have the standard plan. -/
def CombiningAlgorithm.crc32c (kernel : Kernel) : CombiningAlgorithm Hasher UInt32 where
  outputBytes := 4
  fresh := Hasher.new
  resume := Hasher.resume
  update := Hasher.update kernel
  finalize := Hasher.finalize
  reset := Hasher.reset
  combine := InterleavedCrc.combine

/-- Offers `data` to a sink until nothing is left.  There is no result if the
sink takes nothing of what is left. -/
def drain {Sink : Type} (write : Sink → List UInt8 → Sink × Nat) (sink : Sink)
    (data : List UInt8) : Option Sink :=
  match data with
  | [] => some sink
  | byte :: rest =>
      let (next, taken) := write sink (byte :: rest)
      if taken = 0 then none else drain write next ((byte :: rest).drop taken)
termination_by data.length
decreasing_by simp only [List.length_drop, List.length_cons]; omega

namespace Hasher

def updateAll (kernel : Kernel) (hasher : Hasher) (buffers : List (List UInt8)) : Hasher :=
  (CombiningAlgorithm.crc32c kernel).updateAll hasher buffers

def updateSlices (kernel : Kernel) (hasher : Hasher) (slices : List Slice) : Hasher :=
  (CombiningAlgorithm.crc32c kernel).updateSlices hasher slices

/-- Feeds `data`; all of it is taken. -/
def write (kernel : Kernel) (hasher : Hasher) (data : List UInt8) : Hasher × Nat :=
  (hasher.update kernel data, data.length)

def writeAll (kernel : Kernel) (hasher : Hasher) (data : List UInt8) : Option Hasher :=
  drain (write kernel) hasher data

/-- Nothing waits inside a hasher. -/
def flush (hasher : Hasher) : Option Hasher := some hasher

theorem writeAll_eq (kernel : Kernel) (hasher : Hasher) (data : List UInt8) :
    hasher.writeAll kernel data = some (hasher.update kernel data) := by
  cases data with
  | nil => simp [writeAll, drain]
  | cons byte rest =>
      rw [writeAll, drain]
      simp only [write, List.length_cons, Nat.add_eq_zero_iff, Nat.one_ne_zero, and_false,
        if_false]
      rw [List.drop_of_length_le (by simp), drain]

end Hasher

end InterleavedCrc
