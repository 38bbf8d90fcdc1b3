import InterleavedCrc.Proofs.Coherence
import InterleavedCrc.Proofs.Suffixes

/-!
# Resets

Whoever knows a state by its algorithm alone creates it in one of three ways, feeds it in
any of three forms and resets it.  What was fed has no say in the reset, so the state is
that of a reset right after the creation (`Implementor.Forgets.resetAfter_eq`).  An xor8
state then starts anew.  A CRC-32C hasher goes back to its creation, which is a new
hasher exactly if it was not resumed from another checksum than zero.
-/

namespace InterleavedCrc

variable {State Output : Type}

/-- The ways to a state that every algorithm offers; feeding has as many forms. -/
inductive Creation (Output : Type) where
  | fresh
  | default
  | resume (running : Output)

inductive Feeding where
  | update (data : List UInt8)
  | updateAll (buffers : List (List UInt8))
  | updateSlices (slices : List Slice)

namespace Algorithm

def create [Inhabited State] (algorithm : Algorithm State Output) : Creation Output → State
  | .fresh => algorithm.fresh
  | .default => default
  | .resume running => algorithm.resume running

def feed (algorithm : Algorithm State Output) (state : State) : Feeding → State
  | .update data => algorithm.update state data
  | .updateAll buffers => algorithm.updateAll state buffers
  | .updateSlices slices => algorithm.updateSlices state slices

end Algorithm

/-- An algorithm as a process runs it: at each call some backend is recorded.  `oneShot` is
how the checksum of data is found in one call. -/
structure Implementor (State Output : Type) where
  algorithm : Backend → Algorithm State Output
  oneShot : Backend → List UInt8 → Output

namespace Implementor

def crc32c : Implementor Hasher UInt32 where
  algorithm backend := (CombiningAlgorithm.crc32c backend.kernel).toAlgorithm
  oneShot backend := Hasher.checksum backend.kernel

def xor8 : Implementor UInt8 UInt8 where
  algorithm _ := CombiningAlgorithm.xor8.toAlgorithm
  oneShot _ := CombiningAlgorithm.xor8.checksum

/-- The state after a sequence of feedings, each with the backend that is recorded then. -/
def feedAll (implementor : Implementor State Output) (state : State)
    (calls : List (Backend × Feeding)) : State :=
  calls.foldl (fun state call ↦ (implementor.algorithm call.1).feed state call.2) state

def resetAfter [Inhabited State] (implementor : Implementor State Output) (backend : Backend)
    (creation : Creation Output) (calls : List (Backend × Feeding)) : State :=
  (implementor.algorithm backend).reset
    (implementor.feedAll ((implementor.algorithm backend).create creation) calls)

/-- The state is a new one, and so is what can be told of it. -/
structure StartsAnew (implementor : Implementor State Output) (state : State) : Prop where
  eq_fresh : ∀ backend, state = (implementor.algorithm backend).fresh
  finalize_eq : ∀ backend, (implementor.algorithm backend).finalize state
    = (implementor.algorithm backend).finalize (implementor.algorithm backend).fresh
  checksum_eq : ∀ backend other data, (implementor.algorithm backend).finalize
    ((implementor.algorithm backend).update state data) = implementor.oneShot other data

def Forgets (implementor : Implementor State Output) : Prop :=
  ∀ backend other state data, (implementor.algorithm backend).reset
    ((implementor.algorithm other).update state data)
      = (implementor.algorithm backend).reset state

namespace Forgets

variable {implementor : Implementor State Output}

theorem reset_updateAll (h : implementor.Forgets) (backend other : Backend) (state : State)
    (buffers : List (List UInt8)) :
    (implementor.algorithm backend).reset
        ((implementor.algorithm other).updateAll state buffers)
      = (implementor.algorithm backend).reset state := by
  induction buffers generalizing state with
  | nil => rfl
  | cons buffer buffers ih => rw [Algorithm.updateAll_cons, ih, h backend other]

theorem reset_feed (h : implementor.Forgets) (backend other : Backend) (state : State)
    (feeding : Feeding) :
    (implementor.algorithm backend).reset ((implementor.algorithm other).feed state feeding)
      = (implementor.algorithm backend).reset state := by
  cases feeding with
  | update data => exact h backend other state data
  | updateAll buffers => exact h.reset_updateAll backend other state buffers
  | updateSlices slices =>
      rw [Algorithm.feed, Algorithm.updateSlices_eq]
      exact h.reset_updateAll backend other state _

theorem reset_feedAll (h : implementor.Forgets) (backend : Backend) (state : State)
    (calls : List (Backend × Feeding)) :
    (implementor.algorithm backend).reset (implementor.feedAll state calls)
      = (implementor.algorithm backend).reset state := by
  -- Every call leaves another state behind, but not another one after the reset.
  induction calls generalizing state with
  | nil => rfl
  | cons call calls ih =>
      calc (implementor.algorithm backend).reset (implementor.feedAll state (call :: calls))
          = (implementor.algorithm backend).reset
              ((implementor.algorithm call.1).feed state call.2) := ih _
        _ = (implementor.algorithm backend).reset state := h.reset_feed backend _ _ _

theorem resetAfter_eq [Inhabited State] (h : implementor.Forgets) (backend : Backend)
    (creation : Creation Output) (calls : List (Backend × Feeding)) :
    implementor.resetAfter backend creation calls
      = (implementor.algorithm backend).reset
          ((implementor.algorithm backend).create creation) :=
  h.reset_feedAll backend _ calls

end Forgets

/-! ## The two algorithms -/

theorem forgets_crc32c : crc32c.Forgets := fun _ _ _ _ ↦ rfl

theorem forgets_xor8 : xor8.Forgets := fun _ _ _ _ ↦ rfl

theorem startsAnew_xor8 : xor8.StartsAnew 0 where
  eq_fresh _ := rfl
  finalize_eq _ := rfl
  checksum_eq _ _ _ := rfl

end Implementor

namespace Creation

def running : Creation UInt32 → UInt32
  | fresh => 0
  | default => 0
  | resume running => running

theorem create_crc32c (creation : Creation UInt32) (backend : Backend) :
    (Implementor.crc32c.algorithm backend).create creation = Hasher.resume creation.running := by
  cases creation with
  | fresh => rfl
  | default => rfl
  | resume running => rfl

end Creation

namespace Hasher

theorem finalize_update_resume (backend : Backend) (running : UInt32) (data : List UInt8) :
    ((resume running).update backend.kernel data).finalize = bitwiseCrc running data :=
  crc32c_eq_bitwiseCrc Plan.obtainable_standard backend running data

/-- A hasher that stands at a checksum continues from it.  Whatever it is fed next tells it
from a new one, unless that checksum is zero. -/
structure StandsAt (hasher : Hasher) (running : UInt32) : Prop where
  finalize_eq : hasher.finalize = running
  update_eq : ∀ (backend : Backend) (data : List UInt8),
    (hasher.update backend.kernel data).finalize = bitwiseCrc running data
  checksum_iff : ∀ (backend other : Backend) (data : List UInt8),
    (hasher.update backend.kernel data).finalize = checksum other.kernel data ↔ running = 0
  startsAnew_iff : Implementor.crc32c.StartsAnew hasher ↔ running = 0

theorem finalize_update_resume_eq_checksum_iff (backend other : Backend) (running : UInt32)
    (data : List UInt8) :
    ((resume running).update backend.kernel data).finalize = checksum other.kernel data ↔
      running = 0 := by
  rw [finalize_update_resume, checksum, crc32c_eq_bitwiseCrc Plan.obtainable_standard]
  exact (bitwiseCrc_left_injective data).eq_iff

theorem startsAnew_resume_iff (running : UInt32) :
    Implementor.crc32c.StartsAnew (resume running) ↔ running = 0 := by
  constructor
  · intro h
    -- A new hasher finalizes to zero, a resumed one to what it was resumed from.
    exact h.finalize_eq .portable
  · rintro rfl
    exact
      { eq_fresh := fun _ ↦ rfl
        finalize_eq := fun _ ↦ rfl
        checksum_eq := fun backend other data ↦
          (finalize_update_resume_eq_checksum_iff backend other 0 data).2 rfl }

theorem standsAt_resume (running : UInt32) : (resume running).StandsAt running where
  finalize_eq := rfl
  update_eq backend data := finalize_update_resume backend running data
  checksum_iff backend other data :=
    finalize_update_resume_eq_checksum_iff backend other running data
  startsAnew_iff := startsAnew_resume_iff running

end Hasher

theorem Implementor.resetAfter_crc32c (backend : Backend) (creation : Creation UInt32)
    (calls : List (Backend × Feeding)) :
    crc32c.resetAfter backend creation calls = Hasher.resume creation.running := by
  rw [forgets_crc32c.resetAfter_eq, creation.create_crc32c]
  rfl

theorem reset_returns_to_creation :
    (∀ (backend : Backend) (creation : Creation UInt8) (calls : List (Backend × Feeding)),
      Implementor.xor8.StartsAnew (Implementor.xor8.resetAfter backend creation calls)) ∧
    ∀ (backend : Backend) (creation : Creation UInt32) (calls : List (Backend × Feeding)),
      Implementor.crc32c.resetAfter backend creation calls
          = (Implementor.crc32c.algorithm backend).create creation ∧
        (Implementor.crc32c.resetAfter backend creation calls).StandsAt creation.running := by
  refine ⟨fun backend creation calls ↦ ?_, fun backend creation calls ↦ ?_⟩
  · rw [Implementor.forgets_xor8.resetAfter_eq]
    exact Implementor.startsAnew_xor8
  · rw [Implementor.resetAfter_crc32c, creation.create_crc32c]
    exact ⟨rfl, Hasher.standsAt_resume creation.running⟩

def moreFed : List (Backend × Feeding) := [(.sse42, .update [0x6D, 0x6F, 0x72, 0x65])]

/-- A hasher that was resumed is no new one after its reset. -/
theorem reset_keeps_resumed_checksum :
    (Implementor.crc32c.resetAfter .sse42 (.resume 0xE3069283) moreFed).finalize = 0xE3069283 ∧
      Hasher.new.finalize = 0 ∧
      ¬ Implementor.crc32c.StartsAnew
        (Implementor.crc32c.resetAfter .sse42 (.resume 0xE3069283) moreFed) := by
  rw [Implementor.resetAfter_crc32c, Hasher.startsAnew_resume_iff]
  exact ⟨rfl, rfl, by decide⟩

end InterleavedCrc
