import InterleavedCrc.Proofs.Reduction

/-!
# Routes to a checksum

Buffers may be fed one by one, as borrowed slices or as their concatenation, to a fresh
or to a resumed state, and their checksums may be combined.  For an algorithm that feeds
data as a stream all feeding comes to the same.  If it also resumes and combines as it
should, so do all other routes (`CombiningAlgorithm.Lawful.coherent`).
-/

namespace InterleavedCrc

variable {State Output : Type}

/-- The states at hand are kept by updates, and data may be fed to them in parts. -/
structure Algorithm.Streams (algorithm : Algorithm State Output) (atHand : State → Prop) :
    Prop where
  fresh : atHand algorithm.fresh
  resume : ∀ running, atHand (algorithm.resume running)
  update : ∀ state, atHand state → ∀ data, atHand (algorithm.update state data)
  update_nil : ∀ state, atHand state → algorithm.update state [] = state
  update_append : ∀ state, atHand state → ∀ a b,
    algorithm.update state (a ++ b) = algorithm.update (algorithm.update state a) b

namespace Algorithm

theorem updateSlices_map_mk (algorithm : Algorithm State Output) (state : State)
    (buffers : List (List UInt8)) :
    algorithm.updateSlices state (buffers.map Slice.mk) = algorithm.updateAll state buffers :=
  List.foldl_map

namespace Streams

variable {algorithm : Algorithm State Output} {atHand : State → Prop}

theorem updateAll_eq (h : algorithm.Streams atHand) {state : State} (hstate : atHand state)
    (buffers : List (List UInt8)) :
    algorithm.updateAll state buffers = algorithm.update state buffers.flatten := by
  induction buffers generalizing state with
  | nil => exact (h.update_nil state hstate).symm
  | cons buffer buffers ih =>
      have hnext : atHand (algorithm.update state buffer) := h.update state hstate buffer
      calc algorithm.updateAll state (buffer :: buffers)
          = algorithm.update (algorithm.update state buffer) buffers.flatten := ih hnext
        _ = algorithm.update state (buffer :: buffers).flatten :=
            (h.update_append state hstate buffer buffers.flatten).symm

theorem checksumAll_eq (h : algorithm.Streams atHand) (buffers : List (List UInt8)) :
    algorithm.checksumAll buffers = algorithm.checksum buffers.flatten :=
  congrArg algorithm.finalize (h.updateAll_eq h.fresh buffers)

theorem finalize_fresh (h : algorithm.Streams atHand) :
    algorithm.finalize algorithm.fresh = algorithm.checksum [] :=
  congrArg algorithm.finalize (h.update_nil algorithm.fresh h.fresh).symm

end Streams

end Algorithm

namespace CombiningAlgorithm

/-- Besides, a checksum can be resumed, and those of two parts can be combined. -/
structure Lawful (algorithm : CombiningAlgorithm State Output) (atHand : State → Prop) : Prop
    extends algorithm.toAlgorithm.Streams atHand where
  resume_checksum : ∀ a b, algorithm.finalize (algorithm.update
    (algorithm.resume (algorithm.checksum a)) b) = algorithm.checksum (a ++ b)
  combine_checksum : ∀ a b, algorithm.combine (algorithm.checksum a) (algorithm.checksum b)
    b.length = algorithm.checksum (a ++ b)

/-- All routes agree, where `oneShot` is how the checksum of data is found in one call. -/
structure Coherent (algorithm : CombiningAlgorithm State Output) (oneShot : List UInt8 → Output) :
    Prop where
  checksumAll_eq : ∀ buffers, algorithm.checksumAll buffers = oneShot buffers.flatten
  combined_eq : ∀ buffers : List (List UInt8),
    buffers.foldl
      (fun running buffer ↦ algorithm.combine running (oneShot buffer) buffer.length)
      (algorithm.finalize algorithm.fresh) = oneShot buffers.flatten
  updateAll_eq : ∀ running buffers,
    algorithm.finalize (algorithm.updateAll (algorithm.resume running) buffers)
      = algorithm.finalize (algorithm.update (algorithm.resume running) buffers.flatten)
  updateSlices_eq : ∀ running (buffers : List (List UInt8)),
    algorithm.finalize (algorithm.updateSlices (algorithm.resume running) (buffers.map Slice.mk))
      = algorithm.finalize (algorithm.update (algorithm.resume running) buffers.flatten)
  resumed_eq : ∀ (a : List UInt8) (buffers : List (List UInt8)),
    algorithm.finalize (algorithm.update (algorithm.resume (oneShot a)) buffers.flatten)
      = oneShot (a ++ buffers.flatten)

namespace Lawful

variable {algorithm : CombiningAlgorithm State Output} {atHand : State → Prop}

/-- The running checksum of the join is that of all bytes so far. -/
theorem foldl_join (h : algorithm.Lawful atHand) (a : List UInt8) (buffers : List (List UInt8)) :
    buffers.foldl algorithm.join (algorithm.checksum a)
      = algorithm.checksum (a ++ buffers.flatten) := by
  induction buffers generalizing a with
  | nil => simp
  | cons buffer buffers ih =>
      rw [List.foldl_cons, join, h.combine_checksum, ih, List.flatten_cons, List.append_assoc]

theorem coherent (h : algorithm.Lawful atHand) : algorithm.Coherent algorithm.checksum where
  checksumAll_eq := h.checksumAll_eq
  combined_eq buffers := by
    have hjoin := h.foldl_join [] buffers
    rwa [← h.finalize_fresh] at hjoin
  updateAll_eq running buffers :=
    congrArg algorithm.finalize (h.updateAll_eq (h.resume running) buffers)
  updateSlices_eq running buffers := by
    rw [algorithm.updateSlices_map_mk, h.updateAll_eq (h.resume running)]
  resumed_eq a buffers := h.resume_checksum a buffers.flatten

end Lawful

/-! ## The two algorithms -/

theorem checksum_crc32c (backend : Backend) (data : List UInt8) :
    (crc32c backend.kernel).checksum data = bitwiseCrc 0 data :=
  crc32c_eq_bitwiseCrc Plan.obtainable_standard backend 0 data

theorem lawful_crc32c (backend : Backend) :
    (crc32c backend.kernel).Lawful fun hasher ↦ hasher.plan.Obtainable where
  fresh := Plan.obtainable_standard
  resume _ := Plan.obtainable_standard
  update _ hplan _ := hplan
  update_nil hasher _ := hasher.update_nil backend.kernel
  update_append hasher hplan a b := by
    have hcrc : InterleavedCrc.crc32c backend.kernel hasher.crc (a ++ b) hasher.plan
        = InterleavedCrc.crc32c backend.kernel
          (InterleavedCrc.crc32c backend.kernel hasher.crc a hasher.plan) b hasher.plan := by
      simp only [crc32c_eq_bitwiseCrc hplan, bitwiseCrc_append]
    exact congrArg (Hasher.mk · hasher.initial hasher.plan) hcrc
  resume_checksum a b := by
    rw [checksum_crc32c, checksum_crc32c, bitwiseCrc_append]
    exact crc32c_eq_bitwiseCrc Plan.obtainable_standard backend (bitwiseCrc 0 a) b
  combine_checksum a b := by
    simp only [checksum_crc32c]
    exact combine_bitwiseCrc 0 a b

/-- The one call may be made when another backend is recorded. -/
theorem hasher_checksum_eq (backend other : Backend) :
    Hasher.checksum other.kernel = (crc32c backend.kernel).checksum := by
  funext data
  rw [checksum_crc32c, Hasher.checksum, crc32c_eq_bitwiseCrc Plan.obtainable_standard]

theorem lawful_xor8 : xor8.Lawful fun _ ↦ True where
  fresh := trivial
  resume _ := trivial
  update _ _ _ := trivial
  update_nil _ _ := rfl
  update_append _ _ _ _ := List.foldl_append
  resume_checksum _ _ := List.foldl_append.symm
  combine_checksum a b := by
    calc xor8.checksum a ^^^ xor8.checksum b
        = b.foldl (· ^^^ ·) (xor8.checksum a ^^^ 0) := List.foldl_assoc.symm
      _ = b.foldl (· ^^^ ·) (xor8.checksum a) := by rw [UInt8.xor_zero]
      _ = xor8.checksum (a ++ b) := List.foldl_append.symm

end CombiningAlgorithm

theorem routes_agree :
    (∀ backend other : Backend,
      (CombiningAlgorithm.crc32c backend.kernel).Coherent (Hasher.checksum other.kernel)) ∧
    CombiningAlgorithm.xor8.Coherent CombiningAlgorithm.xor8.checksum ∧
    ∀ (State Output : Type) (algorithm : Algorithm State Output),
      (∀ state, algorithm.update state [] = state) →
      (∀ state a b,
        algorithm.update state (a ++ b) = algorithm.update (algorithm.update state a) b) →
      ∀ buffers : List (List UInt8),
        algorithm.checksumAll buffers = algorithm.checksum buffers.flatten ∧
        ∀ state,
          algorithm.updateAll state buffers = algorithm.update state buffers.flatten ∧
          algorithm.updateSlices state (buffers.map Slice.mk)
            = algorithm.update state buffers.flatten := by
  refine ⟨fun backend other ↦ ?_, CombiningAlgorithm.lawful_xor8.coherent, ?_⟩
  · rw [CombiningAlgorithm.hasher_checksum_eq backend other]
    exact (CombiningAlgorithm.lawful_crc32c backend).coherent
  · intro State Output algorithm hnil happend buffers
    have hstreams : algorithm.Streams fun _ ↦ True :=
      { fresh := trivial
        resume := fun _ ↦ trivial
        update := fun _ _ _ ↦ trivial
        update_nil := fun state _ ↦ hnil state
        update_append := fun state _ ↦ happend state }
    refine ⟨hstreams.checksumAll_eq buffers, fun state ↦ ?_⟩
    rw [algorithm.updateSlices_map_mk]
    exact ⟨hstreams.updateAll_eq trivial buffers, hstreams.updateAll_eq trivial buffers⟩

/-- An algorithm of another kind, which only counts the bytes. -/
def byteCount : Algorithm ℕ ℕ where
  outputBytes := 8
  fresh := 0
  resume running := running
  update state data := state + data.length
  finalize state := state
  reset _ := 0

theorem routes_of_digits :
    (CombiningAlgorithm.crc32c Backend.sse42.kernel).checksumAll (digitParts.map Part.data)
        = 0xE3069283 ∧
      CombiningAlgorithm.xor8.checksumAll (digitParts.map Part.data) = 0x31 ∧
      (∀ state, byteCount.update state [] = state) ∧
      (∀ state a b, byteCount.update state (a ++ b)
        = byteCount.update (byteCount.update state a) b) ∧
      byteCount.checksumAll (digitParts.map Part.data) = 9 ∧
      byteCount.updateSlices 2 ((digitParts.map Part.data).map Slice.mk) = 11 := by
  have hnil : ∀ state, byteCount.update state [] = state := fun _ ↦ rfl
  have happend : ∀ state a b,
      byteCount.update state (a ++ b) = byteCount.update (byteCount.update state a) b := by
    intro state a b
    simp only [byteCount, List.length_append, Nat.add_assoc]
  obtain ⟨hcrc, hxor, hother⟩ := routes_agree
  obtain ⟨hcount, hslices⟩ := hother ℕ ℕ byteCount hnil happend (digitParts.map Part.data)
  refine ⟨?_, (hxor.checksumAll_eq _).trans (by decide), hnil, happend, hcount, (hslices 2).2⟩
  rw [(hcrc .sse42 .portable).checksumAll_eq, Hasher.checksum,
    crc32c_eq_bitwiseCrc Plan.obtainable_standard]
  decide +kernel

end InterleavedCrc
