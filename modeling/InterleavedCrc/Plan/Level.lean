import InterleavedCrc.Bytes
import InterleavedCrc.Residue
import InterleavedCrc.Plan.Error

/-!
# Levels

A level cuts a block into equally long lanes.  It carries the sizes in bytes and
the zero extension that moves a register past a lane.  `Level.make` accepts
exactly the shapes that fit (`make_eq_ok_iff`).
-/

namespace InterleavedCrc

/-- The words of one lane and the number of lanes. -/
structure Shape where
  words : UInt64
  lanes : UInt64
deriving DecidableEq

structure Level where
  shape : Shape
  laneBytes : UInt64
  blockBytes : UInt64
  pastLane : ZeroExtension
deriving DecidableEq

/-- The shape has a word and a lane, not too many lanes, and a block whose size
in bytes is a machine word. -/
def Shape.Fits (shape : Shape) : Prop :=
  0 < shape.words.toNat ∧ 1 ≤ shape.lanes.toNat ∧ shape.lanes.toNat ≤ maxLanes.toNat
    ∧ shape.words.toNat * wordBytes * shape.lanes.toNat < UInt64.size

instance (shape : Shape) : Decidable shape.Fits := inferInstanceAs (Decidable (_ ∧ _))

theorem Shape.Fits.words_ne_zero {shape : Shape} (h : shape.Fits) : shape.words ≠ 0 := by
  intro hzero
  simpa [hzero] using h.1

namespace Level

/-- The level of a shape; its sizes are computed in machine words. -/
def ofShape (shape : Shape) : Level :=
  let laneBytes := shape.words * UInt64.ofNat wordBytes
  ⟨shape, laneBytes, laneBytes * shape.lanes, ZeroExtension.ofLength laneBytes.toNat⟩

/-- The level of a shape that fits.  The depth only labels the error. -/
def make (depth : Nat) (shape : Shape) : Except PlanError Level :=
  if shape.lanes = 0 ∨ maxLanes < shape.lanes then .error (.laneCount depth shape.lanes)
  else if UInt64.size ≤ shape.words.toNat * wordBytes * shape.lanes.toNat then
    .error (.chunkTooLarge depth shape.words)
  else if shape.words = 0 then .error (.belowTerminal depth)
  else .ok (ofShape shape)

def text (level : Level) : String :=
  toString level.shape.words.toNat ++ "x" ++ toString level.shape.lanes.toNat

def outline (level : Level) : Outline :=
  .group (.record "Level")
    [.field "chunk_words" (.ofNat level.shape.words.toNat),
      .field "lanes" (.ofNat level.shape.lanes.toNat),
      .field "block_bytes" (.ofNat level.blockBytes.toNat)]

@[simp] theorem shape_ofShape (shape : Shape) : (ofShape shape).shape = shape := rfl

theorem make_eq_ok_iff {depth : Nat} {shape : Shape} {level : Level} :
    make depth shape = .ok level ↔ shape.Fits ∧ level = ofShape shape := by
  have hw : shape.words = 0 ↔ shape.words.toNat = 0 := by simp [← UInt64.toNat_inj]
  have hl : shape.lanes = 0 ↔ shape.lanes.toNat = 0 := by simp [← UInt64.toNat_inj]
  have hm : maxLanes < shape.lanes ↔ maxLanes.toNat < shape.lanes.toNat :=
    UInt64.lt_iff_toNat_lt
  unfold make Shape.Fits
  split
  · rename_i h
    simp only [reduceCtorEq, false_iff]
    rintro ⟨⟨_, h1, h2, _⟩, _⟩
    rcases h with h | h
    · exact absurd (hl.1 h) (by omega)
    · exact absurd (hm.1 h) (by omega)
  · rename_i h
    obtain ⟨h1, h2⟩ := not_or.1 h
    split
    · simp only [reduceCtorEq, false_iff]
      rintro ⟨⟨_, _, _, _⟩, _⟩
      omega
    · split
      · rename_i h0
        simp only [reduceCtorEq, false_iff]
        rintro ⟨⟨hpos, _⟩, _⟩
        exact absurd (hw.1 h0) (by omega)
      · rename_i h0
        have h1 := mt hl.2 h1
        have h2 := mt hm.2 h2
        have h0 := mt hw.2 h0
        constructor
        · intro e
          exact ⟨⟨by omega, by omega, by omega, by omega⟩, (Except.ok.inj e).symm⟩
        · rintro ⟨_, rfl⟩
          rfl

end Level

end InterleavedCrc
