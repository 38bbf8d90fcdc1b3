import InterleavedCrc.Plan.Construction

/-!
# Sizes of accepted levels

The sizes of an accepted level are the exact products of its shape, and its zero
extension passes one lane.  Every level of a plan at hand was accepted.  The exact
product of a shape decides as two checked products of machine words do.
-/

namespace InterleavedCrc

theorem exists_of_bind_eq_ok {ε α β : Type} {x : Except ε α} {f : α → Except ε β} {b : β}
    (h : x >>= f = .ok b) : ∃ a, x = .ok a ∧ f a = .ok b := by
  cases x with
  | error error => cases h
  | ok a => exact ⟨a, rfl, h⟩

/-- What an accepted level may be relied on for. -/
structure Level.Valid (level : Level) : Prop where
  words_pos : 0 < level.shape.words.toNat
  lanes_pos : 1 ≤ level.shape.lanes.toNat
  lanes_le : level.shape.lanes.toNat ≤ maxLanes.toNat
  laneBytes_eq : level.laneBytes.toNat = wordBytes * level.shape.words.toNat
  blockBytes_eq : level.blockBytes.toNat = level.shape.lanes.toNat * level.laneBytes.toNat
  pastLane_eq : level.pastLane = ZeroExtension.ofLength level.laneBytes.toNat

namespace Level

theorem valid_ofShape {shape : Shape} (h : shape.Fits) : (ofShape shape).Valid := by
  obtain ⟨hwords, hlanes, hmax, hsize⟩ := h
  have hlane : shape.words.toNat * wordBytes < UInt64.size :=
    Nat.lt_of_le_of_lt (Nat.le_mul_of_pos_right _ hlanes) hsize
  have hlaneBytes : (ofShape shape).laneBytes.toNat = shape.words.toNat * wordBytes := by
    change (shape.words * UInt64.ofNat wordBytes).toNat = _
    rw [UInt64.toNat_mul]
    exact Nat.mod_eq_of_lt hlane
  have hblockBytes : (ofShape shape).blockBytes.toNat
      = (ofShape shape).laneBytes.toNat * shape.lanes.toNat := by
    change ((ofShape shape).laneBytes * shape.lanes).toNat = _
    rw [UInt64.toNat_mul]
    apply Nat.mod_eq_of_lt
    rw [hlaneBytes]
    exact hsize
  exact
    { words_pos := hwords
      lanes_pos := hlanes
      lanes_le := hmax
      laneBytes_eq := hlaneBytes.trans (Nat.mul_comm _ _)
      blockBytes_eq := hblockBytes.trans (Nat.mul_comm _ _)
      pastLane_eq := rfl }

theorem valid_of_make {depth : Nat} {shape : Shape} {level : Level}
    (h : make depth shape = .ok level) : level.Valid := by
  obtain ⟨hfits, rfl⟩ := make_eq_ok_iff.1 h
  exact valid_ofShape hfits

namespace Valid

variable {level : Level}

theorem laneBytes_pos (h : level.Valid) : 0 < level.laneBytes.toNat := by
  rw [h.laneBytes_eq]
  exact Nat.mul_pos (by decide) h.words_pos

theorem wordBytes_dvd_laneBytes (h : level.Valid) : wordBytes ∣ level.laneBytes.toNat :=
  ⟨_, h.laneBytes_eq⟩

theorem lanes_between (h : level.Valid) :
    1 ≤ level.shape.lanes ∧ level.shape.lanes ≤ maxLanes :=
  ⟨UInt64.le_iff_toNat_le.2 h.lanes_pos, UInt64.le_iff_toNat_le.2 h.lanes_le⟩

end Valid

end Level

/-! ## Sizes in checked steps -/

/-- The product of two machine words, if that is a machine word. -/
def checkedMul (a b : UInt64) : Option UInt64 :=
  if a.toNat * b.toNat < UInt64.size then some (a * b) else none

/-- The bytes of a lane and of a block, each product checked as it is formed. -/
def Shape.checkedSizes (shape : Shape) : Option (UInt64 × UInt64) := do
  let laneBytes ← checkedMul shape.words (UInt64.ofNat wordBytes)
  let blockBytes ← checkedMul laneBytes shape.lanes
  return (laneBytes, blockBytes)

/-- A first product that is too large stays so when there are lanes to multiply it by. -/
theorem Shape.checkedSizes_eq {shape : Shape} (hlanes : shape.lanes ≠ 0) :
    shape.checkedSizes
      = if UInt64.size ≤ shape.words.toNat * wordBytes * shape.lanes.toNat then none
        else some ((Level.ofShape shape).laneBytes, (Level.ofShape shape).blockBytes) := by
  have hpos : 0 < shape.lanes.toNat := by
    rw [Nat.pos_iff_ne_zero]
    exact fun h ↦ hlanes (UInt64.toNat_inj.1 h)
  have hword : (UInt64.ofNat wordBytes).toNat = wordBytes := rfl
  have hle := Nat.le_mul_of_pos_right (shape.words.toNat * wordBytes) hpos
  rw [checkedSizes, checkedMul, hword]
  by_cases hlane : shape.words.toNat * wordBytes < UInt64.size
  · have hproduct : (shape.words * UInt64.ofNat wordBytes).toNat
        = shape.words.toNat * wordBytes := by
      rw [UInt64.toNat_mul]
      exact Nat.mod_eq_of_lt hlane
    rw [if_pos hlane, Option.bind_eq_bind, Option.bind_some, checkedMul, hproduct]
    by_cases hblock : shape.words.toNat * wordBytes * shape.lanes.toNat < UInt64.size
    · rw [if_pos hblock, if_neg (Nat.not_le.2 hblock)]
      rfl
    · rw [if_neg hblock, if_pos (Nat.not_lt.1 hblock)]
      rfl
  · rw [if_neg hlane, if_pos (Nat.le_trans (Nat.not_lt.1 hlane) hle)]
    rfl

/-- The exact product decides as two checked ones do. -/
theorem Level.make_eq_checked (depth : Nat) (shape : Shape) :
    make depth shape
      = if shape.lanes = 0 ∨ maxLanes < shape.lanes then .error (.laneCount depth shape.lanes)
        else match shape.checkedSizes with
          | none => .error (.chunkTooLarge depth shape.words)
          | some (laneBytes, blockBytes) =>
              if shape.words = 0 then .error (.belowTerminal depth)
              else .ok ⟨shape, laneBytes, blockBytes, .ofLength laneBytes.toNat⟩ := by
  rw [make]
  by_cases hlanes : shape.lanes = 0 ∨ maxLanes < shape.lanes
  · rw [if_pos hlanes, if_pos hlanes]
  · rw [if_neg hlanes, if_neg hlanes, Shape.checkedSizes_eq (not_or.1 hlanes).1]
    split
    · rfl
    · rfl

namespace Plan

theorem levelsAfterEnd_eq_nil {depth : Nat} {shapes : List Shape} {levels : List Level}
    (h : levelsAfterEnd depth shapes = .ok levels) : levels = [] := by
  induction shapes generalizing depth with
  | nil => exact (Except.ok.inj h).symm
  | cons shape rest ih =>
      rw [levelsAfterEnd] at h
      split at h
      · exact ih h
      · cases h

/-- One more level inside the others: everything that its acceptance says. -/
theorem levelsFrom_cons_ok {depth : Nat} {outer : Option UInt64} {shape : Shape}
    {rest : List Shape} {levels : List Level}
    (h : levelsFrom depth outer (shape :: rest) = .ok levels) :
    (shape.words = 0 ∧ levels = []) ∨
      (depth ≠ maxDepth ∧ checkDecreasing depth outer shape.words = .ok () ∧
        ∃ level inner, Level.make depth shape = .ok level ∧
          levelsFrom (depth + 1) (some shape.words) rest = .ok inner ∧
            levels = level :: inner) := by
  rw [levelsFrom] at h
  split at h
  · rename_i hwords
    exact Or.inl ⟨hwords, levelsAfterEnd_eq_nil h⟩
  · split at h
    · cases h
    · rename_i hdepth
      obtain ⟨_, hdec, h⟩ := exists_of_bind_eq_ok h
      obtain ⟨level, hmake, h⟩ := exists_of_bind_eq_ok h
      obtain ⟨inner, hinner, h⟩ := exists_of_bind_eq_ok h
      refine Or.inr ⟨hdepth, hdec, level, inner, hmake, hinner, ?_⟩
      exact (Except.ok.inj h).symm

theorem valid_of_levelsFrom {depth : Nat} {outer : Option UInt64} {shapes : List Shape}
    {levels : List Level} (h : levelsFrom depth outer shapes = .ok levels) :
    ∀ level ∈ levels, level.Valid := by
  induction shapes generalizing depth outer levels with
  | nil =>
      cases h
      simp
  | cons shape rest ih =>
      rcases levelsFrom_cons_ok h with ⟨_, rfl⟩ | ⟨_, _, first, inner, hmake, hinner, rfl⟩
      · simp
      · intro level hlevel
        rcases List.mem_cons.1 hlevel with rfl | hlevel
        · exact Level.valid_of_make hmake
        · exact ih hinner level hlevel

theorem valid_of_ofShapes {shapes : List Shape} {plan : Plan} (h : ofShapes shapes = .ok plan) :
    ∀ level ∈ plan.levels, level.Valid := by
  rw [ofShapes] at h
  cases hlevels : levelsFrom 0 none shapes with
  | error error => rw [hlevels] at h; cases h
  | ok levels =>
      rw [hlevels] at h
      cases h
      exact valid_of_levelsFrom hlevels

theorem valid_of_build {construction : Construction} {plan : Plan}
    (h : construction.build = .ok plan) : ∀ level ∈ plan.levels, level.Valid := by
  cases construction with
  | sequential =>
      cases h
      simp
  | standard => exact valid_of_ofShapes (ofChunks_standard.trans h)
  | chunks words => exact valid_of_ofShapes h
  | draft shapes => exact valid_of_ofShapes h
  | enclose words inner =>
      rw [Construction.build] at h
      obtain ⟨inside, _, hencloses⟩ := exists_of_bind_eq_ok h
      exact valid_of_ofShapes hencloses

theorem Obtainable.valid {plan : Plan} (h : plan.Obtainable) :
    ∀ level ∈ plan.levels, level.Valid := by
  obtain ⟨construction, hbuild⟩ := h
  exact valid_of_build hbuild

end Plan

end InterleavedCrc
