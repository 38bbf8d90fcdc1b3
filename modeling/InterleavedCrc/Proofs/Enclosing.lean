import InterleavedCrc.Proofs.AnyPlan
import InterleavedCrc.Proofs.Constructors
import InterleavedCrc.Proofs.Rejection

/-!
# Plans put inside a level

Enclosing a plan checks all its levels again, one deeper than before.  They were accepted, so
at most the room for the last of them is missing (`Plan.levelsFrom_of_chain`).  Whatever else
is wrong is wrong with the new level, or with the lane that it leaves to the outermost one.
-/

namespace InterleavedCrc.Plan

theorem levelsFrom_cons_of_fits {depth : ℕ} {outer : Option UInt64} {shape : Shape}
    {rest : List Shape} (hfits : shape.Fits) (hinside : ∀ bound ∈ outer, shape.words < bound) :
    levelsFrom depth outer (shape :: rest)
      = if depth = maxDepth then .error (.tooDeep (depth + 1))
        else (levelsFrom (depth + 1) (some shape.words) rest).map (Level.ofShape shape :: ·) := by
  have hdec : checkDecreasing depth outer shape.words = .ok () :=
    checkDecreasing_eq_ok_iff.2 hinside
  have hmake : Level.make depth shape = .ok (Level.ofShape shape) :=
    Level.make_eq_ok_iff.2 ⟨hfits, rfl⟩
  rw [levelsFrom, if_neg hfits.words_ne_zero, hdec, hmake]
  rfl

/-- Accepted once, a chain is accepted again at any depth that leaves room for it. -/
theorem levelsFrom_of_chain {depth depth' : ℕ} {outer : Option UInt64} {shapes : List Shape}
    (h : Chain depth outer shapes shapes.length) (hdepth : depth' ≤ maxDepth) :
    levelsFrom depth' outer shapes
      = if depth' + shapes.length ≤ maxDepth then .ok (shapes.map Level.ofShape)
        else .error (.tooDeep (maxDepth + 1)) := by
  induction shapes generalizing depth depth' outer with
  | nil => simp [levelsFrom, hdepth]
  | cons shape rest ih =>
      obtain ⟨hfits, hinside, hrest⟩ := chain_succ_iff.1 h
      rw [levelsFrom_cons_of_fits hfits hinside]
      by_cases hfull : depth' = maxDepth
      · have hroom : ¬ depth' + (shape :: rest).length ≤ maxDepth := by
          simp only [List.length_cons]
          omega
        rw [if_pos hfull, if_neg hroom, hfull]
      · have hroom : depth' + 1 + rest.length = depth' + (shape :: rest).length := by
          simp only [List.length_cons]
          omega
        rw [if_neg hfull, ih hrest (by omega), hroom]
        split <;> rfl

/-- The words of the outermost lane, zero if there is none. -/
def outermostWords (shapes : List Shape) : UInt64 := (shapes.head?.map Shape.words).getD 0

/-- Inside a lane of `words` words, an outermost chain is accepted too if it is shorter. -/
theorem levelsFrom_inside_of_chain {depth depth' : ℕ} {shapes : List Shape}
    (h : Chain depth none shapes shapes.length) (hdepth : depth' < maxDepth) (words : UInt64) :
    levelsFrom depth' (some words) shapes
      = if 0 < shapes.length ∧ words ≤ outermostWords shapes then
          .error (.notDecreasing depth' words (outermostWords shapes))
        else if depth' + shapes.length ≤ maxDepth then .ok (shapes.map Level.ofShape)
        else .error (.tooDeep (maxDepth + 1)) := by
  cases shapes with
  | nil => simp [levelsFrom, hdepth.le]
  | cons first rest =>
      obtain ⟨hfits, -, hrest⟩ := chain_succ_iff.1 h
      have houtermost : outermostWords (first :: rest) = first.words := rfl
      rw [houtermost]
      by_cases hle : words ≤ first.words
      · rw [if_pos ⟨Nat.succ_pos _, hle⟩, levelsFrom, if_neg hfits.words_ne_zero,
          if_neg hdepth.ne, checkDecreasing, if_pos hle]
        rfl
      · have hshorter : ∀ bound ∈ some words, first.words < bound := by
          rintro bound hbound
          cases hbound
          exact UInt64.not_le.1 hle
        have hchain : Chain depth (some words) (first :: rest) (first :: rest).length :=
          chain_succ_iff.2 ⟨hfits, hshorter, hrest⟩
        rw [if_neg fun hcause ↦ hle hcause.2]
        exact levelsFrom_of_chain hchain hdepth.le

/-! ## The new level -/

theorem enclose_zero {shapes : List Shape} (h : Chain 0 none shapes shapes.length) :
    enclose 0 ⟨shapes.map Level.ofShape⟩
      = if shapes.length = 0 then .ok sequential else .error (.belowTerminal 1) := by
  rw [enclose, shapes_mk_map_ofShape]
  cases shapes with
  | nil => rfl
  | cons first rest =>
      obtain ⟨hfits, -, -⟩ := chain_succ_iff.1 h
      have hended : levelsFrom 0 none (defaultShape 0 :: first :: rest)
          = levelsAfterEnd 1 (first :: rest) := rfl
      rw [ofShapes, hended, levelsAfterEnd, if_neg hfits.words_ne_zero]
      rfl

theorem enclose_of_too_large {words : UInt64} (hwords : words ≠ 0)
    (hsize : 2 ^ 64 - 1 < words.toNat * 24) (inner : Plan) :
    enclose words inner = .error (.chunkTooLarge 0 words) := by
  have hlanes : ¬ (defaultLanes = 0 ∨ 8 < defaultLanes) := by decide
  have hlarge : 2 ^ 64 - 1 < words.toNat * 8 * defaultLanes.toNat := by
    rw [Nat.mul_assoc]
    exact hsize
  have hcause : levelCause? 0 (defaultShape words) = some (.chunkTooLarge 0 words) :=
    (if_neg hlanes).trans (if_pos hlarge)
  have hshape : (defaultShape words).words ≠ 0 := hwords
  have hmake : Level.make 0 (defaultShape words) = .error (.chunkTooLarge 0 words) :=
    (make_eq_error_iff hshape).2 hcause
  rw [enclose, ofShapes, levelsFrom, if_neg hshape, if_neg (by decide), hmake]
  rfl

theorem fits_defaultShape {words : UInt64} (hwords : words ≠ 0)
    (hsize : words.toNat * 24 ≤ 2 ^ 64 - 1) : (defaultShape words).Fits := by
  have hpos : words.toNat ≠ 0 := fun hzero ↦ hwords (UInt64.toNat_inj.1 hzero)
  have hlanes : 1 ≤ defaultLanes.toNat ∧ defaultLanes.toNat ≤ maxLanes.toNat := by decide
  refine ⟨Nat.pos_of_ne_zero hpos, hlanes.1, hlanes.2, ?_⟩
  change words.toNat * 8 * 3 < 2 ^ 64
  omega

theorem enclose_of_fits {words : UInt64} (hfits : (defaultShape words).Fits) (inner : Plan) :
    enclose words inner
      = (levelsFrom 1 (some words) inner.shapes).map fun levels ↦
          ⟨Level.ofShape ⟨words, 3⟩ :: levels⟩ := by
  rw [enclose, ofShapes, levelsFrom_cons_of_fits hfits (by simp), if_neg (by decide)]
  change ((levelsFrom 1 (some words) inner.shapes).map _).map _ = _
  cases levelsFrom 1 (some words) inner.shapes <;> rfl

/-- Which plan or which error comes of it, the first cause deciding. -/
theorem enclosing_is_decided {inner : Plan} (hinner : inner.Obtainable) (words : UInt64) :
    enclose words inner =
      if words = 0 then
        if inner.depth = 0 then .ok sequential else .error (.belowTerminal 1)
      else if 2 ^ 64 - 1 < words.toNat * 24 then .error (.chunkTooLarge 0 words)
      else if 0 < inner.depth ∧ words ≤ outermostWords inner.shapes then
        .error (.notDecreasing 1 words (outermostWords inner.shapes))
      else if inner.depth = 8 then .error (.tooDeep 9)
      else .ok ⟨Level.ofShape ⟨words, 3⟩ :: inner.levels⟩ := by
  obtain ⟨shapes, hchain, rfl⟩ := hinner.exists_chain
  rw [shapes_mk_map_ofShape, depth_mk, List.length_map]
  by_cases hwords : words = 0
  · rw [if_pos hwords, hwords]
    exact enclose_zero hchain
  · rw [if_neg hwords]
    by_cases hsize : 2 ^ 64 - 1 < words.toNat * 24
    · rw [if_pos hsize]
      exact enclose_of_too_large hwords hsize _
    · have hfits : (defaultShape words).Fits :=
        fits_defaultShape hwords (Nat.le_of_not_lt hsize)
      rw [if_neg hsize, enclose_of_fits hfits, shapes_mk_map_ofShape,
        levelsFrom_inside_of_chain hchain (by decide)]
      by_cases hle : 0 < shapes.length ∧ words ≤ outermostWords shapes
      · rw [if_pos hle, if_pos hle]
        rfl
      · have hroom : 1 + shapes.length ≤ maxDepth ↔ ¬ shapes.length = 8 := by
          have hdepth := hchain.depth_le
          unfold maxDepth at hdepth ⊢
          omega
        rw [if_neg hle, if_neg hle]
        by_cases hfull : shapes.length = 8
        · rw [if_neg (mt hroom.1 (not_not_intro hfull)), if_pos hfull]
          rfl
        · rw [if_pos (hroom.2 hfull), if_neg hfull]
          rfl

/-- Two lanes on each level, of eight words down to one. -/
def eightLevels : Plan :=
  ⟨([8, 7, 6, 5, 4, 3, 2, 1] : List UInt64).map fun words ↦ Level.ofShape ⟨words, 2⟩⟩

/-- A lane that is too short is told before the levels are counted. -/
theorem enclosing_eightLevels :
    eightLevels.Obtainable ∧ nestedPlan.Obtainable ∧
      enclose 9 eightLevels = .error (.tooDeep 9) ∧
      enclose 8 eightLevels = .error (.notDecreasing 1 8 8) ∧
      enclose 0xFFFFFFFFFFFFFFF eightLevels = .error (.chunkTooLarge 0 0xFFFFFFFFFFFFFFF) ∧
      enclose 0 eightLevels = .error (.belowTerminal 1) ∧
      enclose 3 nestedPlan = .ok ⟨Level.ofShape ⟨3, 3⟩ :: nestedPlan.levels⟩ := by
  have hplan : eightLevels.Obtainable := by
    refine ⟨.draft ⟨([8, 7, 6, 5, 4, 3, 2, 1] : List UInt64).map fun words ↦ ⟨words, 2⟩⟩, rfl⟩
  have hdecided := enclosing_is_decided hplan
  refine ⟨hplan, obtainable_nestedPlan, ?_, ?_, ?_, ?_, ?_⟩
  · exact (hdecided 9).trans rfl
  · exact (hdecided 8).trans rfl
  · exact (hdecided 0xFFFFFFFFFFFFFFF).trans rfl
  · exact (hdecided 0).trans rfl
  · exact (enclosing_is_decided obtainable_nestedPlan 3).trans rfl

end InterleavedCrc.Plan
