import InterleavedCrc.Proofs.Pass

/-!
# Rejected lists of shapes

A list of shapes is rejected for the first shape in it that may not follow those before.
That shape and they decide the error, by the first cause that applies to it
(`Plan.cause?`), whatever stands behind.
-/

namespace InterleavedCrc.Plan

/-- Why no level has this shape, if it has a word. -/
def levelCause? (index : ℕ) (shape : Shape) : Option PlanError :=
  if shape.lanes = 0 ∨ 8 < shape.lanes then some (.laneCount index shape.lanes)
  else if 2 ^ 64 - 1 < shape.words.toNat * 8 * shape.lanes.toNat then
    some (.chunkTooLarge index shape.words)
  else none

/-- Why `shape` may not follow the accepted shapes `before`. -/
def cause? (before : List Shape) (shape : Shape) : Option PlanError :=
  let outer := (before.getLast?.map Shape.words).getD 0
  if shape.words = 0 then none
  else if ∃ earlier ∈ before, earlier.words = 0 then some (.belowTerminal before.length)
  else if before.length = 8 then some (.tooDeep 9)
  else if 0 < before.length ∧ outer ≤ shape.words then
    some (.notDecreasing before.length outer shape.words)
  else levelCause? before.length shape

theorem make_eq_error_iff {index : ℕ} {shape : Shape} {error : PlanError}
    (hwords : shape.words ≠ 0) :
    Level.make index shape = .error error ↔ levelCause? index shape = some error := by
  have hsize : UInt64.size ≤ shape.words.toNat * wordBytes * shape.lanes.toNat ↔
      2 ^ 64 - 1 < shape.words.toNat * 8 * shape.lanes.toNat := by
    have hle : UInt64.size = 2 ^ 64 - 1 + 1 := rfl
    rw [hle, Nat.succ_le_iff]
    rfl
  rw [Level.make, levelCause?]
  simp only [hsize, hwords, if_false, maxLanes]
  split
  · simp
  · split <;> simp

namespace Pass

theorem place_eq_error_iff {pass : Pass} {before : List Shape}
    (hindex : pass.index = before.length)
    (hinnermost : pass.innermost = before.getLast?.map Shape.words) {shape : Shape}
    (hwords : shape.words ≠ 0) {error : PlanError} :
    pass.place shape = .error error ↔
      (if 0 < before.length ∧ (before.getLast?.map Shape.words).getD 0 ≤ shape.words then
          some (.notDecreasing before.length ((before.getLast?.map Shape.words).getD 0) shape.words)
        else levelCause? before.length shape) = some error := by
  have hmake : (do
        let level ← Level.make before.length shape
        return pass.keep level) = .error error ↔
      levelCause? before.length shape = some error := by
    rw [← make_eq_error_iff hwords]
    cases Level.make before.length shape <;> simp [bind, Except.bind, pure, Except.pure]
  rw [place, hindex, hinnermost]
  rcases before.eq_nil_or_concat with rfl | ⟨outside, last, rfl⟩
  -- The outermost lane has none to be shorter than.
  · exact hmake
  · by_cases hle : last.words ≤ shape.words
    · simp [checkDecreasing, hle, bind, Except.bind]
    · simpa [checkDecreasing, hle, bind, Except.bind] using hmake

theorem HasRead.next_eq_error_iff {pass : Pass} {before : List Shape} (h : pass.HasRead before)
    {shape : Shape} {error : PlanError} :
    pass.next shape = .error error ↔ cause? before shape = some error := by
  rw [cause?]
  by_cases hwords : shape.words = 0
  · simp [next_of_words_eq_zero pass hwords, hwords]
  · rw [if_neg hwords]
    cases hended : pass.ended with
    | true =>
        rw [next_of_ended hended hwords, if_pos (h.ended_iff.1 hended), h.index_eq]
        simp
    | false =>
        -- While the chain goes on, the levels kept are those of all shapes before.
        have hshapes := h.shapes_eq hended
        have hlength : pass.levels.length = before.length := by rw [← hshapes, List.length_map]
        have hinnermost : pass.innermost = before.getLast?.map Shape.words := by
          rw [← hshapes, List.getLast?_map, Option.map_map]
          rfl
        have hopen : ¬ ∃ earlier ∈ before, earlier.words = 0 := by simp [← h.ended_iff, hended]
        rw [next_of_open hended hwords, if_neg hopen, hlength, h.index_eq, maxDepth]
        by_cases hdepth : before.length = 8
        · simp [hdepth]
        · rw [if_neg hdepth, if_neg hdepth]
          exact place_eq_error_iff h.index_eq hinnermost hwords

end Pass

/-! ## The first offence -/

theorem exists_of_run_eq_error {pass : Pass} {shapes : List Shape} {error : PlanError}
    (h : pass.run shapes = .error error) :
    ∃ before shape later middle, shapes = before ++ shape :: later ∧
      pass.run before = .ok middle ∧ middle.next shape = .error error := by
  induction shapes generalizing pass with
  | nil => cases h
  | cons shape rest ih =>
      rw [Pass.run_cons] at h
      cases hnext : pass.next shape with
      | error other =>
          rw [hnext] at h
          cases h
          exact ⟨[], shape, rest, pass, rfl, rfl, hnext⟩
      | ok after =>
          rw [hnext] at h
          obtain ⟨before, last, later, middle, rfl, hbefore, hlast⟩ := ih h
          refine ⟨shape :: before, last, later, middle, rfl, ?_, hlast⟩
          rw [Pass.run_cons, hnext]
          exact hbefore

theorem ofShapes_append_eq_error {before : List Shape} {error : PlanError}
    (h : ofShapes before = .error error) (later : List Shape) :
    ofShapes (before ++ later) = .error error := by
  rw [ofShapes_eq_error_iff] at h ⊢
  rw [Pass.run_append, h]
  rfl

/-- Shapes are rejected exactly for one that may not follow accepted ones. -/
theorem ofShapes_eq_error_iff_cause {shapes : List Shape} {error : PlanError} :
    ofShapes shapes = .error error ↔
      ∃ before shape later, shapes = before ++ shape :: later ∧
        (∃ plan, ofShapes before = .ok plan) ∧ cause? before shape = some error := by
  constructor
  · intro h
    obtain ⟨before, shape, later, middle, rfl, hbefore, hnext⟩ :=
      exists_of_run_eq_error (ofShapes_eq_error_iff.1 h)
    have hcause := (Pass.hasRead_of_run hbefore).next_eq_error_iff.1 hnext
    exact ⟨before, shape, later, rfl, exists_ofShapes_iff_exists_run.2 ⟨middle, hbefore⟩, hcause⟩
  · rintro ⟨before, shape, later, rfl, haccepted, hcause⟩
    obtain ⟨middle, hbefore⟩ := exists_ofShapes_iff_exists_run.1 haccepted
    have hnext := (Pass.hasRead_of_run hbefore).next_eq_error_iff.2 hcause
    rw [ofShapes_eq_error_iff, Pass.run_append, hbefore]
    change middle.run (shape :: later) = .error error
    rw [Pass.run_cons, hnext]
    rfl

theorem words_ne_zero_of_cause {before : List Shape} {shape : Shape} {error : PlanError}
    (h : cause? before shape = some error) : shape.words ≠ 0 := by
  intro hwords
  simp [cause?, hwords] at h

/-- What a draft builds to which these shapes were added one by one. -/
def built (shapes : List Shape) : Except PlanError Plan := (shapes.foldl Draft.add .empty).build

theorem built_eq (shapes : List Shape) : built shapes = ofShapes shapes := by
  rw [built, foldl_add]
  rfl

/-- The shapes before index `i` are accepted, and no longer with the one at `i`. -/
structure FirstOffence (shapes : List Shape) (i : ℕ) : Prop where
  accepted : ∃ plan, built (shapes.take i) = .ok plan
  rejected : ∃ error, built (shapes.take (i + 1)) = .error error

theorem FirstOffence.not_lt {shapes : List Shape} {i j : ℕ} (hi : FirstOffence shapes i)
    (hj : FirstOffence shapes j) : ¬ i < j := by
  intro hlt
  obtain ⟨error, herror⟩ := hi.rejected
  obtain ⟨plan, hplan⟩ := hj.accepted
  obtain ⟨later, hlater⟩ : shapes.take (i + 1) <+: shapes.take j := List.take_prefix_take_left hlt
  rw [built_eq] at herror hplan
  rw [← hlater, ofShapes_append_eq_error herror] at hplan
  cases hplan

/-- The error of a rejected list is that of its one first offence, found among the shapes
up to it, and stays whatever is added behind. -/
theorem first_offence_decides {shapes : List Shape} {error : PlanError}
    (h : built shapes = .error error) :
    ∃ i, ∃ hi : i < shapes.length,
      (∀ j, FirstOffence shapes j ↔ j = i) ∧
      0 < shapes[i].words.toNat ∧
      cause? (shapes.take i) shapes[i] = some error ∧
      ∀ later, built (shapes.take (i + 1) ++ later) = .error error := by
  rw [built_eq] at h
  obtain ⟨before, shape, later, rfl, haccepted, hcause⟩ := ofShapes_eq_error_iff_cause.1 h
  have hbefore : (before ++ shape :: later).take before.length = before := List.take_left
  have hthrough : (before ++ shape :: later).take (before.length + 1) = before ++ [shape] := by
    simp [List.take_append]
  have hlt : before.length < (before ++ shape :: later).length := by simp
  have hat : (before ++ shape :: later)[before.length] = shape := by simp
  have hrejected : ofShapes (before ++ [shape]) = .error error :=
    ofShapes_eq_error_iff_cause.2 ⟨before, shape, [], rfl, haccepted, hcause⟩
  have hoffence : FirstOffence (before ++ shape :: later) before.length :=
    ⟨by rwa [hbefore, built_eq], error, by rwa [hthrough, built_eq]⟩
  refine ⟨before.length, hlt, fun j ↦ ⟨fun hj ↦ ?_, ?_⟩, ?_, ?_, fun others ↦ ?_⟩
  -- Of two first offences, the shapes up to one would stand before the other.
  · have hle : j ≤ before.length := Nat.le_of_not_lt (hoffence.not_lt hj)
    exact Nat.le_antisymm hle (Nat.le_of_not_lt (hj.not_lt hoffence))
  · rintro rfl
    exact hoffence
  · rw [hat, Nat.pos_iff_ne_zero]
    exact fun hzero ↦ words_ne_zero_of_cause hcause (UInt64.toNat_inj.1 hzero)
  · rw [hbefore, hat]
    exact hcause
  · rw [hthrough, built_eq]
    exact ofShapes_append_eq_error hrejected others

/-- The second lane is no shorter than the first, and there are nine of it; the last shape
stands below the end. -/
def severalOffences : List Shape := [⟨8, 3⟩, ⟨8, 9⟩, ⟨0, 0⟩, ⟨4, 1⟩]

theorem first_of_several_offences :
    built severalOffences = .error (.notDecreasing 1 8 8) ∧
      FirstOffence severalOffences 1 ∧
      ∀ later, built ([⟨8, 3⟩, ⟨8, 9⟩] ++ later) = .error (.notDecreasing 1 8 8) := by
  have hrejected : built severalOffences = .error (.notDecreasing 1 8 8) := rfl
  obtain ⟨i, -, hfirst, -, -, hlater⟩ := first_offence_decides hrejected
  have hoffence : FirstOffence severalOffences 1 := ⟨⟨_, rfl⟩, _, rfl⟩
  obtain rfl : 1 = i := (hfirst 1).1 hoffence
  exact ⟨hrejected, hoffence, hlater⟩

end InterleavedCrc.Plan
