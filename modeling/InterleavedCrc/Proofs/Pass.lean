import InterleavedCrc.Proofs.Acceptance

/-!
# One pass over the shapes

A plan can be checked in one pass that keeps the levels so far and whether the end of the
chain has been met (`Plan.ofShapes_eq_run`).  Until the pass refuses a shape, its state
tells nothing but which shapes it has read (`Plan.Pass.hasRead_of_run`).
-/

namespace InterleavedCrc.Plan

structure Pass where
  index : ℕ
  levels : List Level
  ended : Bool

namespace Pass

def start : Pass := ⟨0, [], false⟩

def skip (pass : Pass) : Pass := ⟨pass.index + 1, pass.levels, true⟩

def keep (pass : Pass) (level : Level) : Pass :=
  ⟨pass.index + 1, pass.levels ++ [level], false⟩

/-- The words of the innermost lane so far. -/
def innermost (pass : Pass) : Option UInt64 :=
  pass.levels.getLast?.map fun level ↦ level.shape.words

/-- The checks of the shape itself, once there is room for a level. -/
def place (pass : Pass) (shape : Shape) : Except PlanError Pass := do
  checkDecreasing pass.index pass.innermost shape.words
  let level ← Level.make pass.index shape
  return pass.keep level

def next (pass : Pass) (shape : Shape) : Except PlanError Pass :=
  if shape.words = 0 then .ok pass.skip
  else if pass.ended then .error (.belowTerminal pass.index)
  else if pass.levels.length = maxDepth then .error (.tooDeep (pass.index + 1))
  else pass.place shape

def run (pass : Pass) (shapes : List Shape) : Except PlanError Pass := shapes.foldlM next pass

@[simp] theorem innermost_keep (pass : Pass) (level : Level) :
    (pass.keep level).innermost = some level.shape.words := by
  simp [innermost, keep]

theorem run_cons (pass : Pass) (shape : Shape) (rest : List Shape) :
    pass.run (shape :: rest) = pass.next shape >>= fun after ↦ after.run rest := rfl

theorem run_append (pass : Pass) (before later : List Shape) :
    pass.run (before ++ later) = pass.run before >>= fun after ↦ after.run later :=
  List.foldlM_append

theorem next_of_words_eq_zero (pass : Pass) {shape : Shape} (h : shape.words = 0) :
    pass.next shape = .ok pass.skip := by
  rw [next, if_pos h]

theorem next_of_ended {pass : Pass} (hended : pass.ended = true) {shape : Shape}
    (h : shape.words ≠ 0) : pass.next shape = .error (.belowTerminal pass.index) := by
  rw [next, if_neg h, if_pos hended]

theorem next_of_open {pass : Pass} (hended : pass.ended = false) {shape : Shape}
    (h : shape.words ≠ 0) :
    pass.next shape = if pass.levels.length = maxDepth then .error (.tooDeep (pass.index + 1))
      else pass.place shape := by
  rw [next, if_neg h, hended, if_neg Bool.false_ne_true]

theorem eq_keep_of_place {pass after : Pass} {shape : Shape} (h : pass.place shape = .ok after) :
    after = pass.keep (Level.ofShape shape) := by
  obtain ⟨_, -, hlevel⟩ := exists_of_bind_eq_ok h
  obtain ⟨level, hmake, hkeep⟩ := exists_of_bind_eq_ok hlevel
  obtain ⟨-, rfl⟩ := Level.make_eq_ok_iff.1 hmake
  exact (Except.ok.inj hkeep).symm

/-! ## The pass makes the plan -/

theorem levels_run_of_ended {pass : Pass} (hended : pass.ended = true) (shapes : List Shape) :
    (pass.run shapes).map levels
      = (levelsAfterEnd pass.index shapes).map (pass.levels ++ ·) := by
  induction shapes generalizing pass with
  | nil => simp [run, pure, Except.pure, levelsAfterEnd, Except.map]
  | cons shape rest ih =>
      rw [run_cons, levelsAfterEnd]
      by_cases hwords : shape.words = 0
      · rw [next_of_words_eq_zero pass hwords, if_pos hwords]
        exact ih rfl
      · rw [next_of_ended hended hwords, if_neg hwords]
        rfl

/-- As long as the chain has not ended, the depth is the number of levels kept. -/
theorem levels_run {pass : Pass} (hended : pass.ended = false)
    (hindex : pass.index = pass.levels.length) (shapes : List Shape) :
    (pass.run shapes).map levels
      = (levelsFrom pass.index pass.innermost shapes).map (pass.levels ++ ·) := by
  induction shapes generalizing pass with
  | nil => simp [run, pure, Except.pure, levelsFrom, Except.map]
  | cons shape rest ih =>
      rw [run_cons, levelsFrom]
      by_cases hwords : shape.words = 0
      · rw [next_of_words_eq_zero pass hwords, if_pos hwords]
        exact levels_run_of_ended rfl rest
      · rw [next_of_open hended hwords, if_neg hwords, ← hindex]
        by_cases hdepth : pass.index = maxDepth
        · rw [if_pos hdepth, if_pos hdepth]
          rfl
        · rw [if_neg hdepth, if_neg hdepth, place]
          cases hdec : checkDecreasing pass.index pass.innermost shape.words with
          | error error => rfl
          | ok _ =>
              cases hmake : Level.make pass.index shape with
              | error error => rfl
              | ok level =>
                  obtain ⟨-, rfl⟩ := Level.make_eq_ok_iff.1 hmake
                  have hkeep : ((pass.keep (Level.ofShape shape)).run rest).map levels
                      = (levelsFrom (pass.index + 1) (some shape.words) rest).map
                          (pass.levels ++ [Level.ofShape shape] ++ ·) := by
                    have hlength : pass.index + 1
                        = (pass.levels ++ [Level.ofShape shape]).length := by simp [hindex]
                    have hrest := ih (show (pass.keep (Level.ofShape shape)).ended = false from rfl)
                      hlength
                    rwa [innermost_keep] at hrest
                  refine hkeep.trans ?_
                  cases levelsFrom (pass.index + 1) (some shape.words) rest with
                  | error error => rfl
                  | ok inner => simp [Except.map, bind, Except.bind, pure, Except.pure]

end Pass

theorem ofShapes_eq_run (shapes : List Shape) :
    ofShapes shapes = (Pass.start.run shapes).map fun pass ↦ ⟨pass.levels⟩ := by
  have hlevels : (Pass.start.run shapes).map Pass.levels
      = (levelsFrom 0 none shapes).map ([] ++ ·) := Pass.levels_run rfl rfl shapes
  calc ofShapes shapes = ((levelsFrom 0 none shapes).map ([] ++ ·)).map Plan.mk := by
        rw [ofShapes]
        cases levelsFrom 0 none shapes <;> rfl
    _ = ((Pass.start.run shapes).map Pass.levels).map Plan.mk := by rw [hlevels]
    _ = (Pass.start.run shapes).map fun pass ↦ ⟨pass.levels⟩ := by
        cases Pass.start.run shapes <;> rfl

theorem ofShapes_eq_error_iff {shapes : List Shape} {error : PlanError} :
    ofShapes shapes = .error error ↔ Pass.start.run shapes = .error error := by
  rw [ofShapes_eq_run]
  cases Pass.start.run shapes <;> simp [Except.map]

theorem exists_ofShapes_iff_exists_run {shapes : List Shape} :
    (∃ plan, ofShapes shapes = .ok plan) ↔ ∃ pass, Pass.start.run shapes = .ok pass := by
  rw [ofShapes_eq_run]
  cases Pass.start.run shapes <;> simp [Except.map]

/-! ## What the pass has read -/

namespace Pass

/-- Everything that one step can do. -/
theorem cases_of_next {pass after : Pass} {shape : Shape} (h : pass.next shape = .ok after) :
    (shape.words = 0 ∧ after = pass.skip) ∨
      (shape.words ≠ 0 ∧ pass.ended = false ∧ after = pass.keep (Level.ofShape shape)) := by
  by_cases hwords : shape.words = 0
  · rw [next_of_words_eq_zero pass hwords] at h
    exact Or.inl ⟨hwords, (Except.ok.inj h).symm⟩
  · cases hended : pass.ended with
    | true =>
        rw [next_of_ended hended hwords] at h
        cases h
    | false =>
        rw [next_of_open hended hwords] at h
        split at h
        · cases h
        · exact Or.inr ⟨hwords, rfl, eq_keep_of_place h⟩

structure HasRead (pass : Pass) (before : List Shape) : Prop where
  index_eq : pass.index = before.length
  ended_iff : pass.ended = true ↔ ∃ shape ∈ before, shape.words = 0
  shapes_eq : pass.ended = false → pass.levels.map Level.shape = before

theorem hasRead_start : start.HasRead [] := ⟨rfl, by simp [start], fun _ ↦ rfl⟩

theorem HasRead.next {pass after : Pass} {before : List Shape} {shape : Shape}
    (hread : pass.HasRead before) (h : pass.next shape = .ok after) :
    after.HasRead (before ++ [shape]) := by
  obtain ⟨hindex, hended, hshapes⟩ := hread
  rcases cases_of_next h with ⟨hwords, rfl⟩ | ⟨hwords, hopen, rfl⟩
  · exact ⟨by simp [skip, hindex], by simp [skip, hwords], by simp [skip]⟩
  · have hnone : ¬ ∃ shape ∈ before, shape.words = 0 := by
      rw [← hended, hopen]
      exact Bool.false_ne_true
    refine ⟨by simp [keep, hindex], ?_, fun _ ↦ by simp [keep, hshapes hopen]⟩
    simp only [keep, List.mem_append, List.mem_singleton, or_and_right, exists_or, exists_eq_left, hnone,
      hwords, or_self, Bool.false_eq_true]

theorem hasRead_of_run {pass : Pass} {before : List Shape} (h : start.run before = .ok pass) :
    pass.HasRead before := by
  -- From the end, since what has been read grows there.
  induction before using List.reverseRecOn generalizing pass with
  | nil =>
      cases h
      exact hasRead_start
  | append_singleton before shape ih =>
      rw [run_append] at h
      obtain ⟨middle, hmiddle, hlast⟩ := exists_of_bind_eq_ok h
      obtain ⟨last, hnext, hdone⟩ := exists_of_bind_eq_ok hlast
      cases hdone
      exact (ih hmiddle).next hnext

end Pass

end InterleavedCrc.Plan
