import InterleavedCrc.Proofs.Rejection

/-!
# The entry that an error is about

The depth of an error counts the levels outside the rejected one, so it is the index of the
entry that made the list unacceptable.  Only the error about too many levels counts that
entry as well, as its text does, and is about the entry before its depth.
-/

namespace InterleavedCrc.Plan

/-- The entries before index `i` are accepted, and with the one at `i` they are rejected with
this error. -/
structure OffendsAt {α : Type} (check : List α → Except PlanError Plan) (entries : List α)
    (i : ℕ) (error : PlanError) : Prop where
  lt : i < entries.length
  accepted : ∃ plan, check (entries.take i) = .ok plan
  rejected : check (entries.take (i + 1)) = .error error

/-- Where the depth of an error points to. -/
structure TellsOffender {α : Type} (check : List α → Except PlanError Plan) (entries : List α)
    (error : PlanError) : Prop where
  at_depth : (∀ levels, error ≠ .tooDeep levels) → OffendsAt check entries error.depth error
  /-- The ninth level is the first of too many, and is counted in. -/
  before_depth : ∀ levels, error = .tooDeep levels →
    error.depth = 9 ∧ error.message = "plan depth 9 exceeds 8" ∧
      OffendsAt check entries (error.depth - 1) error

theorem depth_of_levelCause {index : ℕ} {shape : Shape} {error : PlanError}
    (h : levelCause? index shape = some error) :
    error.depth = index ∧ ∀ levels, error ≠ .tooDeep levels := by
  rw [levelCause?] at h
  split at h
  · cases h
    exact ⟨rfl, by simp⟩
  · split at h
    · cases h
      exact ⟨rfl, by simp⟩
    · cases h

theorem depth_of_cause {before : List Shape} {shape : Shape} {error : PlanError}
    (h : cause? before shape = some error) :
    (error.depth = before.length ∧ ∀ levels, error ≠ .tooDeep levels) ∨
      error = .tooDeep 9 ∧ before.length = 8 := by
  rw [cause?] at h
  split at h
  · cases h
  · split at h
    · cases h
      exact Or.inl ⟨rfl, by simp⟩
    · split at h
      -- The one cause that counts the shape in.
      · rename_i hdepth
        cases h
        exact Or.inr ⟨rfl, hdepth⟩
      · split at h
        · cases h
          exact Or.inl ⟨rfl, by simp⟩
        · exact Or.inl (depth_of_levelCause h)

section Entries

variable {α : Type} (shapeOf : α → Shape) {entries : List α} {error : PlanError}

/-- The entry offends that stands behind the accepted ones which decide the error. -/
theorem offendsAt_of_cause {before later : List Shape} {shape : Shape} {accepted : Plan}
    (hcut : entries.map shapeOf = before ++ shape :: later)
    (haccepted : ofShapes before = .ok accepted) (hcause : cause? before shape = some error) :
    OffendsAt (fun entries ↦ ofShapes (entries.map shapeOf)) entries before.length error := by
  have hbefore : (entries.take before.length).map shapeOf = before := by
    rw [List.map_take, hcut, List.take_left]
  have hthrough : (entries.take (before.length + 1)).map shapeOf = before ++ [shape] := by
    rw [List.map_take, hcut]
    simp [List.take_append]
  have hlength : entries.length = before.length + (later.length + 1) := by
    simpa using congrArg List.length hcut
  refine ⟨by omega, ⟨accepted, ?_⟩, ?_⟩
  · simpa only [hbefore] using haccepted
  · simp only [hthrough]
    exact ofShapes_eq_error_iff_cause.2 ⟨before, shape, [], rfl, ⟨accepted, haccepted⟩, hcause⟩

/-- However the entries are turned into shapes, the error of the shapes tells the entry. -/
theorem tellsOffender_of_error (h : ofShapes (entries.map shapeOf) = .error error) :
    TellsOffender (fun entries ↦ ofShapes (entries.map shapeOf)) entries error := by
  obtain ⟨before, shape, later, hcut, ⟨accepted, haccepted⟩, hcause⟩ :=
    ofShapes_eq_error_iff_cause.1 h
  have hoffends := offendsAt_of_cause shapeOf hcut haccepted hcause
  rcases depth_of_cause hcause with ⟨hdepth, hother⟩ | ⟨rfl, hlength⟩
  · exact ⟨fun _ ↦ hdepth ▸ hoffends, fun levels herror ↦ absurd herror (hother levels)⟩
  · rw [hlength] at hoffends
    exact ⟨fun hother ↦ absurd rfl (hother 9), fun _ _ ↦ ⟨rfl, rfl, hoffends⟩⟩

end Entries

/-- Of a draft as of a list of lane sizes, the error tells the entry that is to blame: at its
depth, or just before if there are too many levels. -/
theorem error_tells_offender :
    (∀ (shapes : List Shape) (error : PlanError), built shapes = .error error →
      TellsOffender built shapes error) ∧
    ∀ (chunks : List UInt64) (error : PlanError), ofChunks chunks = .error error →
      TellsOffender ofChunks chunks error := by
  constructor
  · intro shapes error h
    have hbuilt : built = fun entries ↦ ofShapes (entries.map id) := by
      funext entries
      rw [built_eq, List.map_id]
    rw [hbuilt] at h ⊢
    exact tellsOffender_of_error id h
  · intro chunks error h
    exact tellsOffender_of_error defaultShape h

def nineChunks : List UInt64 := [9, 8, 7, 6, 5, 4, 3, 2, 1]

theorem offenders_of_shapes_and_chunks :
    built [⟨8, 3⟩, ⟨0, 0⟩, ⟨0, 9⟩, ⟨4, 1⟩] = .error (.belowTerminal 3) ∧
      OffendsAt built [⟨8, 3⟩, ⟨0, 0⟩, ⟨0, 9⟩, ⟨4, 1⟩] (PlanError.belowTerminal 3).depth
        (.belowTerminal 3) ∧
      ofChunks [64, 64, 8] = .error (.notDecreasing 1 64 64) ∧
      OffendsAt ofChunks [64, 64, 8] (PlanError.notDecreasing 1 64 64).depth
        (.notDecreasing 1 64 64) ∧
      ofChunks nineChunks = .error (.tooDeep 9) ∧ (PlanError.tooDeep 9).depth = 9 ∧
      OffendsAt ofChunks nineChunks ((PlanError.tooDeep 9).depth - 1) (.tooDeep 9) := by
  have hbelow : built [⟨8, 3⟩, ⟨0, 0⟩, ⟨0, 9⟩, ⟨4, 1⟩] = .error (.belowTerminal 3) := rfl
  have hwide : ofChunks [64, 64, 8] = .error (.notDecreasing 1 64 64) := rfl
  have hdeep : ofChunks nineChunks = .error (.tooDeep 9) := rfl
  obtain ⟨hshapes, hchunks⟩ := error_tells_offender
  obtain ⟨hdepth, -, hoffends⟩ := (hchunks nineChunks (.tooDeep 9) hdeep).before_depth 9 rfl
  exact ⟨hbelow, (hshapes _ _ hbelow).at_depth (by simp), hwide,
    (hchunks _ _ hwide).at_depth (by simp), hdeep, hdepth, hoffends⟩

/-- The depth of too many levels need not be an index, and where it is one, the entries
before it are too many already. -/
theorem depth_past_offender :
    ofChunks nineChunks = .error (.tooDeep 9) ∧
      (PlanError.tooDeep 9).depth = nineChunks.length ∧
      ¬ OffendsAt ofChunks nineChunks (PlanError.tooDeep 9).depth (.tooDeep 9) ∧
      ofChunks (10 :: nineChunks) = .error (.tooDeep 9) ∧
      ¬ OffendsAt ofChunks (10 :: nineChunks) (PlanError.tooDeep 9).depth (.tooDeep 9) := by
  refine ⟨rfl, rfl, fun h ↦ ?_, rfl, fun h ↦ ?_⟩
  · exact absurd h.lt (by decide)
  · obtain ⟨plan, hplan⟩ := h.accepted
    have hrejected : ofChunks ((10 :: nineChunks).take 9) = .error (.tooDeep 9) := rfl
    exact absurd (hrejected.symm.trans hplan) (by simp)

end InterleavedCrc.Plan
