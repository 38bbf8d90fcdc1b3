import InterleavedCrc.Proofs.Acceptance
import InterleavedCrc.Proofs.Merge

/-!
# Plans made one after another

Plans are made by calls that may take up plans made before.  Whatever the calls, every
plan made has at most eight levels, whose lanes shrink strictly and whose sizes are
exact.
-/

namespace InterleavedCrc.Plan

structure Regular (plan : Plan) : Prop where
  depth_le : plan.levels.length ≤ maxDepth
  decreasing : plan.levels.Pairwise fun outer inner ↦ inner.shape.words < outer.shape.words
  valid : ∀ level ∈ plan.levels, level.Valid

theorem regular_of_ofShapes {shapes : List Shape} {plan : Plan} (h : ofShapes shapes = .ok plan) :
    plan.Regular := by
  obtain ⟨count, hchain, rfl⟩ := ofShapes_eq_ok_iff.1 h
  have hdepth := hchain.depth_le
  refine ⟨?_, ?_, valid_of_ofShapes h⟩
  · simp only [List.length_map, List.length_take]
    omega
  · exact List.pairwise_map.2 hchain.decreasing

/-- Every construction ends with a check of shapes, or might as well. -/
theorem Obtainable.exists_ofShapes {plan : Plan} (h : plan.Obtainable) :
    ∃ shapes, ofShapes shapes = .ok plan := by
  obtain ⟨construction, hbuild⟩ := h
  cases construction with
  | sequential => exact ⟨[], hbuild⟩
  | standard => exact ⟨_, ofChunks_standard.trans hbuild⟩
  | chunks words => exact ⟨_, hbuild⟩
  | draft shapes => exact ⟨_, hbuild⟩
  | enclose words inner =>
      obtain ⟨inside, -, hencloses⟩ := exists_of_bind_eq_ok hbuild
      exact ⟨_, hencloses⟩

theorem Chain.kept {depth : ℕ} {outer : Option UInt64} {shapes : List Shape} {count : ℕ}
    (h : Chain depth outer shapes count) :
    Chain depth outer (shapes.take count) (shapes.take count).length := by
  have hlength : (shapes.take count).length ≤ count := List.length_take_le count shapes
  have hdepth : depth + (shapes.take count).length ≤ maxDepth := by
    have := h.depth_le
    omega
  refine ⟨hdepth, ?_, ?_, ?_, ?_⟩
  · rw [List.take_length]
    exact h.fits
  · rw [List.take_length]
    exact h.inside
  · rw [List.take_length]
    exact h.decreasing
  · rw [List.drop_length]
    simp

/-- The shapes of the levels are a chain that nothing ends, and tell the levels. -/
theorem Obtainable.exists_chain {plan : Plan} (h : plan.Obtainable) :
    ∃ shapes, Chain 0 none shapes shapes.length ∧ plan = ⟨shapes.map Level.ofShape⟩ := by
  obtain ⟨shapes, hshapes⟩ := h.exists_ofShapes
  obtain ⟨count, hchain, rfl⟩ := ofShapes_eq_ok_iff.1 hshapes
  exact ⟨_, hchain.kept, rfl⟩

theorem Obtainable.regular {plan : Plan} (h : plan.Obtainable) : plan.Regular := by
  obtain ⟨shapes, hshapes⟩ := h.exists_ofShapes
  exact regular_of_ofShapes hshapes

/-! ## Calls -/

/-- A call of a constructor.  A plan made before is told by its place among them. -/
inductive Call where
  | sequential
  | standard
  | default
  | chunks (words : List UInt64)
  | build (additions : List Shape)
  | enclose (words : UInt64) (inner : ℕ)
  | clone (source : ℕ)

/-- There is no plan if the call is rejected, or if it takes up one that was not made. -/
def Call.result (made : List Plan) : Call → Option Plan
  | sequential => some Plan.sequential
  | standard => some Plan.standard
  | default => some Plan.standard
  | chunks words => (ofChunks words).toOption
  | build additions => (additions.foldl Draft.add .empty).build.toOption
  | enclose words inner => made[inner]?.bind fun plan ↦ (Plan.enclose words plan).toOption
  | clone source => made[source]?

def make (made : List Plan) (call : Call) : List Plan := made ++ (call.result made).toList

def makeAll (calls : List Call) : List Plan := calls.foldl make []

theorem eq_ok_of_toOption {x : Except PlanError Plan} {plan : Plan}
    (h : x.toOption = some plan) : x = .ok plan := by
  cases x with
  | error error => simp [Except.toOption] at h
  | ok value => simpa [Except.toOption] using h

theorem obtainable_of_result {made : List Plan} (hmade : ∀ plan ∈ made, plan.Obtainable)
    {call : Call} {plan : Plan} (h : call.result made = some plan) : plan.Obtainable := by
  cases call with
  | sequential =>
      cases h
      exact obtainable_sequential
  | standard =>
      cases h
      exact obtainable_standard
  | default =>
      cases h
      exact obtainable_standard
  | chunks words => exact ⟨.chunks words, eq_ok_of_toOption h⟩
  | build additions => exact ⟨.draft _, eq_ok_of_toOption h⟩
  | enclose words inner =>
      obtain ⟨inside, hinside, hresult⟩ := Option.bind_eq_some_iff.1 h
      exact obtainable_of_enclose (hmade inside (List.mem_of_getElem? hinside))
        (eq_ok_of_toOption hresult)
  | clone source => exact hmade plan (List.mem_of_getElem? h)

theorem obtainable_of_mem_make {made : List Plan} (hmade : ∀ plan ∈ made, plan.Obtainable)
    (call : Call) : ∀ plan ∈ make made call, plan.Obtainable := by
  intro plan hplan
  rcases List.mem_append.1 hplan with hbefore | hnew
  · exact hmade plan hbefore
  · exact obtainable_of_result hmade (Option.mem_toList.1 hnew)

theorem obtainable_of_mem_makeAll (calls : List Call) :
    ∀ plan ∈ makeAll calls, plan.Obtainable := by
  have hrun : ∀ made : List Plan, (∀ plan ∈ made, plan.Obtainable) →
      ∀ plan ∈ calls.foldl make made, plan.Obtainable := by
    induction calls with
    | nil => exact fun made hmade ↦ hmade
    | cons call calls ih => exact fun made hmade ↦ ih _ (obtainable_of_mem_make hmade call)
  exact hrun [] (by simp)

theorem mem_makeAll_of_result {calls : List Call} {call : Call} {plan : Plan}
    (h : call.result (makeAll calls) = some plan) : plan ∈ makeAll (calls ++ [call]) := by
  rw [makeAll, List.foldl_append, List.foldl_cons, List.foldl_nil, make]
  exact List.mem_append_right _ (Option.mem_toList.2 h)

theorem exists_makeAll_of_result_nil {call : Call} {plan : Plan}
    (h : call.result [] = some plan) : ∃ calls, plan ∈ makeAll calls :=
  ⟨[] ++ [call], mem_makeAll_of_result h⟩

theorem exists_makeAll_of_build {construction : Construction} {plan : Plan}
    (h : construction.build = .ok plan) : ∃ calls, plan ∈ makeAll calls := by
  induction construction generalizing plan with
  | sequential =>
      have hresult : Call.sequential.result [] = some plan := congrArg Except.toOption h
      exact exists_makeAll_of_result_nil hresult
  | standard =>
      have hresult : Call.standard.result [] = some plan := congrArg Except.toOption h
      exact exists_makeAll_of_result_nil hresult
  | chunks words =>
      have hresult : (Call.chunks words).result [] = some plan := congrArg Except.toOption h
      exact exists_makeAll_of_result_nil hresult
  | draft shapes =>
      have hresult : (Call.build shapes.shapes).result [] = some plan := by
        rw [Call.result, foldl_add]
        exact congrArg Except.toOption h
      exact exists_makeAll_of_result_nil hresult
  | enclose words inner ih =>
      obtain ⟨inside, hinside, hencloses⟩ := exists_of_bind_eq_ok h
      -- The inner plan is named by its place among what its own calls made.
      obtain ⟨calls, hmade⟩ := ih hinside
      obtain ⟨place, hplace⟩ := List.getElem?_of_mem hmade
      refine ⟨calls ++ [.enclose words place], mem_makeAll_of_result ?_⟩
      rw [Call.result, hplace, Option.bind_some, hencloses]
      rfl

theorem obtainable_iff_exists_makeAll {plan : Plan} :
    plan.Obtainable ↔ ∃ calls, plan ∈ makeAll calls := by
  constructor
  · rintro ⟨construction, hbuild⟩
    exact exists_makeAll_of_build hbuild
  · rintro ⟨calls, hplan⟩
    exact obtainable_of_mem_makeAll calls plan hplan

/-- Some calls make a plan exactly if it is obtainable, and whatever they make keeps the
bounds of shapes, in numbers and not only modulo the word size. -/
theorem made_plans_are_regular :
    (∀ plan : Plan, plan.Obtainable ↔ ∃ calls, plan ∈ makeAll calls) ∧
    ∀ calls : List Call, ∀ plan ∈ makeAll calls,
      plan.levels.length ≤ 8 ∧
      (plan.levels.Pairwise fun outer inner ↦
        inner.shape.words.toNat < outer.shape.words.toNat) ∧
      ∀ level ∈ plan.levels,
        1 ≤ level.shape.words.toNat ∧
        1 ≤ level.shape.lanes.toNat ∧ level.shape.lanes.toNat ≤ 8 ∧
        level.laneBytes.toNat = 8 * level.shape.words.toNat ∧
        level.blockBytes.toNat = level.shape.lanes.toNat * level.laneBytes.toNat ∧
        level.pastLane = ZeroExtension.ofLength level.laneBytes.toNat ∧
        ∀ register, level.pastLane.apply register
          = Register.feed castagnoli register (List.replicate level.laneBytes.toNat 0) := by
  refine ⟨fun plan ↦ obtainable_iff_exists_makeAll, fun calls plan hplan ↦ ?_⟩
  obtain ⟨hdepth, hdecreasing, hvalid⟩ := (obtainable_of_mem_makeAll calls plan hplan).regular
  refine ⟨hdepth, hdecreasing.imp UInt64.lt_iff_toNat_lt.1, fun level hlevel ↦ ?_⟩
  obtain ⟨hwords, hlanes, hmax, hlaneBytes, hblockBytes, hpast⟩ := hvalid level hlevel
  refine ⟨hwords, hlanes, hmax, hlaneBytes, hblockBytes, hpast, fun register ↦ ?_⟩
  rw [hpast]
  exact ZeroExtension.apply_ofLength_eq_feed _ register

/-- Eight lanes of sixty-four words, and around them three of the longest that three
lanes may have. -/
def longCalls : List Call := [.build [⟨64, 8⟩], .enclose 0x0AAAAAAAAAAAAAAA 0]

def longPlan : Plan := ⟨[Level.ofShape ⟨0x0AAAAAAAAAAAAAAA, 3⟩, Level.ofShape ⟨64, 8⟩]⟩

theorem regular_longPlan :
    longPlan ∈ makeAll longCalls ∧
      ∃ level ∈ longPlan.levels, level.shape.lanes.toNat * level.laneBytes.toNat = 2 ^ 64 - 16 ∧
        level.blockBytes.toNat = level.shape.lanes.toNat * level.laneBytes.toNat := by
  have hmade : longPlan ∈ makeAll ([.build [⟨64, 8⟩]] ++ [.enclose 0x0AAAAAAAAAAAAAAA 0]) :=
    mem_makeAll_of_result rfl
  have hlevels := (made_plans_are_regular.2 longCalls longPlan hmade).2.2
  have houter := hlevels (Level.ofShape ⟨0x0AAAAAAAAAAAAAAA, 3⟩) List.mem_cons_self
  exact ⟨hmade, _, List.mem_cons_self, rfl, houter.2.2.2.2.1⟩

end InterleavedCrc.Plan
