import InterleavedCrc.Proofs.AnyPlan
import InterleavedCrc.Proofs.Constructors

/-!
# Plans built again

A checked chain passes every further check as the list of shapes that it came from does
(`Plan.levelsFrom_shapes_iff`).  So a plan is built again from its own shapes, and
enclosing it checks no more than the whole list: levels put around one another from the
inside make the plan that one check of all of them makes.
-/

namespace InterleavedCrc

/-- The chunks put around one another, the last of them first. -/
def Construction.nested (chunks : List UInt64) : Construction :=
  chunks.foldr .enclose .sequential

namespace Plan

theorem levelsFrom_eq_ok_nil_iff {depth : ℕ} {outer : Option UInt64} {shapes : List Shape} :
    levelsFrom depth outer shapes = .ok [] ↔ ∀ shape ∈ shapes, shape.words = 0 := by
  cases shapes with
  | nil => simp [levelsFrom]
  | cons shape rest => simp [levelsFrom_cons_eq_ok_iff]

/-- Wherever the chain of a checked list may stand, so may the list. -/
theorem levelsFrom_shapes_iff {depth depth' : ℕ} {outer outer' : Option UInt64}
    {shapes : List Shape} {kept levels : List Level}
    (h : levelsFrom depth outer shapes = .ok kept) :
    levelsFrom depth' outer' (kept.map Level.shape) = .ok levels ↔
      levelsFrom depth' outer' shapes = .ok levels := by
  induction shapes generalizing depth depth' outer outer' kept levels with
  | nil =>
      cases h
      exact Iff.rfl
  | cons shape rest ih =>
      rcases levelsFrom_cons_eq_ok_iff.1 h with ⟨hended, rfl⟩ | ⟨-, hfits, -, inner, hinner, rfl⟩
      · have hshapes : levelsFrom depth' outer' (shape :: rest) = .ok [] :=
          levelsFrom_eq_ok_nil_iff.2 hended
        rw [hshapes]
        exact Iff.rfl
      · -- A shape that fits has a word, so on neither side does it end the chain.
        rw [List.map_cons, levelsFrom_cons_eq_ok_iff, levelsFrom_cons_eq_ok_iff,
          Level.shape_ofShape]
        simp [hfits.words_ne_zero, ih hinner]

theorem levelsFrom_cons_shapes_iff {depth depth' : ℕ} {outer outer' : Option UInt64}
    {shape : Shape} {rest : List Shape} {kept levels : List Level}
    (h : levelsFrom depth outer rest = .ok kept) :
    levelsFrom depth' outer' (shape :: kept.map Level.shape) = .ok levels ↔
      levelsFrom depth' outer' (shape :: rest) = .ok levels := by
  have hended : (∀ other ∈ kept.map Level.shape, other.words = 0) ↔
      ∀ other ∈ rest, other.words = 0 := by
    calc (∀ other ∈ kept.map Level.shape, other.words = 0)
        ↔ levelsFrom depth outer (kept.map Level.shape) = .ok [] := levelsFrom_eq_ok_nil_iff.symm
      _ ↔ levelsFrom depth outer rest = .ok [] := levelsFrom_shapes_iff h
      _ ↔ ∀ other ∈ rest, other.words = 0 := levelsFrom_eq_ok_nil_iff
  rw [levelsFrom_cons_eq_ok_iff, levelsFrom_cons_eq_ok_iff, List.forall_mem_cons,
    List.forall_mem_cons, hended]
  simp only [levelsFrom_shapes_iff h]

theorem ofShapes_cons_shapes_iff {shape : Shape} {rest : List Shape} {inner plan : Plan}
    (h : ofShapes rest = .ok inner) :
    ofShapes (shape :: inner.shapes) = .ok plan ↔ ofShapes (shape :: rest) = .ok plan := by
  simp only [ofShapes_eq_ok_iff_levels] at h ⊢
  exact levelsFrom_cons_shapes_iff h

theorem ofShapes_shapes {shapes : List Shape} {plan : Plan} (h : ofShapes shapes = .ok plan) :
    ofShapes plan.shapes = .ok plan := by
  rw [ofShapes_eq_ok_iff_levels] at h ⊢
  exact (levelsFrom_shapes_iff h).2 h

/-- A chain may also stand outermost. -/
theorem Chain.outermost {depth : ℕ} {outer : Option UInt64} {shapes : List Shape} {count : ℕ}
    (h : Chain depth outer shapes count) : Chain 0 none shapes count where
  depth_le := Nat.le_trans (by omega) h.depth_le
  fits := h.fits
  inside := by simp
  decreasing := h.decreasing
  ended := h.ended

theorem exists_ofShapes_of_cons {shape : Shape} {rest : List Shape} {plan : Plan}
    (h : ofShapes (shape :: rest) = .ok plan) : ∃ inner, ofShapes rest = .ok inner := by
  obtain ⟨count, hchain, -⟩ := ofShapes_eq_ok_iff.1 h
  cases count with
  | zero =>
      obtain ⟨-, hended⟩ := chain_zero_iff.1 hchain
      have hrest : Chain 0 none rest 0 :=
        chain_zero_iff.2 ⟨Nat.zero_le _, (List.forall_mem_cons.1 hended).2⟩
      exact ⟨_, ofShapes_eq_ok_iff.2 ⟨0, hrest, rfl⟩⟩
  | succ count =>
      obtain ⟨-, -, hrest⟩ := chain_succ_iff.1 hchain
      exact ⟨_, ofShapes_eq_ok_iff.2 ⟨count, hrest.outermost, rfl⟩⟩

theorem exists_ofChunks_of_suffix {inside chunks : List UInt64} (hinside : inside <:+ chunks)
    {plan : Plan} (h : ofChunks chunks = .ok plan) : ∃ inner, ofChunks inside = .ok inner := by
  obtain ⟨around, rfl⟩ := hinside
  induction around generalizing plan with
  | nil => exact ⟨plan, h⟩
  | cons words around ih =>
      obtain ⟨inner, hinner⟩ := exists_ofShapes_of_cons h
      exact ih hinner

/-- Each step checks the chain of the levels inside again, which cannot fail. -/
theorem build_nested_eq_ok_iff {chunks : List UInt64} {plan : Plan} :
    (Construction.nested chunks).build = .ok plan ↔ ofChunks chunks = .ok plan := by
  induction chunks generalizing plan with
  | nil => exact Iff.rfl
  | cons words rest ih =>
      constructor
      · intro h
        obtain ⟨inner, hinner, hencloses⟩ := exists_of_bind_eq_ok h
        exact (ofShapes_cons_shapes_iff (ih.1 hinner)).1 hencloses
      · intro h
        obtain ⟨inner, hinner⟩ := exists_ofShapes_of_cons h
        have hstep : (Construction.nested (words :: rest)).build
            = (Construction.nested rest).build >>= enclose words := rfl
        rw [hstep, ih.2 hinner]
        exact (ofShapes_cons_shapes_iff hinner).2 h

theorem foldl_addWords (chunks : List UInt64) :
    chunks.foldl Draft.addWords .empty = ⟨chunks.map defaultShape⟩ := by
  have hshapes := foldl_add .empty (chunks.map defaultShape)
  rw [List.foldl_map] at hshapes
  exact hshapes

/-- Chunks are accepted one around the other, at every step, exactly when they are
accepted together, and then make the same plan.  Any plan is built again from the words
and lanes of its levels. -/
theorem constructors_agree :
    (∀ chunks : List UInt64,
      ((∀ inside, inside <:+ chunks → ∃ inner, (Construction.nested inside).build = .ok inner) ↔
        ∃ plan, ofChunks chunks = .ok plan) ∧
      ∀ plan, ofChunks chunks = .ok plan →
        (Construction.nested chunks).build = .ok plan ∧
        (chunks.foldl Draft.addWords .empty).build = .ok plan) ∧
    ∀ plan : Plan, plan.Obtainable → (plan.shapes.foldl Draft.add .empty).build = .ok plan := by
  refine ⟨fun chunks ↦ ⟨⟨fun h ↦ ?_, ?_⟩, fun plan hplan ↦ ⟨?_, ?_⟩⟩, fun plan hplan ↦ ?_⟩
  · obtain ⟨plan, hplan⟩ := h chunks (List.suffix_refl chunks)
    exact ⟨plan, build_nested_eq_ok_iff.1 hplan⟩
  · rintro ⟨plan, hplan⟩ inside hinside
    obtain ⟨inner, hinner⟩ := exists_ofChunks_of_suffix hinside hplan
    exact ⟨inner, build_nested_eq_ok_iff.2 hinner⟩
  · exact build_nested_eq_ok_iff.2 hplan
  · rw [foldl_addWords]
    exact hplan
  · obtain ⟨shapes, hshapes⟩ := hplan.exists_ofShapes
    rw [foldl_add]
    exact ofShapes_shapes hshapes

theorem standard_built_again :
    (Construction.nested [4096, 512, 64]).build = .ok standard ∧
      (∃ inner, (Construction.nested [512, 64]).build = .ok inner) ∧
      nestedPlan.Obtainable ∧
      (nestedPlan.shapes.foldl Draft.add .empty).build = .ok nestedPlan := by
  obtain ⟨hchunks, hplans⟩ := constructors_agree
  obtain ⟨hsteps, hstandard⟩ := hchunks [4096, 512, 64]
  refine ⟨(hstandard standard ofChunks_standard).1, ?_, obtainable_nestedPlan,
    hplans nestedPlan obtainable_nestedPlan⟩
  exact hsteps.2 ⟨standard, ofChunks_standard⟩ [512, 64] (List.suffix_cons 4096 [512, 64])

/-- One check of all chunks meets the outermost offence first, and enclosing the innermost. -/
example : ofChunks [8, 64, 4096] = .error (.notDecreasing 1 8 64) ∧
    (Construction.nested [8, 64, 4096]).build = .error (.notDecreasing 1 64 4096) :=
  ⟨rfl, rfl⟩

end Plan

end InterleavedCrc
