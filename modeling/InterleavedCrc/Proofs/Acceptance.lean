import InterleavedCrc.Proofs.LevelSizes
import Mathlib

/-!
# Accepted lists of shapes

A list of shapes is accepted exactly when it is a chain of at most eight fitting
shapes whose lanes shrink strictly, and nothing but shapes of no words after it.  The
plan has the levels of that chain (`Plan.ofShapes_eq_ok_iff`).
-/

namespace InterleavedCrc.Plan

/-- The first `count` shapes are a chain inside a lane of `outer` words, the first
of them at index `depth`, and the others only end it. -/
structure Chain (depth : ℕ) (outer : Option UInt64) (shapes : List Shape) (count : ℕ) : Prop where
  depth_le : depth + count ≤ maxDepth
  fits : ∀ shape ∈ shapes.take count, shape.Fits
  inside : ∀ bound ∈ outer, ∀ shape ∈ shapes.take count, shape.words < bound
  decreasing : (shapes.take count).Pairwise fun around inner ↦ inner.words < around.words
  ended : ∀ shape ∈ shapes.drop count, shape.words = 0

theorem chain_zero_iff {depth : ℕ} {outer : Option UInt64} {shapes : List Shape} :
    Chain depth outer shapes 0 ↔ depth ≤ maxDepth ∧ ∀ shape ∈ shapes, shape.words = 0 := by
  constructor
  · intro h
    exact ⟨h.depth_le, h.ended⟩
  · rintro ⟨hdepth, hended⟩
    exact ⟨hdepth, by simp, by simp, by simp, hended⟩

/-- A chain of one more shape: the rest is a chain inside that shape's lanes. -/
theorem chain_succ_iff {depth : ℕ} {outer : Option UInt64} {shape : Shape} {rest : List Shape}
    {count : ℕ} :
    Chain depth outer (shape :: rest) (count + 1) ↔
      shape.Fits ∧ (∀ bound ∈ outer, shape.words < bound) ∧
        Chain (depth + 1) (some shape.words) rest count := by
  constructor
  · rintro ⟨hdepth, hfits, hinside, hdecreasing, hended⟩
    rw [List.take_succ_cons] at hfits hinside hdecreasing
    obtain ⟨hfirst, hfits⟩ := List.forall_mem_cons.1 hfits
    obtain ⟨hshorter, hdecreasing⟩ := List.pairwise_cons.1 hdecreasing
    refine ⟨hfirst, fun bound hbound ↦ hinside bound hbound shape List.mem_cons_self, ?_⟩
    refine ⟨by omega, hfits, ?_, hdecreasing, hended⟩
    rintro bound hbound inner hinner
    cases hbound
    exact hshorter inner hinner
  · rintro ⟨hfirst, hbounds, hdepth, hfits, hinside, hdecreasing, hended⟩
    have hshorter := hinside shape.words rfl
    refine ⟨by omega, ?_, ?_, ?_, hended⟩
    · rw [List.take_succ_cons]
      exact List.forall_mem_cons.2 ⟨hfirst, hfits⟩
    · intro bound hbound
      rw [List.take_succ_cons]
      refine List.forall_mem_cons.2 ⟨hbounds bound hbound, fun inner hinner ↦ ?_⟩
      exact UInt64.lt_trans (hshorter inner hinner) (hbounds bound hbound)
    · rw [List.take_succ_cons]
      exact List.pairwise_cons.2 ⟨hshorter, hdecreasing⟩

/-! ## What each check accepts -/

theorem levelsAfterEnd_eq_ok_iff {depth : ℕ} {shapes : List Shape} {levels : List Level} :
    levelsAfterEnd depth shapes = .ok levels ↔
      (∀ shape ∈ shapes, shape.words = 0) ∧ levels = [] := by
  induction shapes generalizing depth with
  | nil => simp [levelsAfterEnd, eq_comm]
  | cons shape rest ih =>
      rw [levelsAfterEnd, List.forall_mem_cons]
      by_cases hwords : shape.words = 0
      · rw [if_pos hwords, ih]
        simp only [hwords, true_and]
      · rw [if_neg hwords]
        simp only [hwords, false_and, reduceCtorEq]

theorem checkDecreasing_eq_ok_iff {depth : ℕ} {outer : Option UInt64} {words : UInt64} :
    checkDecreasing depth outer words = .ok () ↔ ∀ bound ∈ outer, words < bound := by
  cases outer with
  | none => simp [checkDecreasing]
  | some bound =>
      by_cases hle : bound ≤ words
      · simp [checkDecreasing, hle]
      · simp [checkDecreasing, hle, UInt64.not_le.1 hle]

theorem levelsFrom_cons_eq_ok_iff {depth : ℕ} {outer : Option UInt64} {shape : Shape}
    {rest : List Shape} {levels : List Level} :
    levelsFrom depth outer (shape :: rest) = .ok levels ↔
      ((∀ other ∈ shape :: rest, other.words = 0) ∧ levels = []) ∨
      (depth ≠ maxDepth ∧ shape.Fits ∧ (∀ bound ∈ outer, shape.words < bound) ∧
        ∃ inner, levelsFrom (depth + 1) (some shape.words) rest = .ok inner ∧
          levels = Level.ofShape shape :: inner) := by
  by_cases hwords : shape.words = 0
  · have hfits : ¬ shape.Fits := fun h ↦ h.words_ne_zero hwords
    rw [levelsFrom, if_pos hwords, levelsAfterEnd_eq_ok_iff, List.forall_mem_cons]
    simp only [hwords, hfits, true_and, false_and, and_false, or_false]
  · constructor
    · intro h
      rcases levelsFrom_cons_ok h with ⟨hzero, -⟩ | ⟨hdepth, hdec, level, inner, hmake, hinner, rfl⟩
      · exact absurd hzero hwords
      · obtain ⟨hfits, rfl⟩ := Level.make_eq_ok_iff.1 hmake
        exact Or.inr ⟨hdepth, hfits, checkDecreasing_eq_ok_iff.1 hdec, inner, hinner, rfl⟩
    · rintro (⟨hended, -⟩ | ⟨hdepth, hfits, hbounds, inner, hinner, rfl⟩)
      · exact absurd (hended shape List.mem_cons_self) hwords
      · have hdec : checkDecreasing depth outer shape.words = .ok () :=
          checkDecreasing_eq_ok_iff.2 hbounds
        have hmake : Level.make depth shape = .ok (Level.ofShape shape) :=
          Level.make_eq_ok_iff.2 ⟨hfits, rfl⟩
        rw [levelsFrom, if_neg hwords, if_neg hdepth, hdec, hmake, hinner]
        rfl

theorem levelsFrom_eq_ok_iff {depth : ℕ} {outer : Option UInt64} {shapes : List Shape}
    {levels : List Level} (hdepth : depth ≤ maxDepth) :
    levelsFrom depth outer shapes = .ok levels ↔
      ∃ count, Chain depth outer shapes count ∧
        levels = (shapes.take count).map Level.ofShape := by
  induction shapes generalizing depth outer levels with
  | nil =>
      constructor
      · intro h
        cases h
        exact ⟨0, chain_zero_iff.2 ⟨hdepth, by simp⟩, rfl⟩
      · rintro ⟨count, -, rfl⟩
        rw [List.take_nil]
        rfl
  | cons shape rest ih =>
      rw [levelsFrom_cons_eq_ok_iff]
      constructor
      · rintro (⟨hended, rfl⟩ | ⟨hne, hfits, hbounds, inner, hinner, rfl⟩)
        · exact ⟨0, chain_zero_iff.2 ⟨hdepth, hended⟩, rfl⟩
        · obtain ⟨count, hchain, rfl⟩ := (ih (by omega)).1 hinner
          exact ⟨count + 1, chain_succ_iff.2 ⟨hfits, hbounds, hchain⟩, rfl⟩
      · rintro ⟨count, hchain, rfl⟩
        cases count with
        | zero => exact Or.inl ⟨(chain_zero_iff.1 hchain).2, rfl⟩
        | succ count =>
            have hlt : depth < maxDepth := by
              have := hchain.depth_le
              omega
            obtain ⟨hfits, hbounds, hrest⟩ := chain_succ_iff.1 hchain
            refine Or.inr ⟨hlt.ne, hfits, hbounds, _, ?_, rfl⟩
            exact (ih hlt).2 ⟨count, hrest, rfl⟩

theorem ofShapes_eq_ok_iff_levels {shapes : List Shape} {plan : Plan} :
    ofShapes shapes = .ok plan ↔ levelsFrom 0 none shapes = .ok plan.levels := by
  obtain ⟨levels⟩ := plan
  rw [ofShapes]
  cases levelsFrom 0 none shapes <;> simp [Except.map]

theorem ofShapes_eq_ok_iff {shapes : List Shape} {plan : Plan} :
    ofShapes shapes = .ok plan ↔
      ∃ count, Chain 0 none shapes count ∧
        plan = ⟨(shapes.take count).map Level.ofShape⟩ := by
  rw [ofShapes_eq_ok_iff_levels, levelsFrom_eq_ok_iff (Nat.zero_le _)]
  obtain ⟨levels⟩ := plan
  simp only [mk.injEq]

/-! ## The builder -/

/-- The first `count` shapes are levels and all others mark the end. -/
structure Grammar (shapes : List Shape) (count : ℕ) : Prop where
  count_le : count ≤ 8
  words_pos : ∀ shape ∈ shapes.take count, 0 < shape.words.toNat
  decreasing : (shapes.take count).Pairwise fun outer inner ↦ inner.words < outer.words
  lanes_between : ∀ shape ∈ shapes.take count, 1 ≤ shape.lanes.toNat ∧ shape.lanes.toNat ≤ 8
  size_le : ∀ shape ∈ shapes.take count,
    shape.words.toNat * 8 * shape.lanes.toNat ≤ 2 ^ 64 - 1
  ended : ∀ shape ∈ shapes.drop count, shape.words.toNat = 0

theorem grammar_iff_chain {shapes : List Shape} {count : ℕ} :
    Grammar shapes count ↔ Chain 0 none shapes count := by
  constructor
  · rintro ⟨hcount, hwords, hdecreasing, hlanes, hsize, hended⟩
    refine ⟨by rwa [Nat.zero_add], fun shape hshape ↦ ?_, by simp, hdecreasing, ?_⟩
    · have hle := hsize shape hshape
      refine ⟨hwords shape hshape, (hlanes shape hshape).1, (hlanes shape hshape).2, ?_⟩
      exact Nat.lt_of_le_of_lt hle (by decide)
    · exact fun shape hshape ↦ UInt64.toNat_inj.1 (hended shape hshape)
  · rintro ⟨hcount, hfits, -, hdecreasing, hended⟩
    refine ⟨by rwa [Nat.zero_add] at hcount, fun shape hshape ↦ (hfits shape hshape).1,
      hdecreasing, fun shape hshape ↦ ?_, fun shape hshape ↦ ?_, fun shape hshape ↦ ?_⟩
    · exact ⟨(hfits shape hshape).2.1, (hfits shape hshape).2.2.1⟩
    · exact Nat.le_sub_one_of_lt (hfits shape hshape).2.2.2
    · rw [hended shape hshape]
      rfl

theorem shapes_mk_map_ofShape (shapes : List Shape) :
    Plan.shapes ⟨shapes.map Level.ofShape⟩ = shapes := by
  rw [Plan.shapes, List.map_map]
  exact List.map_id shapes

theorem foldl_add (draft : Draft) (shapes : List Shape) :
    shapes.foldl Draft.add draft = ⟨draft.shapes ++ shapes⟩ := by
  induction shapes generalizing draft with
  | nil => rw [List.foldl_nil, List.append_nil]
  | cons shape shapes ih =>
      rw [List.foldl_cons, ih, Draft.add, List.append_assoc]
      rfl

/-- A draft to which shapes were added one by one builds a plan exactly when they are
in the grammar.  A list of lane sizes is such a draft with three lanes each. -/
theorem build_iff_grammar :
    (∀ shapes : List Shape,
      ((∃ plan, (shapes.foldl Draft.add .empty).build = .ok plan) ↔
        ∃ count, Grammar shapes count) ∧
      ∀ plan count, (shapes.foldl Draft.add .empty).build = .ok plan → Grammar shapes count →
        plan.shapes = shapes.take count ∧
          plan.levels = (shapes.take count).map Level.ofShape) ∧
    ∀ chunks : List UInt64,
      ofChunks chunks
        = ((chunks.map fun words ↦ Shape.mk words 3).foldl Draft.add .empty).build := by
  have hbuild : ∀ shapes : List Shape,
      (shapes.foldl Draft.add .empty).build = ofShapes shapes := by
    intro shapes
    rw [foldl_add]
    rfl
  have hgrammar : ∀ {shapes : List Shape} {count : ℕ}, Grammar shapes count →
      ofShapes shapes = .ok ⟨(shapes.take count).map Level.ofShape⟩ :=
    fun h ↦ ofShapes_eq_ok_iff.2 ⟨_, grammar_iff_chain.1 h, rfl⟩
  refine ⟨fun shapes ↦ ⟨?_, fun plan count hplan hcount ↦ ?_⟩, fun chunks ↦ ?_⟩
  · rw [hbuild]
    constructor
    · rintro ⟨plan, hplan⟩
      obtain ⟨count, hchain, -⟩ := ofShapes_eq_ok_iff.1 hplan
      exact ⟨count, grammar_iff_chain.2 hchain⟩
    · rintro ⟨count, hcount⟩
      exact ⟨_, hgrammar hcount⟩
  · rw [hbuild, hgrammar hcount] at hplan
    cases hplan
    exact ⟨shapes_mk_map_ofShape _, rfl⟩
  · rw [hbuild]
    rfl

/-- The longest lane there is, and an end whose lane count no level may have. -/
example : Grammar [⟨0x1FFFFFFFFFFFFFFF, 1⟩, ⟨0, 9⟩] 1 :=
  ⟨by decide, by decide, by decide, by decide, by decide, by decide⟩

end InterleavedCrc.Plan
