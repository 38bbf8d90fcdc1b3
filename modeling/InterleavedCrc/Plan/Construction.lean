import InterleavedCrc.Plan.Basic

/-!
# Ways to a plan

A draft collects shapes and is checked when it is built.  A construction is the
whole way to a plan; the plans at hand are those that some construction builds
(`Plan.Obtainable`).  Each check of shapes leaves one event.
-/

namespace InterleavedCrc

/-- Shapes collected so far, outermost first. -/
structure Draft where
  shapes : List Shape
deriving DecidableEq

namespace Draft

def empty : Draft := ⟨[]⟩

def add (draft : Draft) (shape : Shape) : Draft := ⟨draft.shapes ++ [shape]⟩

def addWords (draft : Draft) (words : UInt64) : Draft := draft.add (Plan.defaultShape words)

def build (draft : Draft) : Except PlanError Plan := Plan.ofShapes draft.shapes

def outline (draft : Draft) : Outline :=
  .group (.record "PlanBuilder")
    [.field "entries" (.group .sequence (draft.shapes.map fun shape ↦
      .group .tuple [.ofNat shape.words.toNat, .ofNat shape.lanes.toNat]))]

end Draft

inductive Construction where
  | sequential
  | standard
  | chunks (words : List UInt64)
  | draft (shapes : Draft)
  | enclose (words : UInt64) (inner : Construction)

namespace Construction

/-- A rejected inner plan is the result, and nothing is put around it. -/
def build : Construction → Except PlanError Plan
  | .sequential => .ok .sequential
  | .standard => .ok .standard
  | .chunks words => Plan.ofChunks words
  | .draft shapes => shapes.build
  | .enclose words inner => inner.build >>= Plan.enclose words

def events : Construction → List Event
  | .sequential => []
  | .standard => []
  | .chunks words => [Plan.event (Plan.ofChunks words)]
  | .draft shapes => [Plan.event shapes.build]
  | .enclose words inner =>
      match inner.build with
      | .ok plan => inner.events ++ [Plan.event (Plan.enclose words plan)]
      | .error _ => inner.events

end Construction

def Plan.Obtainable (plan : Plan) : Prop :=
  ∃ construction : Construction, construction.build = .ok plan

theorem Plan.obtainable_sequential : sequential.Obtainable := ⟨.sequential, rfl⟩

theorem Plan.obtainable_standard : standard.Obtainable := ⟨.standard, rfl⟩

theorem Plan.obtainable_of_enclose {words : UInt64} {inner plan : Plan} (h : inner.Obtainable)
    (hplan : Plan.enclose words inner = .ok plan) : plan.Obtainable := by
  obtain ⟨construction, hc⟩ := h
  refine ⟨.enclose words construction, ?_⟩
  rw [Construction.build, hc]
  exact hplan

end InterleavedCrc
