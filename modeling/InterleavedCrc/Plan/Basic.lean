import InterleavedCrc.Text
import InterleavedCrc.Plan.Level

/-!
# Plans

A plan is a chain of levels, outermost first, whose lanes shrink strictly.  It is
made from a list of shapes; a shape of no words ends the chain, and after it only
further ones of that kind may stand.  The first shape that breaks a rule decides
the error.
-/

namespace InterleavedCrc

structure Plan where
  levels : List Level
deriving DecidableEq

namespace Plan

/-- Only shapes of no words may follow the end of the chain. -/
def levelsAfterEnd : Nat → List Shape → Except PlanError (List Level)
  | _, [] => .ok []
  | depth, shape :: rest =>
      if shape.words = 0 then levelsAfterEnd (depth + 1) rest
      else .error (.belowTerminal depth)

/-- A lane must be shorter than the one around it, if there is one. -/
def checkDecreasing (depth : Nat) (outer : Option UInt64) (words : UInt64) :
    Except PlanError Unit :=
  match outer with
  | none => .ok ()
  | some outer => if outer ≤ words then .error (.notDecreasing depth outer words) else .ok ()

/-- The levels of the shapes from index `depth` on, inside a lane of `outer`
words. -/
def levelsFrom : Nat → Option UInt64 → List Shape → Except PlanError (List Level)
  | _, _, [] => .ok []
  | depth, outer, shape :: rest =>
      if shape.words = 0 then levelsAfterEnd (depth + 1) rest
      else if depth = maxDepth then .error (.tooDeep (depth + 1))
      else do
        checkDecreasing depth outer shape.words
        let level ← Level.make depth shape
        let inner ← levelsFrom (depth + 1) (some shape.words) rest
        return level :: inner

def ofShapes (shapes : List Shape) : Except PlanError Plan :=
  (levelsFrom 0 none shapes).map Plan.mk

def sequential : Plan := ⟨[]⟩

def defaultShape (words : UInt64) : Shape := ⟨words, defaultLanes⟩

def standard : Plan :=
  ⟨[Level.ofShape (defaultShape 4096), Level.ofShape (defaultShape 512),
    Level.ofShape (defaultShape 64)]⟩

/-- The plan of lane sizes in words, each in the default number of lanes. -/
def ofChunks (chunks : List UInt64) : Except PlanError Plan :=
  ofShapes (chunks.map defaultShape)

def shapes (plan : Plan) : List Shape := plan.levels.map Level.shape

/-- A new outermost level around `inner`, of the default number of lanes. -/
def enclose (words : UInt64) (inner : Plan) : Except PlanError Plan :=
  ofShapes (defaultShape words :: inner.shapes)

def depth (plan : Plan) : Nat := plan.levels.length

def isSequential (plan : Plan) : Bool := plan.levels.isEmpty

def innermostBlockBytes (plan : Plan) : Option UInt64 :=
  plan.levels.getLast?.map Level.blockBytes

def text (plan : Plan) : String :=
  if plan.isSequential then "sequential" else "/".intercalate (plan.levels.map Level.text)

def outline (plan : Plan) : Outline :=
  .group (.record "InterleavePlan")
    [.field "levels" (.group .sequence (plan.levels.map Level.outline))]

/-- What is logged when a plan was asked for with this result. -/
def event : Except PlanError Plan → Event
  | .ok plan =>
      ⟨.trace, "interleave plan built",
        [("depth", .number plan.depth), ("plan", .text plan.text)]⟩
  | .error error => ⟨.debug, "interleave plan rejected", [("error", .text error.message)]⟩

@[simp] theorem levels_sequential : sequential.levels = [] := rfl

@[simp] theorem depth_mk (levels : List Level) : depth ⟨levels⟩ = levels.length := rfl

@[simp] theorem isSequential_iff (plan : Plan) : plan.isSequential ↔ plan = sequential := by
  cases plan
  simp [isSequential, sequential]

theorem ofChunks_standard : ofChunks [4096, 512, 64] = .ok standard := by
  have hmake : ∀ depth words, (defaultShape words).Fits →
      Level.make depth (defaultShape words) = .ok (Level.ofShape (defaultShape words)) :=
    fun depth words h ↦ Level.make_eq_ok_iff.2 ⟨h, rfl⟩
  have h0 := hmake 0 4096 (by decide)
  have h1 := hmake 1 512 (by decide)
  have h2 := hmake 2 64 (by decide)
  have hwords : ∀ words, (defaultShape words).words = words := fun _ ↦ rfl
  simp [ofChunks, ofShapes, levelsFrom, hwords, h0, h1, h2, checkDecreasing, standard, maxDepth,
    bind, Except.bind, pure, Except.pure, Except.map]

end Plan

end InterleavedCrc
