import InterleavedCrc.Text

/-!
# Rejected plans

A plan is rejected for one of five causes, each labelled with a depth counted
from the outermost level.
-/

namespace InterleavedCrc

/-- Lanes of a level that does not say. -/
def defaultLanes : UInt64 := 3

def maxLanes : UInt64 := 8

def maxDepth : Nat := 8

inductive PlanError where
  /-- The level lies below one of no words, or has none itself. -/
  | belowTerminal (depth : Nat)
  | laneCount (depth : Nat) (lanes : UInt64)
  /-- The lane is not shorter than the one around it. -/
  | notDecreasing (depth : Nat) (outer inner : UInt64)
  | tooDeep (depth : Nat)
  /-- The size of a block in bytes is not a machine word. -/
  | chunkTooLarge (depth : Nat) (words : UInt64)
deriving DecidableEq

namespace PlanError

def depth : PlanError → Nat
  | belowTerminal depth => depth
  | laneCount depth _ => depth
  | notDecreasing depth _ _ => depth
  | tooDeep depth => depth
  | chunkTooLarge depth _ => depth

def name : PlanError → String
  | belowTerminal _ => "NestedInsideTerminal"
  | laneCount _ _ => "LaneCount"
  | notDecreasing _ _ _ => "NotDecreasing"
  | tooDeep _ => "TooDeep"
  | chunkTooLarge _ _ => "ChunkTooLarge"

def message : PlanError → String
  | belowTerminal depth => "level " ++ toString depth ++ " is nested inside a sequential level"
  | laneCount depth lanes =>
      "level " ++ toString depth ++ " has " ++ toString lanes.toNat ++ " lanes, expected 1..="
        ++ toString maxLanes.toNat
  | notDecreasing depth outer inner =>
      "level " ++ toString depth ++ " chunk of " ++ toString inner.toNat
        ++ " words is not smaller than its outer chunk of " ++ toString outer.toNat ++ " words"
  | tooDeep depth => "plan depth " ++ toString depth ++ " exceeds " ++ toString maxDepth
  | chunkTooLarge depth words =>
      "level " ++ toString depth ++ " chunk of " ++ toString words.toNat
        ++ " words overflows the address space"

/-- What the error holds besides its depth. -/
def details : PlanError → List (String × UInt64)
  | belowTerminal _ => []
  | laneCount _ lanes => [("lanes", lanes)]
  | notDecreasing _ outer inner => [("outer", outer), ("inner", inner)]
  | tooDeep _ => []
  | chunkTooLarge _ words => [("chunk_words", words)]

def outline (error : PlanError) : Outline :=
  .group (.record error.name)
    (.field "depth" (.ofNat error.depth)
      :: error.details.map fun (key, value) ↦ .field key (.ofNat value.toNat))

end PlanError

end InterleavedCrc
