import InterleavedCrc.Proofs.Lanes
import InterleavedCrc.Proofs.LevelSizes
import InterleavedCrc.Proofs.Merge
import InterleavedCrc.Proofs.Slicing

/-!
# The walk along the levels feeds the register

A block of accepted sizes is its lanes, and lanes that are each fed in sequence
merge into the block.  Whole blocks and their rest are the data, so by induction
on the levels every walk feeds what the sequential loop feeds.  The order of the
levels and their relative sizes play no part.
-/

namespace InterleavedCrc

theorem Register.foldl_pieces {poly : UInt32} {feedPiece : UInt32 → List UInt8 → UInt32}
    {pieces : List (List UInt8)}
    (h : ∀ piece ∈ pieces, ∀ register, feedPiece register piece = feed poly register piece)
    (register : UInt32) :
    pieces.foldl feedPiece register = feed poly register pieces.flatten := by
  induction pieces generalizing register with
  | nil => rfl
  | cons piece pieces ih =>
      rw [List.foldl_cons, h piece List.mem_cons_self, List.flatten_cons, feed_append]
      exact ih (fun other ho ↦ h other (List.mem_cons_of_mem piece ho)) _

namespace Kernel

variable {kernel : Kernel}

theorem feed_eq (hkernel : kernel.Sound) (register : UInt32) (data : List UInt8) :
    kernel.feed register data = Register.feed castagnoli register data := by
  have hword : ∀ piece ∈ (cut wordBytes data).1, ∀ register,
      kernel.absorbWord register (wordOfBytes piece)
        = Register.feed castagnoli register piece := by
    intro piece hpiece register
    rw [hkernel.absorbWord, bytesOfWord_wordOfBytes (length_of_mem_cut hpiece)]
  have hbyte : kernel.absorbByte = Register.absorb castagnoli := by
    funext register byte
    exact hkernel.absorbByte register byte
  rw [feed]
  simp only [Register.foldl_pieces hword, hbyte]
  change Register.feed castagnoli (Register.feed castagnoli register _) _ = _
  rw [← Register.feed_append, flatten_cut]

variable {level : Level} {block : List UInt8}

/-- A block of several lanes has a first lane, and nothing but lanes. -/
theorem exists_lanes (hlevel : level.Valid) (hlen : block.length = level.blockBytes.toNat) :
    ∃ first others, (cut level.laneBytes.toNat block).1 = first :: others ∧
      first ++ others.flatten = block := by
  have hflat := flatten_cut level.laneBytes.toNat block
  have hrest : (cut level.laneBytes.toNat block).2 = [] := by
    apply rest_cut_eq_nil
    rw [hlen, hlevel.blockBytes_eq]
    exact Nat.dvd_mul_left _ _
  have hcount : (cut level.laneBytes.toNat block).1.length = level.shape.lanes.toNat := by
    rw [length_cut, hlen, hlevel.blockBytes_eq, Nat.mul_div_cancel _ hlevel.laneBytes_pos]
  cases hlanes : (cut level.laneBytes.toNat block).1 with
  | nil =>
      have hpos := hlevel.lanes_pos
      rw [← hcount, hlanes] at hpos
      simp at hpos
  | cons first others =>
      refine ⟨first, others, rfl, ?_⟩
      rw [hlanes, hrest, List.append_nil] at hflat
      exact hflat

theorem feedOuter_eq (hlevel : level.Valid) {inside : UInt32 → List UInt8 → UInt32}
    (hinside : ∀ register lane, inside register lane = Register.feed castagnoli register lane)
    (register : UInt32) (hlen : block.length = level.blockBytes.toNat) :
    feedOuter level inside register block = Register.feed castagnoli register block := by
  obtain ⟨first, others, hcut, hblock⟩ := exists_lanes hlevel hlen
  have hlane : ∀ lane ∈ others, lane.length = level.laneBytes.toNat := by
    intro lane hmem
    have hcutmem : lane ∈ (cut level.laneBytes.toNat block).1 := by
      rw [hcut]
      exact List.mem_cons_of_mem first hmem
    exact length_of_mem_cut hcutmem
  have hothers : others.map (inside 0) = others.map (Register.feed castagnoli 0) :=
    List.map_congr_left fun lane _ ↦ hinside 0 lane
  rw [feedOuter, hcut]
  simp only [hinside register first, hothers, hlevel.pastLane_eq]
  rw [ZeroExtension.merge_feed _ register first others hlane, hblock]

/-- Lock-step lanes of an accepted level are lanes fed in sequence. -/
theorem feedInnermost_eq_feedOuter (kernel : Kernel) (hlevel : level.Valid) (register : UInt32)
    (hlen : block.length = level.blockBytes.toNat) :
    kernel.feedInnermost level register block = feedOuter level kernel.feed register block := by
  obtain ⟨first, others, hcut, _⟩ := exists_lanes hlevel hlen
  have hrow : ∀ lane ∈ first :: others, ∀ register,
      kernel.feed register lane = (wordsOf lane).foldl kernel.absorbWord register := by
    intro lane hmem register
    apply feed_eq_foldl_wordsOf
    rw [length_of_mem_cut (hcut ▸ hmem)]
    exact hlevel.wordBytes_dvd_laneBytes
  rw [feedInnermost, if_pos hlevel.lanes_between, feedLockstep,
    laneRegisters_eq_cons kernel.absorbWord register hlevel.laneBytes_pos
      hlevel.wordBytes_dvd_laneBytes (hlen.trans hlevel.blockBytes_eq) hcut,
    feedOuter, hcut]
  congr 1
  congr 1
  · exact (hrow first List.mem_cons_self register).symm
  · exact List.map_congr_left fun lane hmem ↦ (hrow lane (List.mem_cons_of_mem first hmem) 0).symm

theorem feedAlong_eq (hkernel : kernel.Sound) {levels : List Level}
    (hlevels : ∀ level ∈ levels, level.Valid) (register : UInt32) (data : List UInt8) :
    kernel.feedAlong levels register data = Register.feed castagnoli register data := by
  induction levels generalizing register data with
  | nil => exact feed_eq hkernel register data
  | cons level inner ih =>
      have hlevel : level.Valid := hlevels level List.mem_cons_self
      have hinner := ih fun other ho ↦ hlevels other (List.mem_cons_of_mem level ho)
      have hblock : ∀ block ∈ (cut level.blockBytes.toNat data).1, ∀ register,
          (if inner.isEmpty then kernel.feedInnermost level
            else feedOuter level (kernel.feedAlong inner)) register block
            = Register.feed castagnoli register block := by
        intro block hmem register
        have hlen := length_of_mem_cut hmem
        split
        · rw [feedInnermost_eq_feedOuter kernel hlevel register hlen]
          exact feedOuter_eq hlevel (feed_eq hkernel) register hlen
        · exact feedOuter_eq hlevel hinner register hlen
      -- The rest after the last block goes to the inner levels, of whatever size.
      rw [feedAlong]
      simp only [Register.foldl_pieces hblock, hinner]
      rw [← Register.feed_append, flatten_cut]

/-- Lanes of one word around lanes of two, and a single lane inside both. -/
def growingLevels : List Level :=
  [Level.ofShape ⟨1, 2⟩, Level.ofShape ⟨2, 1⟩, Level.ofShape ⟨1, 1⟩]

/-- Any accepted levels in any order, for any kernel that steps like the register. -/
theorem feedAlong_accepted_levels (hkernel : kernel.Sound) (levels : List Level)
    (hlevels : ∀ level ∈ levels, ∃ depth shape, Level.make depth shape = .ok level)
    (register : UInt32) (data : List UInt8) :
    kernel.feedAlong levels register data = kernel.feed register data ∧
      kernel.feed register data = Register.feed castagnoli register data := by
  have hvalid : ∀ level ∈ levels, level.Valid := by
    intro level hmem
    obtain ⟨depth, shape, hmake⟩ := hlevels level hmem
    exact Level.valid_of_make hmake
  have hfeed := feed_eq hkernel register data
  exact ⟨(feedAlong_eq hkernel hvalid register data).trans hfeed.symm, hfeed⟩

theorem portable_along_growingLevels :
    Kernel.portable.Sound ∧
      (∀ level ∈ growingLevels, ∃ depth shape, Level.make depth shape = .ok level) ∧
        Kernel.portable.feedAlong growingLevels 0xFFFFFFFF ((List.range 37).map UInt8.ofNat)
          = 0xDC645FB2 ∧
        Kernel.portable.feed 0xFFFFFFFF ((List.range 37).map UInt8.ofNat) = 0xDC645FB2 := by
  have hmake : ∀ shape : Shape, shape.Fits →
      ∃ depth shape', Level.make depth shape' = .ok (Level.ofShape shape) :=
    fun shape hfits ↦ ⟨0, shape, Level.make_eq_ok_iff.2 ⟨hfits, rfl⟩⟩
  have hlevels : ∀ level ∈ growingLevels, ∃ depth shape, Level.make depth shape = .ok level := by
    have h0 := hmake ⟨1, 2⟩ (by decide)
    have h1 := hmake ⟨2, 1⟩ (by decide)
    have h2 := hmake ⟨1, 1⟩ (by decide)
    simp only [growingLevels, List.forall_mem_cons]
    exact ⟨h0, h1, h2, by simp⟩
  obtain ⟨hwalk, hfeed⟩ := feedAlong_accepted_levels portable_sound growingLevels hlevels
    0xFFFFFFFF ((List.range 37).map UInt8.ofNat)
  have hvalue : Register.feed castagnoli 0xFFFFFFFF ((List.range 37).map UInt8.ofNat)
      = 0xDC645FB2 := by decide +kernel
  exact ⟨portable_sound, hlevels, hwalk.trans (hfeed.trans hvalue), hfeed.trans hvalue⟩

end Kernel

end InterleavedCrc
