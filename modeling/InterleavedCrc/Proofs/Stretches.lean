import InterleavedCrc.Kernel
import InterleavedCrc.Proofs.Constructors

/-!
# What a walk splits into lanes

A walk reads whole blocks, each split into the lanes of its level, and then in sequence the
bytes that fill no block.  Data are read in sequence from the start exactly if they fill no
block of any level.  Inwards the lanes shrink but there may be more of them, so the innermost
block need not be the smallest.
-/

namespace InterleavedCrc

/-- A part of the data that a walk reads at once. -/
inductive Stretch where
  /-- A whole block of `level`, which stands around the levels `inner`. -/
  | block (level : Level) (inner : List Level) (bytes : List UInt8)
  | plain (bytes : List UInt8)

/-- The stretches of the data in reading order, along levels from the outermost. -/
def stretches : List Level → List UInt8 → List Stretch
  | [], data => [.plain data]
  | level :: inner, data =>
      let (blocks, rest) := cut level.blockBytes.toNat data
      blocks.map (Stretch.block level inner) ++ stretches inner rest

def Stretch.feed (kernel : Kernel) (register : UInt32) : Stretch → UInt32
  | block level inner bytes =>
      if inner.isEmpty then kernel.feedInnermost level register bytes
      else Kernel.feedOuter level (kernel.feedAlong inner) register bytes
  | plain bytes => kernel.feed register bytes

/-- Whatever the steps of the kernel, a walk feeds the stretches one after another. -/
theorem Kernel.feedAlong_eq_foldl (kernel : Kernel) (levels : List Level) (register : UInt32)
    (data : List UInt8) :
    kernel.feedAlong levels register data
      = (stretches levels data).foldl (Stretch.feed kernel) register := by
  induction levels generalizing register data with
  | nil => rfl
  | cons level inner ih =>
      have hblock : (if inner.isEmpty then kernel.feedInnermost level
          else feedOuter level (kernel.feedAlong inner))
          = fun register bytes ↦ (Stretch.block level inner bytes).feed kernel register := by
        funext register bytes
        rw [Stretch.feed]
        split <;> rfl
      rw [feedAlong, stretches]
      simp only [List.foldl_append, List.foldl_map, ih, hblock]

theorem cut_of_lt {n : ℕ} {data : List UInt8} (h : data.length < n) : cut n data = ([], data) := by
  rw [cut, Nat.div_eq_of_lt h]
  rfl

theorem exists_cut_of_le {n : ℕ} (hn : 0 < n) {data : List UInt8} (h : n ≤ data.length) :
    ∃ first others, (cut n data).1 = first :: others ∧ first.length = n := by
  have hpos : 0 < (cut n data).1.length := by
    rw [length_cut]
    exact Nat.div_pos h hn
  obtain ⟨first, others, hcut⟩ := List.exists_cons_of_length_pos hpos
  exact ⟨first, others, hcut, length_of_mem_cut (hcut ▸ List.mem_cons_self)⟩

theorem stretches_of_lt {level : Level} {inner : List Level} {data : List UInt8}
    (h : data.length < level.blockBytes.toNat) :
    stretches (level :: inner) data = stretches inner data := by
  simp [stretches, cut_of_lt h]

theorem Level.Valid.blockBytes_pos {level : Level} (h : level.Valid) :
    0 < level.blockBytes.toNat := by
  rw [h.blockBytes_eq]
  exact Nat.mul_pos h.lanes_pos h.laneBytes_pos

/-- The first stretch is a whole block of one of the levels. -/
def StartsWithBlock (levels : List Level) (data : List UInt8) : Prop :=
  ∃ level ∈ levels, ∃ inner bytes later,
    stretches levels data = .block level inner bytes :: later ∧
      bytes.length = level.blockBytes.toNat

theorem stretches_eq_plain {levels : List Level} {data : List UInt8}
    (h : ∀ level ∈ levels, data.length < level.blockBytes.toNat) :
    stretches levels data = [.plain data] := by
  induction levels with
  | nil => rfl
  | cons level inner ih =>
      obtain ⟨hfirst, hinner⟩ := List.forall_mem_cons.1 h
      exact (stretches_of_lt hfirst).trans (ih hinner)

theorem startsWithBlock_of_le {levels : List Level} (hlevels : ∀ level ∈ levels, level.Valid)
    {data : List UInt8} (h : ∃ level ∈ levels, level.blockBytes.toNat ≤ data.length) :
    StartsWithBlock levels data := by
  induction levels with
  | nil =>
      obtain ⟨level, hlevel, -⟩ := h
      cases hlevel
  | cons level inner ih =>
      obtain ⟨hfirst, hinner⟩ := List.forall_mem_cons.1 hlevels
      by_cases hle : level.blockBytes.toNat ≤ data.length
      · obtain ⟨bytes, others, hcut, hlength⟩ := exists_cut_of_le hfirst.blockBytes_pos hle
        have hstretches : stretches (level :: inner) data
            = .block level inner bytes :: (others.map (Stretch.block level inner)
              ++ stretches inner (cut level.blockBytes.toNat data).2) := by
          simp [stretches, hcut]
        exact ⟨level, List.mem_cons_self, inner, bytes, _, hstretches, hlength⟩
      -- Too short for the outermost level, the data go on as they are.
      · have hfits : ∃ other ∈ inner, other.blockBytes.toNat ≤ data.length := by
          simpa only [List.exists_mem_cons_iff, hle, false_or] using h
        obtain ⟨other, hmem, rest⟩ := ih hinner hfits
        rw [← stretches_of_lt (Nat.lt_of_not_le hle)] at rest
        exact ⟨other, List.mem_cons_of_mem level hmem, rest⟩

theorem StartsWithBlock.not_plain {levels : List Level} {data bytes : List UInt8}
    (h : StartsWithBlock levels data) : stretches levels data ≠ [.plain bytes] := by
  obtain ⟨level, -, inner, block, later, hstretches, -⟩ := h
  intro hplain
  rw [hplain] at hstretches
  cases hstretches

theorem startsWithBlock_iff {levels : List Level} (hlevels : ∀ level ∈ levels, level.Valid)
    {data : List UInt8} :
    StartsWithBlock levels data ↔ ∃ level ∈ levels, level.blockBytes.toNat ≤ data.length := by
  refine ⟨fun hblock ↦ ?_, startsWithBlock_of_le hlevels⟩
  by_contra hshort
  push Not at hshort
  exact hblock.not_plain (stretches_eq_plain hshort)

theorem stretches_eq_plain_iff {levels : List Level} (hlevels : ∀ level ∈ levels, level.Valid)
    {data : List UInt8} :
    stretches levels data = [.plain data] ↔
      ∀ level ∈ levels, data.length < level.blockBytes.toNat := by
  refine ⟨fun hplain ↦ ?_, stretches_eq_plain⟩
  by_contra hlong
  push Not at hlong
  exact (startsWithBlock_of_le hlevels hlong).not_plain hplain

namespace Plan

/-- The bytes of a block, for each level. -/
def blockSizes (plan : Plan) : Set ℕ :=
  {size | ∃ level ∈ plan.levels, level.blockBytes.toNat = size}

theorem Regular.words_le_of_getLast? {plan : Plan} (h : plan.Regular) {innermost : Level}
    (hlast : plan.levels.getLast? = some innermost) {level : Level} (hlevel : level ∈ plan.levels) :
    innermost.shape.words.toNat ≤ level.shape.words.toNat := by
  obtain ⟨outside, hlevels⟩ := List.getLast?_eq_some_iff.1 hlast
  have hdecreasing := h.decreasing
  rw [hlevels] at hdecreasing hlevel
  obtain ⟨-, -, hbelow⟩ := List.pairwise_append.1 hdecreasing
  rcases List.mem_append.1 hlevel with houtside | hsame
  · have hlt := hbelow level houtside innermost List.mem_cons_self
    exact (UInt64.lt_iff_toNat_lt.1 hlt).le
  · rw [List.mem_singleton.1 hsame]

theorem Regular.isLeast_innermost {plan : Plan} (h : plan.Regular) {innermost : Level}
    (hlast : plan.levels.getLast? = some innermost)
    (hlanes : ∀ level ∈ plan.levels, innermost.shape.lanes.toNat ≤ level.shape.lanes.toNat) :
    IsLeast plan.blockSizes innermost.blockBytes.toNat := by
  have hmem : innermost ∈ plan.levels := List.mem_of_getLast? hlast
  refine ⟨⟨innermost, hmem, rfl⟩, ?_⟩
  rintro size ⟨level, hlevel, rfl⟩
  have hwords := h.words_le_of_getLast? hlast hlevel
  have hvalid := h.valid level hlevel
  have hinnermost := h.valid innermost hmem
  rw [hinnermost.blockBytes_eq, hvalid.blockBytes_eq, hinnermost.laneBytes_eq, hvalid.laneBytes_eq]
  exact Nat.mul_le_mul (hlanes level hlevel) (Nat.mul_le_mul_left wordBytes hwords)

theorem Regular.plain_iff_lt_innermost {plan : Plan} (h : plan.Regular) {innermost : Level}
    (hlast : plan.levels.getLast? = some innermost) :
    (∀ data, stretches plan.levels data = [.plain data] ↔
        data.length < innermost.blockBytes.toNat) ↔
      IsLeast plan.blockSizes innermost.blockBytes.toNat := by
  have hmem : innermost ∈ plan.levels := List.mem_of_getLast? hlast
  constructor
  · intro hthreshold
    refine ⟨⟨innermost, hmem, rfl⟩, ?_⟩
    rintro size ⟨level, hlevel, rfl⟩
    by_contra hlt
    -- As many bytes as fill this smaller block are not split, and yet fill it.
    have hplain := (hthreshold (List.replicate level.blockBytes.toNat 0)).2 (by simpa using hlt)
    have hshort := (stretches_eq_plain_iff h.valid).1 hplain level hlevel
    simp at hshort
  · rintro ⟨-, hleast⟩ data
    rw [stretches_eq_plain_iff h.valid]
    constructor
    · intro hshort
      exact hshort innermost hmem
    · intro hlt level hlevel
      exact hlt.trans_le (hleast ⟨level, hlevel, rfl⟩)

/-- Data are split exactly if they fill a block of some level.  One innermost block of them
always is, but fewer are not only if no block is smaller, as where no level has fewer lanes. -/
theorem split_iff_block_fits {plan : Plan} (hplan : plan.Obtainable) {innermost : Level}
    (hlast : plan.levels.getLast? = some innermost) :
    plan.innermostBlockBytes = some innermost.blockBytes ∧
    (∀ (kernel : Kernel) (register : UInt32) (data : List UInt8),
      kernel.feedAlong plan.levels register data
        = (stretches plan.levels data).foldl (Stretch.feed kernel) register) ∧
    (∀ data, stretches plan.levels data = [.plain data] ↔
      ∀ level ∈ plan.levels, data.length < level.blockBytes.toNat) ∧
    (∀ data, StartsWithBlock plan.levels data ↔
      ∃ level ∈ plan.levels, level.blockBytes.toNat ≤ data.length) ∧
    (∀ data, innermost.blockBytes.toNat ≤ data.length → StartsWithBlock plan.levels data) ∧
    ((∀ data, stretches plan.levels data = [.plain data] ↔
        data.length < innermost.blockBytes.toNat) ↔
      IsLeast plan.blockSizes innermost.blockBytes.toNat) ∧
    ((∀ level ∈ plan.levels, innermost.shape.lanes.toNat ≤ level.shape.lanes.toNat) →
      IsLeast plan.blockSizes innermost.blockBytes.toNat) := by
  have hregular := hplan.regular
  have hmem : innermost ∈ plan.levels := List.mem_of_getLast? hlast
  refine ⟨?_, ?_, fun data ↦ ?_, fun data ↦ ?_, fun data hle ↦ ?_, ?_, ?_⟩
  · simp [innermostBlockBytes, hlast]
  · intro kernel register data
    exact kernel.feedAlong_eq_foldl plan.levels register data
  · exact stretches_eq_plain_iff hregular.valid
  · exact startsWithBlock_iff hregular.valid
  · exact startsWithBlock_of_le hregular.valid ⟨innermost, hmem, hle⟩
  · exact hregular.plain_iff_lt_innermost hlast
  · exact hregular.isLeast_innermost hlast

theorem split_along_standard :
    standard.Obtainable ∧
      standard.levels.getLast? = some (Level.ofShape (defaultShape 64)) ∧
      standard.innermostBlockBytes = some 1536 ∧
      ∀ data, stretches standard.levels data = [.plain data] ↔ data.length < 1536 := by
  have hlast : standard.levels.getLast? = some (Level.ofShape (defaultShape 64)) := rfl
  obtain ⟨hbytes, -, -, -, -, hthreshold, hleast⟩ := split_iff_block_fits obtainable_standard hlast
  have hlanes : ∀ level ∈ standard.levels,
      (Level.ofShape (defaultShape 64)).shape.lanes.toNat ≤ level.shape.lanes.toNat := by
    decide +kernel
  exact ⟨obtainable_standard, hlast, hbytes, hthreshold.2 (hleast hlanes)⟩

/-- Two lanes around eight that are hardly shorter. -/
def twoAroundEight : Plan := ⟨[Level.ofShape ⟨10, 2⟩, Level.ofShape ⟨9, 8⟩]⟩

/-- Fewer bytes than fill the innermost block are split into the two outer lanes. -/
theorem split_below_innermost :
    twoAroundEight.Obtainable ∧ twoAroundEight.innermostBlockBytes = some 576 ∧
      (List.replicate 160 (0 : UInt8)).length < 576 ∧
      StartsWithBlock twoAroundEight.levels (List.replicate 160 0) ∧
      stretches twoAroundEight.levels (List.replicate 160 0) ≠ [.plain (List.replicate 160 0)] := by
  have hplan : twoAroundEight.Obtainable := ⟨.draft ⟨[⟨10, 2⟩, ⟨9, 8⟩]⟩, rfl⟩
  have hsplit : StartsWithBlock twoAroundEight.levels (List.replicate 160 0) := by
    refine startsWithBlock_of_le hplan.valid ⟨Level.ofShape ⟨10, 2⟩, List.mem_cons_self, ?_⟩
    rw [List.length_replicate]
    decide +kernel
  exact ⟨hplan, rfl, by simp, hsplit, hsplit.not_plain⟩

end Plan

end InterleavedCrc
