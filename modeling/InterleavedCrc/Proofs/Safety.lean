import InterleavedCrc.Proofs.AnyPlan
import InterleavedCrc.Proofs.GuardedWalk

/-!
# The walk has no fault

Under guard the walk along a plan at hand gives what it gives without, so no guard ever
fails.  The words of a block are read column by column, but they are the words of the
block, each once; so every byte is read once, and no address leaves the block.
-/

namespace InterleavedCrc.Guarded

open Kernel

/-! ## Where the lock-step loop reads -/

def readStarts (lanes laneBytes : ℕ) (steps : List ℕ) : List ℕ :=
  steps.flatMap fun step ↦ (List.range lanes).map fun lane ↦ lane * laneBytes + wordBytes * step

theorem readStarts_eq_map_product (lanes laneBytes : ℕ) (steps : List ℕ) :
    readStarts lanes laneBytes steps
      = (steps.product (List.range lanes)).map
          fun read ↦ read.2 * laneBytes + wordBytes * read.1 := by
  rw [readStarts, List.product, List.map_flatMap]
  simp only [List.map_map, Function.comp_def]

/-- A lane and a step are told by the number of the word they read. -/
theorem nodup_readStarts (lanes steps : ℕ) :
    (readStarts lanes (wordBytes * steps) (List.range steps)).Nodup := by
  rw [readStarts_eq_map_product]
  refine List.Nodup.map_on ?_ (List.nodup_range.product List.nodup_range)
  rintro ⟨step, lane⟩ hread ⟨step', lane'⟩ hread' heq
  simp only [List.pair_mem_product, List.mem_range] at hread hread'
  have hpos : 0 < steps := by omega
  have hword : steps * lane + step = steps * lane' + step' := by
    have hscale : ∀ i j, i * (wordBytes * steps) + wordBytes * j = wordBytes * (steps * i + j) := by
      intro i j
      ring
    simp only [hscale] at heq
    exact Nat.eq_of_mul_eq_mul_left (by decide) heq
  have hlane : lane = lane' := by
    have h := congrArg (· / steps) hword
    simpa only [Nat.mul_add_div hpos, Nat.div_eq_of_lt hread.1, Nat.div_eq_of_lt hread'.1,
      Nat.add_zero] using h
  subst hlane
  simpa using hword

theorem mem_readStarts {lanes steps word : ℕ} (h : word < lanes * steps) :
    wordBytes * word ∈ readStarts lanes (wordBytes * steps) (List.range steps) := by
  have hpos : 0 < steps := Nat.pos_of_ne_zero (by rintro rfl; simp at h)
  simp only [readStarts, List.mem_flatMap, List.mem_map, List.mem_range]
  refine ⟨word % steps, Nat.mod_lt _ hpos, word / steps, ?_, ?_⟩
  · exact Nat.div_lt_of_lt_mul (by rwa [Nat.mul_comm])
  · have hdiv := Nat.div_add_mod word steps
    rw [Nat.mul_left_comm, ← Nat.mul_add, Nat.mul_comm (word / steps), hdiv]

theorem readOnce_readStarts (lanes steps : ℕ) :
    ReadOnce (lanes * (wordBytes * steps))
      (readStarts lanes (wordBytes * steps) (List.range steps)) := by
  intro byte hbyte
  have hword : byte / wordBytes < lanes * steps := by
    apply Nat.div_lt_of_lt_mul
    rwa [Nat.mul_left_comm] at hbyte
  have hcount : ∀ start ∈ readStarts lanes (wordBytes * steps) (List.range steps),
      (decide (start ≤ byte ∧ byte < start + wordBytes) = true) ↔
        ((start == wordBytes * (byte / wordBytes)) = true) := by
    intro start hstart
    obtain ⟨word, rfl⟩ : wordBytes ∣ start := by
      simp only [readStarts, List.mem_flatMap, List.mem_map] at hstart
      obtain ⟨step, -, lane, -, rfl⟩ := hstart
      exact ⟨lane * steps + step, by ring⟩
    rw [decide_eq_true_iff, beq_iff_eq]
    unfold wordBytes
    omega
  rw [List.countP_congr hcount]
  exact List.count_eq_one_of_mem (nodup_readStarts lanes steps) (mem_readStarts hword)

/-! ## The loops of one block -/

section Block

variable {absorbWord : UInt32 → UInt64 → UInt32} {laneBytes : UInt64} {block : Array UInt8}

theorem read_eq_ok {start : UInt64} (h : start.toNat + wordBytes ≤ block.size) :
    read block start = .ok (wordAt block start.toNat) := by
  rw [read, require_of h]
  rfl

theorem column_eq_ok {start : UInt64} {registers : List UInt32}
    (hread : ∀ lane < registers.length,
      lane * laneBytes.toNat + start.toNat + wordBytes ≤ block.size)
    (hsum : registers.length * laneBytes.toNat + start.toNat < UInt64.size) :
    column absorbWord laneBytes block start registers
      = .ok (stepLanes absorbWord laneBytes.toNat block start.toNat registers,
          (List.range registers.length).map fun lane ↦ lane * laneBytes.toNat + start.toNat) := by
  induction registers generalizing start with
  | nil => rfl
  | cons register registers ih =>
      rw [List.length_cons, Nat.succ_mul] at hsum
      have hnext : start.toNat + laneBytes.toNat < UInt64.size := by
        have := Nat.zero_le (registers.length * laneBytes.toNat)
        omega
      have htoNat := toNat_of_add_eq_ok (add_eq_ok hnext)
      have hshift : ∀ lane, (lane + 1) * laneBytes.toNat + start.toNat
          = lane * laneBytes.toNat + (start + laneBytes).toNat := by
        intro lane
        rw [htoNat, Nat.succ_mul]
        omega
      have hfirst : start.toNat + wordBytes ≤ block.size := by
        simpa using hread 0 (Nat.zero_lt_succ _)
      have hothers := @ih (start + laneBytes)
        (fun lane hlane ↦ hshift lane ▸ hread (lane + 1) (Nat.succ_lt_succ hlane))
        (by rw [htoNat]; omega)
      rw [column, read_eq_ok hfirst, add_eq_ok hnext]
      simp only [ok_bind, hothers, stepLanes, List.mapIdx_cons, List.length_cons,
        List.range_succ_eq_map, List.map_cons, List.map_map, Function.comp_def, hshift,
        Nat.zero_mul, Nat.zero_add]
      rfl

variable {lanes : ℕ} (hblock : block.size = lanes * laneBytes.toNat) (hsize : block.size < 2 ^ 63)

include hblock hsize in
/-- The last address is one lane past the block, and still a machine word. -/
theorem column_eq_ok_of_le {offset : UInt64} (hoffset : offset.toNat + wordBytes ≤ laneBytes.toNat)
    (hpos : 0 < lanes) {registers : List UInt32} (hlanes : registers.length = lanes) :
    column absorbWord laneBytes block offset registers
      = .ok (stepLanes absorbWord laneBytes.toNat block offset.toNat registers,
          (List.range lanes).map fun lane ↦ lane * laneBytes.toNat + offset.toNat) := by
  have hle : laneBytes.toNat ≤ lanes * laneBytes.toNat := Nat.le_mul_of_pos_left _ hpos
  subst hlanes
  refine column_eq_ok (fun lane hlane ↦ ?_) ?_
  · have hlast := Nat.mul_le_mul_right laneBytes.toNat (Nat.succ_le_of_lt hlane)
    rw [Nat.succ_mul] at hlast
    omega
  · have hwords : UInt64.size = 2 ^ 63 + 2 ^ 63 := rfl
    omega

include hblock hsize in
/-- The loop from `step` on, when the lanes are `step + rest` words long. -/
theorem columns_eq_ok (hpos : 0 < lanes) {step rest : ℕ} {offset : UInt64}
    (hoffset : offset.toNat = wordBytes * step)
    (hlane : laneBytes.toNat = wordBytes * (step + rest)) {registers : List UInt32}
    (hlanes : registers.length = lanes) (starts : List ℕ) :
    columns absorbWord laneBytes block offset registers starts
      = .ok ((List.range' step rest).foldl
            (fun registers step ↦
              stepLanes absorbWord laneBytes.toNat block (wordBytes * step) registers) registers,
          starts ++ readStarts lanes laneBytes.toNat (List.range' step rest)) := by
  induction rest generalizing step offset registers starts with
  | zero =>
      have hend : ¬ offset < laneBytes := by
        rw [UInt64.lt_iff_toNat_lt, hoffset, hlane]
        simp
      rw [columns, dif_neg hend]
      simp [readStarts]
  | succ rest ih =>
      have hword : offset.toNat + wordBytes ≤ laneBytes.toNat := by
        rw [hoffset, hlane]
        unfold wordBytes
        omega
      have hlt : offset < laneBytes := by
        rw [UInt64.lt_iff_toNat_lt]
        exact Nat.lt_of_lt_of_le (Nat.lt_add_of_pos_right (by decide)) hword
      have hadd : offset.toNat + 8 < UInt64.size := by
        have hle : laneBytes.toNat ≤ lanes * laneBytes.toNat := Nat.le_mul_of_pos_left _ hpos
        have hwords : UInt64.size = 2 ^ 63 + 2 ^ 63 := rfl
        unfold wordBytes at hword
        omega
      have hnext : (offset + 8).toNat = wordBytes * (step + 1) := by
        rw [toNat_of_add_eq_ok (add_eq_ok hadd), hoffset]
        rfl
      rw [columns_of_lt hlt hadd (column_eq_ok_of_le hblock hsize hword hpos hlanes),
        ih hnext (by rw [hlane]; ring) (by rw [length_stepLanes, hlanes]), hoffset,
        List.range'_succ]
      simp [readStarts]

end Block

/-- A block of an accepted level is read word by word, each word at its place in its
lane, and the lanes are those of the walk without guards. -/
theorem columns_of_block (kernel : Kernel) {level : Level} (hlevel : level.Valid)
    (register : UInt32) {block : List UInt8} (hlen : block.length = level.blockBytes.toNat)
    (hsize : block.length < 2 ^ 63) :
    columns kernel.absorbWord level.laneBytes block.toArray 0
        (seedLanes level.shape.lanes.toNat register) []
      = .ok (laneRegisters kernel.absorbWord level.shape.lanes.toNat level.laneBytes.toNat register
            block.toArray,
          readStarts level.shape.lanes.toNat level.laneBytes.toNat
            (List.range (level.laneBytes.toNat / wordBytes))) := by
  obtain ⟨steps, hsteps⟩ := hlevel.wordBytes_dvd_laneBytes
  have hcount : level.laneBytes.toNat / wordBytes = steps := by
    rw [hsteps, Nat.mul_div_cancel_left _ (by decide)]
  have hblock : block.toArray.size = level.shape.lanes.toNat * level.laneBytes.toNat := by
    rw [List.size_toArray, hlen, hlevel.blockBytes_eq]
  have hstart : (0 : UInt64).toNat = wordBytes * 0 := rfl
  have hlane : level.laneBytes.toNat = wordBytes * (0 + steps) := by rw [Nat.zero_add, hsteps]
  rw [columns_eq_ok hblock hsize hlevel.lanes_pos hstart hlane (length_seedLanes _ _) [],
    laneRegisters, hcount, List.range_eq_range', List.nil_append]

/-- In lanes of a word and a half the second word of the last lane is not in the block. -/
example : (columns (fun register _ ↦ register) 12 (Array.replicate 24 0) 0 [0, 0] []).map Prod.snd
    = .error .outsideBlock := by
  decide +kernel

/-! ## The walk -/

section Levels

variable {kernel : Kernel} {level : Level} {block : List UInt8}

theorem cutInto_eq_ok {n : UInt64} (h : 0 < n.toNat) (data : List UInt8) :
    cutInto n data = .ok (cut n.toNat data) := by
  have hne : n ≠ 0 := by
    rintro rfl
    exact absurd h (by decide)
  rw [cutInto, require_of hne]
  rfl

theorem mul_eq_ok {a b : UInt64} (h : a.toNat * b.toNat < UInt64.size) : mul a b = .ok (a * b) := by
  rw [mul, require_of h]
  rfl

theorem lockstep_eq_ok (hlevel : level.Valid) (register : UInt32)
    (hlen : block.length = level.blockBytes.toNat) (hsize : block.length < 2 ^ 63) :
    lockstep kernel level.shape.lanes level register block
      = .ok (kernel.feedLockstep level register block) := by
  have hproduct : level.shape.lanes.toNat * level.laneBytes.toNat < UInt64.size := by
    rw [← hlevel.blockBytes_eq]
    exact level.blockBytes.toNat_lt
  have hlength : block.length = (level.shape.lanes * level.laneBytes).toNat := by
    rw [hlen, hlevel.blockBytes_eq, UInt64.toNat_mul]
    exact (Nat.mod_eq_of_lt hproduct).symm
  have hread : ReadOnce block.length (readStarts level.shape.lanes.toNat level.laneBytes.toNat
      (List.range (level.laneBytes.toNat / wordBytes))) := by
    obtain ⟨steps, hsteps⟩ := hlevel.wordBytes_dvd_laneBytes
    rw [hlen, hlevel.blockBytes_eq, hsteps, Nat.mul_div_cancel_left _ (by decide)]
    exact readOnce_readStarts _ steps
  have hlanes : laneRegisters kernel.absorbWord level.shape.lanes.toNat level.laneBytes.toNat
      register block.toArray ≠ [] := by
    apply List.ne_nil_of_length_pos
    rw [length_laneRegisters]
    exact hlevel.lanes_pos
  rw [lockstep, mul_eq_ok hproduct]
  simp only [ok_bind, require_of hlength, columns_of_block kernel hlevel register hlen hsize,
    require_of hread, merge, require_of hlanes]
  rfl

theorem innermost_eq_ok (hlevel : level.Valid) (register : UInt32)
    (hlen : block.length = level.blockBytes.toNat) (hsize : block.length < 2 ^ 63) :
    innermost kernel level register block = .ok (kernel.feedInnermost level register block) := by
  rw [innermost, require_of hlevel.lanes_between, ok_bind,
    lockstep_eq_ok hlevel register hlen hsize, feedInnermost, if_pos hlevel.lanes_between]

theorem foldlM_eq_ok {α β : Type} {f : β → α → Except Fault β} {g : β → α → β} {items : List α}
    (h : ∀ item ∈ items, ∀ value, f value item = .ok (g value item)) (value : β) :
    items.foldlM f value = .ok (items.foldl g value) := by
  induction items generalizing value with
  | nil => rfl
  | cons item items ih =>
      rw [List.foldlM_cons, h item List.mem_cons_self, ok_bind]
      exact ih (fun other hother ↦ h other (List.mem_cons_of_mem item hother)) _

theorem outer_eq_ok (hlevel : level.Valid) {guarded : UInt32 → List UInt8 → Except Fault UInt32}
    {inside : UInt32 → List UInt8 → UInt32}
    (hinside : ∀ register (lane : List UInt8), lane.length ≤ block.length →
      guarded register lane = .ok (inside register lane))
    (register : UInt32) (hlen : block.length = level.blockBytes.toNat) :
    outer level guarded register block = .ok (feedOuter level inside register block) := by
  obtain ⟨first, others, hcut, -⟩ := exists_lanes hlevel hlen
  have hlane : ∀ lane ∈ first :: others, ∀ register,
      guarded register lane = .ok (inside register lane) := by
    intro lane hmem register
    refine hinside register lane ?_
    rw [length_of_mem_cut (hcut ▸ hmem), hlen, hlevel.blockBytes_eq]
    exact Nat.le_mul_of_pos_left _ hlevel.lanes_pos
  have hmerge : ∀ lane ∈ others, ∀ merged : UInt32,
      (do let register ← guarded 0 lane; return level.pastLane.apply merged ^^^ register)
        = Except.ok (level.pastLane.apply merged ^^^ inside 0 lane) := by
    intro lane hmem merged
    rw [hlane lane (List.mem_cons_of_mem first hmem)]
    rfl
  rw [outer, cutInto_eq_ok hlevel.laneBytes_pos, ok_bind, feedOuter]
  simp only [hcut, hlane first List.mem_cons_self, ok_bind, foldlM_eq_ok hmerge,
    ZeroExtension.merge, List.foldl_map]

theorem along_eq_ok {levels : List Level} (hlevels : ∀ level ∈ levels, level.Valid)
    (register : UInt32) {data : List UInt8} (hsize : data.length < 2 ^ 63) :
    along kernel levels register data = .ok (kernel.feedAlong levels register data) := by
  induction levels generalizing register data with
  | nil => rfl
  | cons level inner ih =>
      have hlevel : level.Valid := hlevels level List.mem_cons_self
      have hinner := fun register data ↦
        @ih (fun other ho ↦ hlevels other (List.mem_cons_of_mem level ho)) register data
      have hpos : 0 < level.blockBytes.toNat := by
        rw [hlevel.blockBytes_eq]
        exact Nat.mul_pos hlevel.lanes_pos hlevel.laneBytes_pos
      have hblock : ∀ block ∈ (cut level.blockBytes.toNat data).1, ∀ register,
          (if inner.isEmpty then innermost kernel level else outer level (along kernel inner))
              register block
            = .ok ((if inner.isEmpty then kernel.feedInnermost level
                else feedOuter level (kernel.feedAlong inner)) register block) := by
        intro block hmem register
        have hlen := length_of_mem_cut hmem
        -- No part of the data is longer than the data, at whatever level.
        have hshort : block.length < 2 ^ 63 :=
          Nat.lt_of_le_of_lt (length_le_of_mem_cut hmem) hsize
        split
        · exact innermost_eq_ok hlevel register hlen hshort
        · exact outer_eq_ok hlevel
            (fun register lane hlane ↦ hinner register lane (Nat.lt_of_le_of_lt hlane hshort))
            register hlen
      have hrest : (cut level.blockBytes.toNat data).2.length < 2 ^ 63 := by
        rw [length_rest_cut]
        exact Nat.lt_of_le_of_lt (Nat.mod_le _ _) hsize
      rw [along, cutInto_eq_ok hpos, ok_bind]
      simp only [foldlM_eq_ok hblock, ok_bind, hinner _ _ hrest]
      rfl

end Levels

end InterleavedCrc.Guarded

namespace InterleavedCrc

theorem walk_has_no_fault {plan : Plan} (hplan : plan.Obtainable) (kernel : Kernel)
    (register : UInt32) {data : List UInt8} (hdata : data.length ≤ 2 ^ 63 - 1) :
    Guarded.along kernel plan.levels register data
        = .ok (kernel.feedAlong plan.levels register data) ∧
      ∀ level ∈ plan.levels, ∀ (register : UInt32) (block : List UInt8),
        block.length = level.blockBytes.toNat → block.length ≤ 2 ^ 63 - 1 →
          Guarded.columns kernel.absorbWord level.laneBytes block.toArray 0
              (Kernel.seedLanes level.shape.lanes.toNat register) []
            = .ok (Kernel.laneRegisters kernel.absorbWord level.shape.lanes.toNat
                level.laneBytes.toNat register block.toArray,
              Guarded.readStarts level.shape.lanes.toNat level.laneBytes.toNat
                (List.range (level.laneBytes.toNat / wordBytes))) :=
  ⟨Guarded.along_eq_ok hplan.valid register (Nat.lt_of_le_pred (by decide) hdata),
    fun _level hlevel register _block hlen hblock ↦
      Guarded.columns_of_block kernel (hplan.valid _ hlevel) register hlen
        (Nat.lt_of_le_pred (by decide) hblock)⟩

def unevenPlan : Plan := ⟨[Level.ofShape ⟨6, 2⟩, Level.ofShape ⟨2, 3⟩]⟩

theorem reads_along_unevenPlan :
    unevenPlan.Obtainable ∧
      Guarded.along Backend.sse42.kernel unevenPlan.levels 7 (List.replicate 101 0x5A)
        = .ok (Backend.sse42.kernel.feedAlong unevenPlan.levels 7 (List.replicate 101 0x5A)) ∧
      (Guarded.columns Backend.sse42.kernel.absorbWord 16 (List.replicate 48 0x5A).toArray 0
          (Kernel.seedLanes 3 7) []).map Prod.snd
        = .ok [0, 16, 32, 8, 24, 40] := by
  have hplan : unevenPlan.Obtainable := ⟨.draft ⟨[⟨6, 2⟩, ⟨2, 3⟩]⟩, rfl⟩
  have hdata : (List.replicate 101 (0x5A : UInt8)).length ≤ 2 ^ 63 - 1 := by simp
  obtain ⟨halong, hreads⟩ := walk_has_no_fault hplan Backend.sse42.kernel 7 hdata
  have hinner := hreads (Level.ofShape ⟨2, 3⟩) (List.mem_cons_of_mem _ List.mem_cons_self) 7
    (List.replicate 48 0x5A) (by simp; rfl) (by simp)
  exact ⟨hplan, halong, congrArg (Except.map Prod.snd) hinner⟩

end InterleavedCrc
