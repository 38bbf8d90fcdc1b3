import InterleavedCrc.Proofs.Combination
import InterleavedCrc.Proofs.Stream

/-!
# Reductions of parts

The parts of a message are digested apart and their digests joined in pairs, in
any bracketing.  A join of digests digests the concatenation, so the root digests
the message whatever the bracketing (`Reduction.digest_eq`).
-/

namespace InterleavedCrc

theorem combine_bitwiseCrc (running : UInt32) (a b : List UInt8) :
    combine (bitwiseCrc running a) (bitwiseCrc 0 b) b.length = bitwiseCrc running (a ++ b) :=
  combine_not_feed (~~~running) a b

/-- The checksum of some bytes, and how many they are as a machine word. -/
structure Digest where
  crc : UInt32
  length : UInt64
deriving DecidableEq

namespace Digest

def ofBytes (data : List UInt8) : Digest := ⟨bitwiseCrc 0 data, UInt64.ofNat data.length⟩

def append (a b : Digest) : Digest :=
  ⟨combine a.crc b.crc b.length.toNat, a.length + b.length⟩

@[simp] theorem ofBytes_nil : ofBytes [] = ⟨0, 0⟩ := by
  rw [ofBytes, bitwiseCrc_nil]
  rfl

theorem toNat_length_ofBytes {data : List UInt8} (h : data.length < UInt64.size) :
    (ofBytes data).length.toNat = data.length :=
  UInt64.toNat_ofNat_of_lt' h

/-- Only the second length must not wrap for the checksum to be right. -/
theorem append_ofBytes (a : List UInt8) {b : List UInt8} (h : b.length < UInt64.size) :
    (ofBytes a).append (ofBytes b) = ofBytes (a ++ b) := by
  rw [append, toNat_length_ofBytes h]
  simp only [ofBytes, combine_bitwiseCrc, List.length_append, UInt64.ofNat_add]

end Digest

/-- Some bytes, and what their checksum is computed with. -/
structure Part where
  data : List UInt8
  plan : Plan
  backend : Backend

namespace Part

def digest (part : Part) : Digest :=
  ⟨crc32c part.backend.kernel 0 part.data part.plan, UInt64.ofNat part.data.length⟩

theorem digest_eq {part : Part} (hplan : part.plan.Obtainable) :
    part.digest = Digest.ofBytes part.data := by
  rw [digest, crc32c_eq_bitwiseCrc hplan]
  rfl

end Part

/-- A bracketing of parts. -/
inductive Reduction where
  | leaf (part : Part)
  | join (left right : Reduction)

namespace Reduction

def parts : Reduction → List Part
  | leaf part => [part]
  | join left right => left.parts ++ right.parts

def digest : Reduction → Digest
  | leaf part => part.digest
  | join left right => left.digest.append right.digest

/-- The parts of `others` joined one by one to the right of a reduction. -/
def extend (tree : Reduction) (others : List Part) : Reduction :=
  others.foldl (fun tree other ↦ tree.join (leaf other)) tree

theorem parts_extend (tree : Reduction) (others : List Part) :
    (tree.extend others).parts = tree.parts ++ others := by
  induction others generalizing tree with
  | nil => exact (List.append_nil _).symm
  | cons other others ih =>
      have hnext := ih (tree.join (leaf other))
      rw [parts, parts, List.append_assoc] at hnext
      exact hnext

theorem digest_extend (tree : Reduction) (others : List Part) :
    (tree.extend others).digest
      = others.foldl (fun digest other ↦ digest.append other.digest) tree.digest := by
  induction others generalizing tree with
  | nil => rfl
  | cons other others ih => exact ih (tree.join (leaf other))

theorem digest_eq {tree : Reduction} (hplans : ∀ part ∈ tree.parts, part.plan.Obtainable)
    (hlength : (tree.parts.flatMap Part.data).length < UInt64.size) :
    tree.digest = Digest.ofBytes (tree.parts.flatMap Part.data) := by
  induction tree with
  | leaf part =>
      rw [digest, Part.digest_eq (hplans part List.mem_cons_self), parts, List.flatMap_singleton]
  | join left right ihl ihr =>
      rw [parts, List.flatMap_append] at hlength ⊢
      rw [List.length_append] at hlength
      have hleft := ihl (fun part hpart ↦ hplans part (List.mem_append_left _ hpart)) (by omega)
      have hright := ihr (fun part hpart ↦ hplans part (List.mem_append_right _ hpart)) (by omega)
      rw [digest, hleft, hright, Digest.append_ofBytes _ (by omega)]

end Reduction

/-- The digests of the parts appended one by one to that of nothing. -/
def chain (parts : List Part) : Digest :=
  parts.foldl (fun digest part ↦ digest.append part.digest) ⟨0, 0⟩

theorem chain_cons {first : Part} (others : List Part) (hplan : first.plan.Obtainable)
    (hlength : first.data.length < UInt64.size) :
    chain (first :: others) = ((Reduction.leaf first).extend others).digest := by
  have hfirst : Digest.append ⟨0, 0⟩ first.digest = first.digest := by
    rw [Part.digest_eq hplan, ← Digest.ofBytes_nil, Digest.append_ofBytes [] hlength,
      List.nil_append]
  rw [chain, List.foldl_cons, hfirst, Reduction.digest_extend]
  rfl

/-- Every bracketing of the parts has the checksum and the length of their
concatenation at its root, and the chain from zero is one of them. -/
theorem digest_of_bracketing {parts : List Part} (hparts : parts ≠ [])
    (hplans : ∀ part ∈ parts, part.plan.Obtainable)
    (hlength : (parts.map fun part ↦ part.data.length).sum < 2 ^ 64) :
    (∀ tree : Reduction, tree.parts = parts →
      (∀ plan : Plan, plan.Obtainable → ∀ backend : Backend,
        tree.digest.crc = crc32c backend.kernel 0 (parts.flatMap Part.data) plan) ∧
      tree.digest.length.toNat = (parts.flatMap Part.data).length) ∧
    ∃ tree : Reduction, tree.parts = parts ∧ tree.digest = chain parts := by
  have hsize : (parts.flatMap Part.data).length < UInt64.size := by
    rw [List.length_flatMap]
    exact hlength
  constructor
  · rintro tree rfl
    rw [Reduction.digest_eq hplans hsize]
    refine ⟨fun plan hplan backend ↦ ?_, Digest.toNat_length_ofBytes hsize⟩
    exact (crc32c_eq_bitwiseCrc hplan backend 0 _).symm
  · cases parts with
    | nil => exact absurd rfl hparts
    | cons first others =>
        rw [List.flatMap_cons, List.length_append] at hsize
        refine ⟨(Reduction.leaf first).extend others, Reduction.parts_extend _ _, ?_⟩
        exact (chain_cons others (hplans first List.mem_cons_self) (by omega)).symm

/-- The digits in three parts, the middle one empty. -/
def digitParts : List Part :=
  [⟨[0x31, 0x32, 0x33, 0x34], nestedPlan, .sse42⟩, ⟨[], .sequential, .portable⟩,
    ⟨[0x35, 0x36, 0x37, 0x38, 0x39], .standard, .sse42⟩]

theorem digest_of_digitParts :
    digitParts ≠ [] ∧ (∀ part ∈ digitParts, part.plan.Obtainable) ∧
      (digitParts.map fun part ↦ part.data.length).sum < 2 ^ 64 ∧
      (∀ tree : Reduction, tree.parts = digitParts → tree.digest = ⟨0xE3069283, 9⟩) ∧
      chain digitParts = ⟨0xE3069283, 9⟩ := by
  have hne : digitParts ≠ [] := List.cons_ne_nil _ _
  have hplans : ∀ part ∈ digitParts, part.plan.Obtainable := by
    simp only [digitParts, List.forall_mem_cons]
    exact ⟨obtainable_nestedPlan, Plan.obtainable_sequential, Plan.obtainable_standard, by simp⟩
  have hlength : (digitParts.map fun part ↦ part.data.length).sum < 2 ^ 64 := by decide
  obtain ⟨hroot, tree, htree, hchain⟩ := digest_of_bracketing hne hplans hlength
  have hdigest : ∀ tree : Reduction, tree.parts = digitParts →
      tree.digest = ⟨0xE3069283, 9⟩ := by
    intro tree htree
    obtain ⟨hcrc, hbytes⟩ := hroot tree htree
    have hvalue : tree.digest.crc = 0xE3069283 := by
      rw [hcrc .standard Plan.obtainable_standard .portable,
        crc32c_eq_bitwiseCrc Plan.obtainable_standard]
      decide +kernel
    have hnine : tree.digest.length = 9 := UInt64.toNat_inj.1 hbytes
    rw [← hvalue, ← hnine]
  exact ⟨hne, hplans, hlength, hdigest, hchain ▸ hdigest tree htree⟩

end InterleavedCrc
