import InterleavedCrc.Proofs.Dispatch
import Mathlib

/-!
# Capabilities as sets of features

A capability set stands for the set of its features, the numbers of the bits that are set, and
tells no more (`Capabilities.features_injective`).  Whatever operations lead to it, the same
ones on sets lead to its features (`Capabilities.features_run`), and what is asked of it is
answered by them.  More features never select a backend that comes later.
-/

namespace InterleavedCrc

namespace Capabilities

def features (held : Capabilities) : Finset (Fin 64) :=
  Finset.univ.filter fun n ↦ held.contains n

@[simp] theorem mem_features {held : Capabilities} {n : Fin 64} :
    n ∈ held.features ↔ held.contains n := by
  rw [features, Finset.mem_filter_univ]

theorem features_injective : Function.Injective features := by
  intro a b h
  refine ext_contains fun n hn ↦ ?_
  have hmem : (⟨n, hn⟩ : Fin 64) ∈ a.features ↔ (⟨n, hn⟩ : Fin 64) ∈ b.features := by rw [h]
  rw [mem_features, mem_features] at hmem
  exact Bool.eq_iff_iff.2 hmem

theorem includes_iff_subset {held required : Capabilities} :
    held.includes required ↔ required.features ⊆ held.features := by
  rw [includes_iff]
  constructor
  · intro h n hn
    exact mem_features.2 (h n n.isLt (mem_features.1 hn))
  · intro h n hn hrequired
    have hmem : (⟨n, hn⟩ : Fin 64) ∈ required.features := mem_features.2 hrequired
    exact mem_features.1 (h hmem)

/-! ## Operations -/

@[simp] theorem features_union (a b : Capabilities) :
    (a.union b).features = a.features ∪ b.features := by
  ext n
  simp

@[simp] theorem features_or (a b : Capabilities) :
    (a ||| b).features = a.features ∪ b.features := by
  rw [or_eq_union, features_union]

@[simp] theorem features_difference (a b : Capabilities) :
    (a.difference b).features = a.features \ b.features := by
  ext n
  simp

@[simp] theorem features_bit (n : Fin 64) : (bit n).features = {n} := by
  ext m
  simp [Fin.ext_iff, eq_comm]

/-- The digits of a word that are one in base two. -/
def binaryDigits (word : UInt64) : Finset (Fin 64) :=
  Finset.univ.filter fun n ↦ word.toNat / 2 ^ n.val % 2 = 1

@[simp] theorem features_mk (word : UInt64) : features ⟨word⟩ = binaryDigits word := by
  ext n
  rw [mem_features, binaryDigits, Finset.mem_filter_univ, contains,
    Nat.testBit_eq_decide_div_mod_eq, decide_eq_true_iff]

/-- What is put into a slot, formed from what is in other slots. -/
inductive Operation where
  | ofWord (word : UInt64)
  | bit (n : Fin 64)
  | union (a b : ℕ)
  | or (a b : ℕ)
  /-- Joins what is in another slot to what is in this one. -/
  | orAssign (b : ℕ)
  | difference (a b : ℕ)

structure Step where
  slot : ℕ
  operation : Operation

/-- What the operations are on values of some kind. -/
structure Interpretation (α : Type) where
  ofWord : UInt64 → α
  bit : Fin 64 → α
  union : α → α → α
  or : α → α → α
  difference : α → α → α

namespace Interpretation

variable {α : Type}

def words : Interpretation Capabilities :=
  ⟨Capabilities.mk, Capabilities.bit, Capabilities.union, (· ||| ·), Capabilities.difference⟩

def sets : Interpretation (Finset (Fin 64)) :=
  ⟨binaryDigits, fun n ↦ {n}, (· ∪ ·), (· ∪ ·), (· \ ·)⟩

def value (on : Interpretation α) (slots : ℕ → α) (slot : ℕ) : Operation → α
  | .ofWord word => on.ofWord word
  | .bit n => on.bit n
  | .union a b => on.union (slots a) (slots b)
  | .or a b => on.or (slots a) (slots b)
  | .orAssign b => on.or (slots slot) (slots b)
  | .difference a b => on.difference (slots a) (slots b)

def step (on : Interpretation α) (slots : ℕ → α) (step : Step) : ℕ → α :=
  Function.update slots step.slot (on.value slots step.slot step.operation)

def run (on : Interpretation α) (slots : ℕ → α) (steps : List Step) : ℕ → α :=
  steps.foldl on.step slots

end Interpretation

theorem features_value (slots : ℕ → Capabilities) (slot : ℕ) (operation : Operation) :
    (Interpretation.words.value slots slot operation).features
      = Interpretation.sets.value (features ∘ slots) slot operation := by
  cases operation with
  | ofWord word => exact features_mk word
  | bit n => exact features_bit n
  | union a b => exact features_union _ _
  | or a b => exact features_or _ _
  | orAssign b => exact features_or _ _
  | difference a b => exact features_difference _ _

theorem features_step (slots : ℕ → Capabilities) (step : Step) :
    features ∘ Interpretation.words.step slots step
      = Interpretation.sets.step (features ∘ slots) step := by
  rw [Interpretation.step, Function.comp_update, features_value]
  rfl

theorem features_run (slots : ℕ → Capabilities) (steps : List Step) :
    features ∘ Interpretation.words.run slots steps
      = Interpretation.sets.run (features ∘ slots) steps := by
  induction steps generalizing slots with
  | nil => rfl
  | cons step steps ih =>
      have hrest := ih (Interpretation.words.step slots step)
      rw [features_step] at hrest
      exact hrest

/-! ## Questions -/

theorem map_val_features (held : Capabilities) :
    held.features.map Fin.valEmbedding = (Finset.range 64).filter (held.contains ·) := by
  ext n
  simp only [Finset.mem_map, mem_features, Fin.valEmbedding_apply, Finset.mem_filter,
    Finset.mem_range]
  constructor
  · rintro ⟨feature, hheld, rfl⟩
    exact ⟨feature.isLt, hheld⟩
  · rintro ⟨hn, hheld⟩
    exact ⟨⟨n, hn⟩, hheld, rfl⟩

theorem count_eq_card (held : Capabilities) : held.count = held.features.card := by
  rw [← Finset.card_map Fin.valEmbedding, map_val_features, ← Nat.count_eq_card_filter_range]
  simp [Nat.count, count]

/-- The word is the number whose binary digits are the features. -/
theorem toNat_word_eq_sum (held : Capabilities) :
    held.word.toNat = ∑ n ∈ held.features, 2 ^ n.val := by
  have hbits : held.features.map Fin.valEmbedding = held.word.toNat.bitIndices.toFinset := by
    rw [map_val_features]
    ext n
    rw [Finset.mem_filter, Finset.mem_range, List.mem_toFinset, Nat.mem_bitIndices]
    refine ⟨And.right, fun hheld ↦ ⟨?_, hheld⟩⟩
    by_contra hn
    have hnot := held.contains_of_ge (Nat.le_of_not_lt hn)
    exact Bool.false_ne_true (hnot.symm.trans hheld)
  calc held.word.toNat = ∑ n ∈ held.word.toNat.bitIndices.toFinset, 2 ^ n :=
        (Finset.sum_toFinset_bitIndices_two_pow _).symm
    _ = ∑ n ∈ held.features, 2 ^ n.val := by rw [← hbits, Finset.sum_map]; rfl

@[simp] theorem features_empty : features empty = ∅ := by
  decide

theorem isEmpty_iff {held : Capabilities} : held.isEmpty ↔ held.features = ∅ := by
  rw [← features_empty, features_injective.eq_iff, isEmpty, decide_eq_true_iff]
  obtain ⟨word⟩ := held
  simp [empty]

theorem names_eq (held : Capabilities) :
    held.names = (if 0 ∈ held.features then ["sse4.2"] else [])
      ++ (if 32 ∈ held.features then ["crc"] else []) := by
  have hsse : held.includes sse42 = held.contains 0 := held.includes_bit 0
  have hcrc : held.includes crcExtension = held.contains 32 := held.includes_bit 32
  have h0 : (0 : Fin 64) ∈ held.features ↔ held.contains 0 := mem_features
  have h32 : (32 : Fin 64) ∈ held.features ↔ held.contains 32 := mem_features
  rw [names, named, List.filter_cons, List.filter_cons, List.filter_nil, hsse, hcrc]
  simp only [h0, h32]
  cases held.contains 0 <;> cases held.contains 32 <;> rfl

theorem count_union_bit {held : Capabilities} {n : Fin 64} (h : n ∉ held.features) :
    (held.union (bit n)).count = held.count + 1 := by
  rw [count_eq_card, count_eq_card, features_union, features_bit, Finset.union_singleton,
    Finset.card_insert_of_notMem h]

/-- Only two features have names. -/
theorem names_union_bit (held : Capabilities) {n : Fin 64} (h0 : n ≠ 0) (h32 : n ≠ 32) :
    (held.union (bit n)).names = held.names := by
  rw [names_eq, names_eq, features_union, features_bit]
  simp [h0.symm, h32.symm]

theorem includes_iff_union_eq {held required : Capabilities} :
    held.includes required ↔ held.union required = held := by
  rw [includes_iff_subset, ← features_injective.eq_iff, features_union, Finset.union_eq_left]

instance : IsPartialOrder Capabilities fun held required ↦ held.includes required where
  refl held := includes_iff_subset.2 (Finset.Subset.refl held.features)
  trans _ _ _ hab hbc :=
    includes_iff_subset.2 ((includes_iff_subset.1 hbc).trans (includes_iff_subset.1 hab))
  antisymm _ _ hab hba :=
    features_injective ((includes_iff_subset.1 hba).antisymm (includes_iff_subset.1 hab))

/-- The first requirement of a list to be met comes no later. -/
theorem findIdx_includes_le {a b : Capabilities} (h : a.includes b)
    (requirements : List Capabilities) :
    requirements.findIdx a.includes ≤ requirements.findIdx b.includes :=
  List.findIdx_le_findIdx fun _ _ hmet ↦
    trans_of (fun held required : Capabilities ↦ held.includes required) h hmet

theorem idxOf_select (held : Capabilities) :
    Backend.candidates.idxOf (Backend.select held)
      = (Backend.candidates.map Backend.requires).findIdx held.includes := by
  have hsse : held.includes Backend.sse42.requires = held.contains 0 := held.includes_sse42
  have hportable : held.includes Backend.portable.requires = true :=
    includes_iff_subset.2 (by simp [Backend.requires])
  rw [Backend.select_eq, Backend.candidates, List.map_cons, List.findIdx_cons, hsse, List.map_cons,
    List.findIdx_cons, hportable]
  cases held.contains 0 <;> rfl

/-- Capability sets are the sets of their features, in what is formed of them, in what is asked
of them and in what they include.  The more one includes, the earlier is its backend. -/
theorem capabilities_are_sets :
    (∀ (slots : ℕ → Capabilities) (steps : List Step) (slot : ℕ),
      (Interpretation.words.run slots steps slot).features
        = Interpretation.sets.run (features ∘ slots) steps slot) ∧
    (∀ held : Capabilities,
      held.word.toNat = ∑ n ∈ held.features, 2 ^ n.val ∧
      held.count = held.features.card ∧
      (held.isEmpty ↔ held.features = ∅) ∧
      held.names = (if 0 ∈ held.features then ["sse4.2"] else [])
        ++ (if 32 ∈ held.features then ["crc"] else []) ∧
      ∀ n : Fin 64, n ∉ held.features → n ≠ 0 → n ≠ 32 →
        (held.union (bit n)).count = held.count + 1 ∧ (held.union (bit n)).names = held.names) ∧
    (IsPartialOrder Capabilities fun held required ↦ held.includes required) ∧
    ∀ a b : Capabilities,
      (a.includes b ↔ b.features ⊆ a.features) ∧
      (a.includes b ↔ a.union b = a) ∧
      (a = b ↔ a.features = b.features) ∧
      (a.includes b →
        (∀ requirements : List Capabilities,
          requirements.findIdx a.includes ≤ requirements.findIdx b.includes) ∧
        Backend.candidates.idxOf (Backend.select a)
          ≤ Backend.candidates.idxOf (Backend.select b)) := by
  refine ⟨fun slots steps slot ↦ ?_, fun held ↦ ⟨?_, ?_, ?_, ?_, fun n hn h0 h32 ↦ ⟨?_, ?_⟩⟩, ?_,
    fun a b ↦ ⟨?_, ?_, ?_, fun hab ↦ ⟨?_, ?_⟩⟩⟩
  · exact congrFun (features_run slots steps) slot
  · exact toNat_word_eq_sum held
  · exact count_eq_card held
  · exact isEmpty_iff
  · exact names_eq held
  · exact count_union_bit hn
  · exact names_union_bit held h0 h32
  · infer_instance
  · exact includes_iff_subset
  · exact includes_iff_union_eq
  · exact features_injective.eq_iff.symm
  · exact findIdx_includes_le hab
  · rw [idxOf_select, idxOf_select]
    exact findIdx_includes_le hab _

/-- The features 0, 2 and 32 in slot 1, and all of these but one in slot 2; then they are joined
to that one alone. -/
def threeSlots (n : Fin 64) : List Step :=
  [⟨0, .bit n⟩, ⟨1, .ofWord 0x100000005⟩, ⟨2, .difference 1 0⟩, ⟨0, .orAssign 2⟩]

theorem sets_of_threeSlots :
    let slots := Interpretation.words.run (fun _ ↦ empty) (threeSlots 0)
    (slots 2).features = {2, 32} ∧ slots 0 = slots 1 ∧ (slots 2).count = 2 ∧
      (slots 2).names = ["crc"] ∧ 7 ∉ (slots 2).features ∧
      ((slots 2).union (bit 7)).count = 3 ∧ ((slots 2).union (bit 7)).names = ["crc"] ∧
      (slots 0).includes (slots 2) ∧
      Backend.candidates.idxOf (Backend.select (slots 0))
        ≤ Backend.candidates.idxOf (Backend.select (slots 2)) := by
  intro slots
  obtain ⟨hrun, hheld, -, hpair⟩ := capabilities_are_sets
  have hfeatures : ∀ slot, (slots slot).features
      = Interpretation.sets.run (features ∘ fun _ ↦ empty) (threeSlots 0) slot :=
    hrun (fun _ ↦ empty) (threeSlots 0)
  have h0 : (slots 0).features = {0, 2, 32} := (hfeatures 0).trans (by decide +kernel)
  have h1 : (slots 1).features = {0, 2, 32} := (hfeatures 1).trans (by decide +kernel)
  have h2 : (slots 2).features = {2, 32} := (hfeatures 2).trans (by decide +kernel)
  obtain ⟨-, hcount, -, hnames, hmore⟩ := hheld (slots 2)
  obtain ⟨hincludes, -, -, hselect⟩ := hpair (slots 0) (slots 2)
  have h7 : 7 ∉ (slots 2).features := by
    rw [h2]
    decide
  have htwo : (slots 2).count = 2 := by
    rw [hcount, h2]
    decide
  have hcrc : (slots 2).names = ["crc"] := by
    rw [hnames, h2]
    decide
  have hsubset : (slots 0).includes (slots 2) := by
    rw [hincludes, h0, h2]
    decide
  obtain ⟨hthree, hsame⟩ := hmore 7 h7 (by decide) (by decide)
  refine ⟨h2, ?_, htwo, hcrc, h7, ?_, ?_, hsubset, (hselect hsubset).2⟩
  · exact (hpair (slots 0) (slots 1)).2.2.1.2 (h0.trans h1.symm)
  · rw [hthree, htwo]
  · rw [hsame, hcrc]

end Capabilities

end InterleavedCrc
