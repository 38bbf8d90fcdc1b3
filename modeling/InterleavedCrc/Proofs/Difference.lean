import InterleavedCrc.Proofs.AnyPlan

/-!
# Messages that differ

Two messages of one length leave equal registers exactly when the generator divides
the difference of their polynomials.  Bit `j` of byte `i` stands at position `8i + j`
of a message.
-/

namespace InterleavedCrc

open Polynomial

def bitAt (data : List UInt8) (position : ℕ) : Bool :=
  (data.getD (position / 8) 0).toBitVec.getLsbD (position % 8)

theorem bitAt_cons_of_lt (byte : UInt8) (rest : List UInt8) {position : ℕ} (h : position < 8) :
    bitAt (byte :: rest) position = byte.toBitVec.getLsbD position := by
  simp [bitAt, Nat.div_eq_of_lt h, Nat.mod_eq_of_lt h]

@[simp] theorem bitAt_cons_add_eight (byte : UInt8) (rest : List UInt8) (position : ℕ) :
    bitAt (byte :: rest) (position + 8) = bitAt rest position := by
  simp [bitAt]

theorem bitAt_append_of_lt {a : List UInt8} (b : List UInt8) {position : ℕ}
    (h : position < 8 * a.length) : bitAt (a ++ b) position = bitAt a position := by
  rw [bitAt, bitAt, List.getD_append _ _ _ _ (by omega)]

theorem bitAt_append_add (a b : List UInt8) (position : ℕ) :
    bitAt (a ++ b) (8 * a.length + position) = bitAt b position := by
  have hbyte : (8 * a.length + position) / 8 - a.length = position / 8 := by omega
  have hbit : (8 * a.length + position) % 8 = position % 8 := by omega
  rw [bitAt, bitAt, List.getD_append_right _ _ _ _ (by omega), hbyte, hbit]

@[simp] theorem bitAt_zeros (n position : ℕ) : bitAt (List.replicate n 0) position = false := by
  by_cases h : position / 8 < n
  · simp [bitAt, h]
  · simp [bitAt, Nat.le_of_not_lt h]

theorem getD_bitStream (data : List UInt8) (position : ℕ) :
    (bitStream data).getD position false = bitAt data position := by
  induction data generalizing position with
  | nil => simp [bitStream, bitAt]
  | cons byte rest ih =>
      have hstream : bitStream (byte :: rest) = byteBits byte ++ bitStream rest := rfl
      rw [hstream]
      by_cases hposition : position < 8
      · rw [List.getD_append _ _ _ _ (by simpa using hposition),
          bitAt_cons_of_lt byte rest hposition]
        simp [byteBits, hposition]
      · obtain ⟨next, rfl⟩ := Nat.exists_eq_add_of_le' (Nat.le_of_not_lt hposition)
        rw [List.getD_append_right _ _ _ _ (by simp), bitAt_cons_add_eight, ← ih next]
        simp

theorem coeff_messagePoly {data : List UInt8} {position i : ℕ}
    (h : position + (i + 1) = 8 * data.length) :
    (messagePoly data).coeff i = coefficient (bitAt data position) := by
  have hi : i < (bitStream data).reverse.length := by simp; omega
  rw [messagePoly, coeff_streamPoly, List.getD_eq_getElem _ _ hi, List.getElem_reverse,
    ← getD_bitStream, List.getD_eq_getElem _ _ (by simp; omega)]
  congr 2
  simp
  omega

theorem coeff_messagePoly_of_ge {data : List UInt8} {i : ℕ} (h : 8 * data.length ≤ i) :
    (messagePoly data).coeff i = 0 := by
  rw [messagePoly, coeff_streamPoly, List.getD_eq_default _ _ (by simpa using h),
    coefficient_false]

/-- A coefficient of the difference is a position where the messages differ. -/
theorem exists_position_of_coeff_ne_zero {a b : List UInt8} (hlen : a.length = b.length) {i : ℕ}
    (h : (messagePoly a - messagePoly b).coeff i ≠ 0) :
    ∃ position, position + (i + 1) = 8 * a.length ∧ bitAt a position ≠ bitAt b position := by
  rw [coeff_sub, sub_ne_zero] at h
  have hi : i < 8 * a.length := by
    by_contra hge
    rw [coeff_messagePoly_of_ge (by omega), coeff_messagePoly_of_ge (by omega)] at h
    exact h rfl
  obtain ⟨position, hposition⟩ : ∃ position, position + (i + 1) = 8 * a.length :=
    ⟨8 * a.length - (i + 1), by omega⟩
  rw [coeff_messagePoly hposition, coeff_messagePoly (hlen ▸ hposition)] at h
  exact ⟨position, hposition, fun hbit ↦ h (congrArg coefficient hbit)⟩

theorem lt_of_bitAt {data : List UInt8} {position : ℕ} (h : bitAt data position = true) :
    position < 8 * data.length := by
  by_contra hge
  have hbyte : data.length ≤ position / 8 := by omega
  rw [bitAt, List.getD_eq_default _ _ hbyte] at h
  simp at h

theorem lt_of_bitAt_ne {a b : List UInt8} (hlen : a.length = b.length) {position : ℕ}
    (h : bitAt a position ≠ bitAt b position) : position < 8 * a.length := by
  rcases Bool.eq_false_or_eq_true (bitAt a position) with ha | ha
  · exact lt_of_bitAt ha
  · rw [hlen]
    exact lt_of_bitAt (Bool.eq_true_of_not_eq_false fun hb ↦ h (ha.trans hb.symm))

theorem messagePoly_ne {a b : List UInt8} (hlen : a.length = b.length) {position : ℕ}
    (h : bitAt a position ≠ bitAt b position) : messagePoly a ≠ messagePoly b := by
  obtain ⟨i, hi⟩ : ∃ i, position + (i + 1) = 8 * a.length := by
    have hposition := lt_of_bitAt_ne hlen h
    exact ⟨8 * a.length - (position + 1), by omega⟩
  intro heq
  have hcoeff := congrArg (fun p : (ZMod 2)[X] ↦ p.coeff i) heq
  simp only [coeff_messagePoly hi, coeff_messagePoly (hlen ▸ hi)] at hcoeff
  exact h (coefficient_injective hcoeff)

/-! ## Flipped bits -/

/-- The positions where two messages of one length differ. -/
def flips (a b : List UInt8) : Finset ℕ :=
  (Finset.range (8 * a.length)).filter fun position ↦ bitAt a position ≠ bitAt b position

theorem mem_flips {a b : List UInt8} (hlen : a.length = b.length) {position : ℕ} :
    position ∈ flips a b ↔ bitAt a position ≠ bitAt b position := by
  rw [flips, Finset.mem_filter, Finset.mem_range]
  exact ⟨And.right, fun hbit ↦ ⟨lt_of_bitAt_ne hlen hbit, hbit⟩⟩

theorem lt_of_mem_flips {a b : List UInt8} {position : ℕ} (h : position ∈ flips a b) :
    position < 8 * a.length :=
  Finset.mem_range.1 (Finset.mem_filter.1 h).1

theorem coeff_messagePoly_sub {a b : List UInt8} (hlen : a.length = b.length) {position i : ℕ}
    (h : position + (i + 1) = 8 * a.length) :
    (messagePoly a - messagePoly b).coeff i = if position ∈ flips a b then 1 else 0 := by
  have hbits : ∀ x y : Bool, coefficient x - coefficient y = if x ≠ y then 1 else 0 := by decide
  simp only [mem_flips hlen]
  rw [coeff_sub, coeff_messagePoly h, coeff_messagePoly (hlen ▸ h), hbits]

/-- Every flip is a power of `x`, the last position the lowest. -/
theorem messagePoly_sub_eq_sum {a b : List UInt8} (hlen : a.length = b.length) :
    messagePoly a - messagePoly b
      = ∑ position ∈ flips a b, X ^ (8 * a.length - (position + 1)) := by
  ext i
  rw [finsetSum_coeff]
  simp only [coeff_X_pow]
  by_cases hi : i < 8 * a.length
  · obtain ⟨last, hlast⟩ : ∃ last, last + (i + 1) = 8 * a.length :=
      ⟨8 * a.length - (i + 1), by omega⟩
    -- Among the flips only the one at this position has the power `i`.
    have hterm : ∀ position ∈ flips a b,
        (if i = 8 * a.length - (position + 1) then (1 : ZMod 2) else 0)
          = if position = last then 1 else 0 := by
      intro position hposition
      have hlt := lt_of_mem_flips hposition
      congr 1
      apply propext
      omega
    rw [coeff_messagePoly_sub hlen hlast, Finset.sum_congr rfl hterm, Finset.sum_ite_eq']
  · rw [coeff_sub, coeff_messagePoly_of_ge (by omega), coeff_messagePoly_of_ge (by omega), sub_self]
    refine (Finset.sum_eq_zero fun position hposition ↦ ?_).symm
    have hlt := lt_of_mem_flips hposition
    exact if_neg (by omega)

/-! ## Registers of messages of one length -/

theorem Register.feed_eq_feed_iff (poly register : UInt32) {a b : List UInt8}
    (hlen : a.length = b.length) :
    feed poly register a = feed poly register b ↔
      generator poly ∣ (messagePoly a - messagePoly b) * X ^ 32 := by
  rw [← (wordClass_injective poly).eq_iff, wordClass_feed, wordClass_feed, AdjoinRoot.mk_eq_mk,
    hlen]
  have hsub : reflectedPoly register * X ^ (8 * b.length) + messagePoly a * X ^ 32
      - (reflectedPoly register * X ^ (8 * b.length) + messagePoly b * X ^ 32)
      = (messagePoly a - messagePoly b) * X ^ 32 := by ring
  rw [hsub]

/-- Powers of `x` are invertible modulo a generator with a constant term. -/
theorem isCoprime_generator_X_pow {poly : UInt32} (h : poly.toBitVec.getMsbD 0 = true) (n : ℕ) :
    IsCoprime (generator poly) (X ^ n) := by
  apply IsCoprime.pow_right
  have hconstant : (generator poly).coeff 0 = 1 := by
    rw [generator, coeff_add, coeff_reflectedPoly, h, coeff_X_pow]
    rfl
  obtain ⟨quotient, hquotient⟩ : X ∣ generator poly - 1 := by
    rw [X_dvd_iff, coeff_sub, hconstant, coeff_one_zero, sub_self]
  exact ⟨1, -quotient, by linear_combination hquotient⟩

theorem dvd_mul_X_pow_iff {poly : UInt32} (h : poly.toBitVec.getMsbD 0 = true)
    (p : (ZMod 2)[X]) (n : ℕ) : generator poly ∣ p * X ^ n ↔ generator poly ∣ p :=
  ⟨(isCoprime_generator_X_pow h n).dvd_of_dvd_mul_right, fun hdvd ↦ hdvd.mul_right _⟩

/-- What is fed behind them keeps two registers apart. -/
theorem Register.feed_left_injective {poly : UInt32} (h : poly.toBitVec.getMsbD 0 = true)
    (data : List UInt8) : Function.Injective (feed poly · data) := by
  intro r s heq
  have hclass := congrArg (wordClass poly) heq
  simp only [wordClass_feed] at hclass
  have hdvd : generator poly
      ∣ (reflectedPoly r - reflectedPoly s) * X ^ (8 * data.length) := by
    rw [sub_mul, ← add_sub_add_right_eq_sub _ _ (messagePoly data * X ^ 32)]
    exact AdjoinRoot.mk_eq_mk.1 hclass
  exact wordClass_injective poly (AdjoinRoot.mk_eq_mk.2 ((dvd_mul_X_pow_iff h _ _).1 hdvd))

/-- Whatever the plans and the backends, checksums of two messages of one length agree
exactly when the generator divides the difference. -/
theorem crc32c_eq_crc32c_iff {p q : Plan} (hp : p.Obtainable) (hq : q.Obtainable)
    (first second : Backend) (running : UInt32) {a b : List UInt8} (hlen : a.length = b.length) :
    crc32c first.kernel running a p = crc32c second.kernel running b q ↔
      generator castagnoli ∣ messagePoly a - messagePoly b := by
  rw [crc32c_eq_register first.kernel_sound hp, crc32c_eq_register second.kernel_sound hq,
    UInt32.not_inj, Register.feed_eq_feed_iff castagnoli _ hlen,
    dvd_mul_X_pow_iff (by decide)]

end InterleavedCrc
