import InterleavedCrc.Backend
import InterleavedCrc.Proofs.Walk

/-!
# Checksums do not depend on the plan

Both backends step like the register, and all levels of a plan at hand were
accepted.  So whatever plan is given and whatever backend is recorded, the checksum
is that of the bit-at-a-time register, inverted on both sides.
-/

namespace InterleavedCrc

theorem Backend.kernel_sound (backend : Backend) : backend.kernel.Sound := by
  cases backend with
  | sse42 => exact Kernel.instruction_sound
  | portable => exact Kernel.portable_sound

/-- The path past the test for empty data is right for empty data too. -/
theorem crc32c_eq_feedAlong {kernel : Kernel} {plan : Plan} (hkernel : kernel.Sound)
    (hplan : plan.Obtainable) (running : UInt32) (data : List UInt8) :
    crc32c kernel running data plan = ~~~kernel.feedAlong plan.levels (~~~running) data := by
  cases data with
  | nil =>
      rw [crc32c_nil, Kernel.feedAlong_eq hkernel hplan.valid, Register.feed_nil,
        UInt32.not_not]
  | cons byte rest => rfl

theorem crc32c_eq_register {kernel : Kernel} {plan : Plan} (hkernel : kernel.Sound)
    (hplan : plan.Obtainable) (running : UInt32) (data : List UInt8) :
    crc32c kernel running data plan = ~~~Register.feed castagnoli (~~~running) data := by
  rw [crc32c_eq_feedAlong hkernel hplan, Kernel.feedAlong_eq hkernel hplan.valid]

namespace Session

/-- Some backend answers: the recorded one, or the one that a probe records. -/
theorem exists_answer_withBackend (host : Capabilities) (session : Session)
    (answer : Backend → Answer) :
    ∃ backend, (session.withBackend host answer).answer = answer backend := by
  rw [withBackend]
  split
  · rename_i backend _
    exact ⟨backend, rfl⟩
  · exact ⟨session.selected host, rfl⟩

theorem exists_answer_checksum (host : Capabilities) (session : Session) (running : UInt32)
    (data : List UInt8) (plan : Plan) :
    ∃ backend : Backend, (session.step host (.checksum running data plan)).answer
      = .checksum (crc32c backend.kernel running data plan) := by
  cases data with
  | nil => exact ⟨.portable, rfl⟩
  | cons byte rest => exact session.exists_answer_withBackend host _

end Session

/-- One lane of two words around two lanes of one. -/
def nestedPlan : Plan := ⟨[Level.ofShape ⟨2, 1⟩, Level.ofShape ⟨1, 2⟩]⟩

theorem obtainable_nestedPlan : nestedPlan.Obtainable := ⟨.draft ⟨[⟨2, 1⟩, ⟨1, 2⟩]⟩, rfl⟩

theorem checksum_of_obtainable {plan : Plan} (hplan : plan.Obtainable) (host : Capabilities)
    (session : Session) (running : UInt32) (data : List UInt8) :
    (session.step host (.checksum running data plan)).answer
        = .checksum (~~~Register.feed castagnoli (~~~running) data) ∧
      ∀ backend : Backend,
        crc32c backend.kernel running data plan = crc32c Kernel.portable running data plan ∧
          crc32c Kernel.portable running data plan
            = ~~~Register.feed castagnoli (~~~running) data ∧
          ~~~backend.kernel.feedAlong plan.levels (~~~running) data
            = crc32c backend.kernel running data plan := by
  have heq : ∀ backend : Backend, crc32c backend.kernel running data plan
      = ~~~Register.feed castagnoli (~~~running) data :=
    fun backend ↦ crc32c_eq_register backend.kernel_sound hplan running data
  refine ⟨?_, fun backend ↦ ⟨?_, ?_, ?_⟩⟩
  · obtain ⟨backend, hanswer⟩ := session.exists_answer_checksum host running data plan
    rw [hanswer, heq]
  · exact (heq backend).trans (heq .portable).symm
  · exact heq .portable
  · exact (crc32c_eq_feedAlong backend.kernel_sound hplan running data).symm

theorem checksum_of_nestedPlan :
    nestedPlan.Obtainable ∧
      (Session.fresh.step Capabilities.sse42
        (.checksum 0 ((List.range 37).map UInt8.ofNat) nestedPlan)).answer = .checksum 0x239BA04D ∧
      crc32c Backend.sse42.kernel 0 ((List.range 37).map UInt8.ofNat) nestedPlan = 0x239BA04D ∧
      crc32c Kernel.portable 0 ((List.range 37).map UInt8.ofNat) nestedPlan = 0x239BA04D := by
  obtain ⟨hanswer, hbackend⟩ := checksum_of_obtainable obtainable_nestedPlan Capabilities.sse42
    Session.fresh 0 ((List.range 37).map UInt8.ofNat)
  obtain ⟨hsame, hportable, _⟩ := hbackend .sse42
  have hvalue : ~~~Register.feed castagnoli (~~~0) ((List.range 37).map UInt8.ofNat) = 0x239BA04D := by
    decide +kernel
  rw [hvalue] at hanswer hportable
  exact ⟨obtainable_nestedPlan, hanswer, hsame.trans hportable, hportable⟩

end InterleavedCrc
