import InterleavedCrc.Proofs.AnyPlan

/-!
# Checksums of streams

A stream is fed piece by piece, each along its own plan, through the recorded
backend or through the portable kernel.  Meanwhile the session answers other
requests, so the backend may change between two pieces.  The running checksum is
that of all bytes so far (`Stream.run_eq`).
-/

namespace InterleavedCrc

/-- The checksum after `data` by the bit-at-a-time register. -/
def bitwiseCrc (running : UInt32) (data : List UInt8) : UInt32 :=
  ~~~Register.feed castagnoli (~~~running) data

@[simp] theorem bitwiseCrc_nil (running : UInt32) : bitwiseCrc running [] = running :=
  UInt32.not_not

theorem bitwiseCrc_append (running : UInt32) (a b : List UInt8) :
    bitwiseCrc running (a ++ b) = bitwiseCrc (bitwiseCrc running a) b := by
  rw [bitwiseCrc, bitwiseCrc, bitwiseCrc, UInt32.not_not, Register.feed_append]

theorem crc32c_eq_bitwiseCrc {plan : Plan} (hplan : plan.Obtainable) (backend : Backend)
    (running : UInt32) (data : List UInt8) :
    crc32c backend.kernel running data plan = bitwiseCrc running data :=
  crc32c_eq_register backend.kernel_sound hplan running data

theorem Session.answer_checksum {plan : Plan} (hplan : plan.Obtainable) (host : Capabilities)
    (session : Session) (running : UInt32) (data : List UInt8) :
    (session.step host (.checksum running data plan)).answer
      = .checksum (bitwiseCrc running data) := by
  obtain ⟨backend, hanswer⟩ := session.exists_answer_checksum host running data plan
  rw [hanswer, crc32c_eq_bitwiseCrc hplan]

def Session.Answer.checksum? : Session.Answer → Option UInt32
  | .checksum value => some value
  | _ => none

/-- The kernel that a piece is fed through: that of the recorded backend, or the
portable one whatever is recorded. -/
inductive Route where
  | recorded
  | portable

structure Piece where
  data : List UInt8
  plan : Plan
  route : Route

/-- A piece is fed, or the session is asked for something else. -/
inductive Move where
  | feed (piece : Piece)
  | ask (request : Session.Request)

def Move.bytes : Move → List UInt8
  | .feed piece => piece.data
  | .ask _ => []

/-- A session and the checksum of everything fed so far. -/
structure Stream where
  session : Session
  running : UInt32

namespace Stream

/-- There is no next stream if a piece is answered by anything but a checksum. -/
def step (host : Capabilities) (stream : Stream) : Move → Option Stream
  | .feed ⟨data, plan, .recorded⟩ =>
      let outcome := stream.session.step host (.checksum stream.running data plan)
      outcome.answer.checksum?.map fun running ↦ ⟨outcome.session, running⟩
  | .feed ⟨data, plan, .portable⟩ =>
      some ⟨stream.session, crc32c Kernel.portable stream.running data plan⟩
  | .ask request => some ⟨(stream.session.step host request).session, stream.running⟩

def run (host : Capabilities) (stream : Stream) (moves : List Move) : Option Stream :=
  moves.foldlM (step host) stream

theorem step_eq (host : Capabilities) (stream : Stream) {move : Move}
    (hplan : ∀ piece, move = .feed piece → piece.plan.Obtainable) :
    ∃ session, stream.step host move = some ⟨session, bitwiseCrc stream.running move.bytes⟩ := by
  cases move with
  | ask request =>
      refine ⟨(stream.session.step host request).session, ?_⟩
      rw [Move.bytes, bitwiseCrc_nil]
      rfl
  | feed piece =>
      obtain ⟨data, plan, route⟩ := piece
      have hobtainable : plan.Obtainable := hplan _ rfl
      cases route with
      | recorded =>
          refine ⟨(stream.session.step host (.checksum stream.running data plan)).session, ?_⟩
          rw [step, Session.answer_checksum hobtainable]
          rfl
      | portable =>
          refine ⟨stream.session, ?_⟩
          have hportable := crc32c_eq_bitwiseCrc hobtainable .portable stream.running data
          exact congrArg (fun running ↦ some (Stream.mk stream.session running)) hportable

/-- Whatever is asked in between, the running checksum is that of all bytes fed. -/
theorem run_eq (host : Capabilities) (stream : Stream) {moves : List Move}
    (hplans : ∀ piece, .feed piece ∈ moves → piece.plan.Obtainable) :
    ∃ session,
      stream.run host moves
        = some ⟨session, bitwiseCrc stream.running (moves.flatMap Move.bytes)⟩ := by
  induction moves generalizing stream with
  | nil =>
      refine ⟨stream.session, ?_⟩
      rw [List.flatMap_nil, bitwiseCrc_nil]
      rfl
  | cons move moves ih =>
      have hmove : ∀ piece, move = .feed piece → piece.plan.Obtainable :=
        fun piece hpiece ↦ hplans piece (hpiece ▸ List.mem_cons_self)
      obtain ⟨session, hstep⟩ := stream.step_eq host hmove
      obtain ⟨last, hrun⟩ := ih ⟨session, bitwiseCrc stream.running move.bytes⟩
        fun piece hpiece ↦ hplans piece (List.mem_cons_of_mem move hpiece)
      refine ⟨last, ?_⟩
      rw [run, List.foldlM_cons, hstep, List.flatMap_cons, bitwiseCrc_append]
      exact hrun

end Stream

/-- A stream of pieces leaves the checksum of their concatenation, as one call
computes it in any session, along any plan and by any backend. -/
theorem checksum_of_stream (host : Capabilities) (session : Session) (running : UInt32)
    (moves : List Move) (hplans : ∀ piece, .feed piece ∈ moves → piece.plan.Obtainable) :
    ∃ last : Stream, Stream.run host ⟨session, running⟩ moves = some last ∧
      ∀ plan : Plan, plan.Obtainable →
        (∀ backend : Backend,
          crc32c backend.kernel running (moves.flatMap Move.bytes) plan = last.running) ∧
        ∀ (host : Capabilities) (other : Session),
          (other.step host (.checksum running (moves.flatMap Move.bytes) plan)).answer
            = .checksum last.running := by
  obtain ⟨after, hrun⟩ := Stream.run_eq host ⟨session, running⟩ hplans
  refine ⟨_, hrun, fun plan hplan ↦ ⟨fun backend ↦ ?_, fun host other ↦ ?_⟩⟩
  · exact crc32c_eq_bitwiseCrc hplan backend running _
  · exact other.answer_checksum hplan host running _

/-- The digits in four pieces, one of them empty.  The hardware's backend is
recorded by the first piece and the portable one after the second. -/
def digitMoves : List Move :=
  [.feed ⟨[0x31, 0x32, 0x33], nestedPlan, .recorded⟩,
    .ask (.setOverride (some .empty)),
    .feed ⟨[], .sequential, .portable⟩,
    .ask .probe,
    .feed ⟨[0x34, 0x35, 0x36, 0x37], .standard, .recorded⟩,
    .feed ⟨[0x38, 0x39], nestedPlan, .portable⟩]

theorem checksum_of_digitMoves :
    (∀ piece, .feed piece ∈ digitMoves → piece.plan.Obtainable) ∧
      ∃ last, Stream.run Capabilities.sse42 ⟨.fresh, 0⟩ digitMoves = some last ∧
        last.running = 0xE3069283 := by
  have hplans : ∀ piece, .feed piece ∈ digitMoves → piece.plan.Obtainable := by
    intro piece hpiece
    simp only [digitMoves, List.mem_cons, List.not_mem_nil, Move.feed.injEq, reduceCtorEq,
      false_or, or_false] at hpiece
    rcases hpiece with rfl | rfl | rfl | rfl
    · exact obtainable_nestedPlan
    · exact Plan.obtainable_sequential
    · exact Plan.obtainable_standard
    · exact obtainable_nestedPlan
  obtain ⟨last, hrun, hwhole⟩ := checksum_of_stream Capabilities.sse42 .fresh 0 digitMoves hplans
  refine ⟨hplans, last, hrun, ?_⟩
  obtain ⟨hbackend, _⟩ := hwhole .standard Plan.obtainable_standard
  rw [← hbackend .portable, crc32c_eq_bitwiseCrc Plan.obtainable_standard]
  decide +kernel

end InterleavedCrc
