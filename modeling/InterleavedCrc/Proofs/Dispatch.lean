import InterleavedCrc.Proofs.Cells
import Mathlib.Data.List.Induction

/-!
# What is recorded after a history

Which override is in force and which requests made a probe is told by the requests
alone.  The backend recorded is the one for the capabilities that the latest probe saw
(`recorded_run_eq_some_iff`), whatever the overrides have become since.
-/

namespace InterleavedCrc

theorem Capabilities.includes_sse42 (held : Capabilities) :
    held.includes sse42 = held.contains 0 :=
  held.includes_bit 0

theorem Backend.select_eq (held : Capabilities) :
    select held = if held.contains 0 then sse42 else portable := by
  have hportable : held.includes portable.requires = true := by
    simp [requires, Capabilities.includes, Capabilities.empty]
  rw [select, candidates, List.find?_cons, requires, Capabilities.includes_sse42]
  cases held.contains 0 with
  | true => rfl
  | false => rw [List.find?_cons, hportable]; rfl

theorem Backend.isHardware_select (held : Capabilities) :
    (select held).isHardware = held.contains 0 := by
  rw [select_eq]
  cases held.contains 0 <;> rfl

theorem Backend.select_eq_sse42_iff {held : Capabilities} :
    select held = sse42 ↔ held.contains 0 = true := by
  rw [select_eq]
  cases held.contains 0 <;> simp

namespace Session

namespace Request

def override? : Request → Option (Option Capabilities)
  | setOverride value => some value
  | _ => none

def isProbe : Request → Bool
  | probe => true
  | _ => false

def needsBackend : Request → Bool
  | isHardware | backendName => true
  | checksum _ data _ => !data.isEmpty
  | _ => false

end Request

section Step

variable (host : Capabilities) (session : Session)

/-- The backend that answers, if one is asked for. -/
def active : Backend := session.recorded.getD (session.selected host)

theorem withBackend_eq (answer : Backend → Answer) :
    (session.withBackend host answer).session
        = ⟨session.override, some (session.active host)⟩ ∧
      (session.withBackend host answer).answer = answer (session.active host) := by
  rcases session with ⟨override, _ | backend⟩ <;> exact ⟨rfl, rfl⟩

theorem session_step_of_needsBackend {request : Request} (h : request.needsBackend) :
    (session.step host request).session = ⟨session.override, some (session.active host)⟩ := by
  cases request with
  | isHardware => exact (session.withBackend_eq host _).1
  | backendName => exact (session.withBackend_eq host _).1
  | checksum running data plan =>
      cases data with
      | nil => cases h
      | cons byte rest => exact (session.withBackend_eq host _).1
  | _ => cases h

theorem session_step (request : Request) :
    (session.step host request).session
      = ⟨request.override?.getD session.override,
          if request.isProbe then some (session.selected host)
          else if request.needsBackend then some (session.active host)
          else session.recorded⟩ := by
  cases request with
  | setOverride value => rfl
  | hasOverride => rfl
  | capabilities => rfl
  | probe => rfl
  | isHardware => exact session.session_step_of_needsBackend host rfl
  | backendName => exact session.session_step_of_needsBackend host rfl
  | checksum running data plan =>
      cases data with
      | nil => rfl
      | cons byte rest => exact session.session_step_of_needsBackend host rfl

theorem session_step_of_recorded_eq_none {request : Request} (hnone : session.recorded = none)
    (hneeds : request.needsBackend) :
    (session.step host request).session = (session.probe host).session := by
  rw [session_step_of_needsBackend host session hneeds, active, hnone]
  rfl

theorem isProbe_or_needsBackend_of_recorded_ne {request : Request}
    (h : (session.step host request).session.recorded ≠ session.recorded) :
    request.isProbe ∨ session.recorded = none ∧ request.needsBackend := by
  rw [session_step] at h
  by_cases hprobe : request.isProbe
  · exact .inl hprobe
  · rw [if_neg hprobe] at h
    by_cases hneeds : request.needsBackend
    · cases hrecorded : session.recorded with
      | none => exact .inr ⟨rfl, hneeds⟩
      | some backend => simp [hneeds, active, hrecorded] at h
    · exact absurd (if_neg hneeds) h

theorem answer_checksum_of_ne_nil (running : UInt32) {data : List UInt8} (hdata : data ≠ [])
    (plan : Plan) :
    (session.step host (.checksum running data plan)).answer
      = .checksum (crc32c (session.active host).kernel running data plan) := by
  cases data with
  | nil => exact absurd rfl hdata
  | cons byte rest => exact (session.withBackend_eq host _).2

theorem active_step_of_needsBackend {request : Request} (hneeds : request.needsBackend) :
    (session.step host request).session.active host = session.active host := by
  rw [session_step_of_needsBackend host session hneeds]
  rfl

theorem answer_isHardware_iff_answer_backendName {session asked : Session}
    (hactive : asked.active host = session.active host) :
    (session.step host .isHardware).answer = .flag true ↔
      (asked.step host .backendName).answer = .name "x86_64/sse4.2" := by
  have hflag : (session.step host .isHardware).answer = .flag (session.active host).isHardware :=
    (session.withBackend_eq host _).2
  have hname : (asked.step host .backendName).answer = .name (session.active host).name :=
    hactive ▸ (asked.withBackend_eq host _).2
  rw [hflag, hname]
  cases session.active host <;> simp [Backend.isHardware, Backend.name]

theorem run_concat (history : List Request) (request : Request) :
    run host session (history ++ [request])
      = ((run host session history).step host request).session := by
  simp [run]

end Step

/-! ## The override in force -/

section History

variable (host : Capabilities) (start : Session)

/-- The override set last, if any was set. -/
def inForce (history : List Request) : Option Capabilities :=
  (history.reverse.findSome? Request.override?).getD start.override

def heldAfter (history : List Request) : Capabilities := (start.inForce history).getD host

theorem override_run (history : List Request) :
    (run host start history).override = start.inForce history := by
  induction history using List.reverseRecOn with
  | nil => rfl
  | append_singleton history request ih =>
      rw [run_concat, session_step, ih, inForce, inForce, List.reverse_append]
      cases hoverride : request.override? <;> simp [hoverride]

theorem capabilities_run (history : List Request) :
    (run host start history).capabilities host = start.heldAfter host history := by
  rw [Session.capabilities, override_run, heldAfter]

/-! ## Probes -/

/-- The request is for a probe, or is the first to need what a probe records. -/
def Probes (before : List Request) (request : Request) : Prop :=
  request.isProbe ∨ request.needsBackend ∧ start.recorded = none ∧
    ∀ earlier ∈ before, ¬ earlier.isProbe ∧ ¬ earlier.needsBackend

/-- The latest probe was made after `before`: there is a record since, so only a request
for a probe would have made a later one. -/
def LatestProbe (history before : List Request) : Prop :=
  ∃ request after, history = before ++ request :: after ∧ start.Probes before request ∧
    ∀ later ∈ after, ¬ later.isProbe

theorem recorded_run_eq_none_iff {history : List Request} :
    (run host start history).recorded = none ↔
      start.recorded = none ∧ ∀ request ∈ history, ¬ request.isProbe ∧ ¬ request.needsBackend := by
  induction history using List.reverseRecOn with
  | nil => simp [run]
  | append_singleton history request ih =>
      rw [run_concat, session_step]
      cases hprobe : request.isProbe <;> cases hneeds : request.needsBackend <;>
        simp [ih, hprobe, hneeds, or_imp, forall_and, and_assoc]

/-- Once there is a record only a request for a probe makes one. -/
theorem Probes.isProbe {start : Session} {before : List Request} {request : Request}
    (h : start.Probes before request)
    (hsettled : ∃ earlier ∈ before, earlier.isProbe ∨ earlier.needsBackend) : request.isProbe := by
  rcases h with hprobe | ⟨-, -, hnone⟩
  · exact hprobe
  · obtain ⟨earlier, hmem, hsettles⟩ := hsettled
    exact absurd hsettles (not_or.2 (hnone earlier hmem))

theorem LatestProbe.settled {start : Session} {history before : List Request}
    (h : start.LatestProbe history before) :
    ∃ request ∈ history, request.isProbe ∨ request.needsBackend := by
  obtain ⟨request, after, rfl, hprobes, -⟩ := h
  exact ⟨request, List.mem_append_right before List.mem_cons_self, hprobes.imp_right And.left⟩

theorem latestProbe_concat_iff {history before : List Request} {request : Request} :
    start.LatestProbe (history ++ [request]) before ↔
      start.Probes history request ∧ before = history ∨
        ¬ request.isProbe ∧ start.LatestProbe history before := by
  constructor
  · rintro ⟨first, after, hsplit, hprobes, hafter⟩
    rcases List.eq_nil_or_concat after with rfl | ⟨after, last, rfl⟩
    · obtain ⟨rfl, hlast⟩ := List.append_inj' hsplit rfl
      cases hlast
      exact .inl ⟨hprobes, rfl⟩
    · rw [List.concat_eq_append, ← List.cons_append, ← List.append_assoc] at hsplit
      obtain ⟨rfl, hlast⟩ := List.append_inj' hsplit rfl
      cases hlast
      exact .inr ⟨hafter _ (by simp), first, after, rfl, hprobes,
        fun later hlater ↦ hafter later (by simp [hlater])⟩
  · rintro (⟨hprobes, rfl⟩ | ⟨hrequest, first, after, rfl, hprobes, hafter⟩)
    · exact ⟨request, [], rfl, hprobes, by simp⟩
    · refine ⟨first, after ++ [request], by simp, hprobes, ?_⟩
      simpa [or_imp, forall_and, hrequest] using hafter

theorem recorded_run_of_probes {history : List Request} {request : Request}
    (h : start.Probes history request) :
    (run host start (history ++ [request])).recorded
      = some (Backend.select (start.heldAfter host history)) := by
  rw [run_concat, session_step, ← capabilities_run]
  rcases h with hprobe | ⟨hneeds, hnone⟩
  · exact if_pos hprobe
  · have hactive :
        (run host start history).active host = (run host start history).selected host := by
      rw [active, (recorded_run_eq_none_iff host start).2 hnone, Option.getD_none]
    rw [hactive, if_pos hneeds, ite_self]
    rfl

theorem recorded_run_of_not_probes {history : List Request} {request : Request}
    (h : ¬ start.Probes history request) :
    (run host start (history ++ [request])).recorded = (run host start history).recorded := by
  obtain ⟨hprobe, hrest⟩ := not_or.1 h
  rw [run_concat, session_step, if_neg hprobe]
  by_cases hneeds : request.needsBackend
  · cases hrecorded : (run host start history).recorded with
    | none => exact absurd ⟨hneeds, (recorded_run_eq_none_iff host start).1 hrecorded⟩ hrest
    | some backend => simp [hneeds, active, hrecorded]
  · exact if_neg hneeds

/-- The record is from the latest probe, or else the one there was at the start. -/
theorem recorded_run_eq_some_iff {history : List Request} {backend : Backend} :
    (run host start history).recorded = some backend ↔
      (∃ before, start.LatestProbe history before ∧
        Backend.select (start.heldAfter host before) = backend) ∨
      start.recorded = some backend ∧ ∀ request ∈ history, ¬ request.isProbe := by
  induction history using List.reverseRecOn with
  | nil => simp [run, LatestProbe]
  | append_singleton history request ih =>
      simp only [latestProbe_concat_iff]
      by_cases hprobes : start.Probes history request
      · rw [recorded_run_of_probes host start hprobes, Option.some.injEq]
        constructor
        · intro hselect
          exact .inl ⟨history, .inl ⟨hprobes, rfl⟩, hselect⟩
        · rintro (⟨before, ⟨-, rfl⟩ | ⟨hrequest, hlatest⟩, hselect⟩ | ⟨hstart, hnever⟩)
          · exact hselect
          · exact absurd (hprobes.isProbe hlatest.settled) hrequest
          · rcases hprobes with hprobe | ⟨-, hnone, -⟩
            · exact absurd hprobe (hnever request (by simp))
            · rw [hnone] at hstart
              cases hstart
      · have hrequest : ¬ request.isProbe := fun hprobe ↦ hprobes (.inl hprobe)
        rw [recorded_run_of_not_probes host start hprobes, ih]
        simp [hprobes, hrequest, or_imp, forall_and]

end History

/-! ## Every point of a history -/

/-- What a session tells and records at the end of a history. -/
structure FollowsProbes (host : Capabilities) (start : Session) (history : List Request) :
    Prop where
  capabilities : ((run host start history).step host .capabilities).answer
    = .capabilities (start.heldAfter host history)
  hasOverride : ((run host start history).step host .hasOverride).answer
    = .flag (start.inForce history).isSome
  probe : ((run host start history).step host .probe).session
        = ⟨start.inForce history, some (if (start.heldAfter host history).contains 0
            then .sse42 else .portable)⟩ ∧
      ((run host start history).step host .probe).answer
        = .flag ((start.heldAfter host history).contains 0)
  /-- The first to need a record makes it as a probe would. -/
  firstUse : ∀ request : Request, (run host start history).recorded = none →
    request.needsBackend →
      ((run host start history).step host request).session
        = ((run host start history).step host .probe).session
  changes : ∀ request : Request,
    ((run host start history).step host request).session.recorded
        ≠ (run host start history).recorded →
      request.isProbe ∨ (run host start history).recorded = none ∧ request.needsBackend
  hardware : (run host start history).recorded = some .sse42 ↔
    ∃ before, start.LatestProbe history before ∧ (start.heldAfter host before).contains 0
  /-- Whoever needs a backend gets the one that is recorded then. -/
  uses : ∃ backend : Backend,
    (∀ request : Request, request.needsBackend →
      ((run host start history).step host request).session.recorded = some backend) ∧
    ((run host start history).step host .isHardware).answer = .flag backend.isHardware ∧
    ((run host start history).step host .backendName).answer = .name backend.name ∧
    ∀ (running : UInt32) (data : List UInt8) (plan : Plan), data ≠ [] →
      ((run host start history).step host (.checksum running data plan)).answer
        = .checksum (crc32c backend.kernel running data plan)
  /-- Asked at one point, or one after the other. -/
  agree : (((run host start history).step host .isHardware).answer = .flag true ↔
      ((run host start history).step host .backendName).answer = .name "x86_64/sse4.2") ∧
    (((run host start history).step host .isHardware).answer = .flag true ↔
      (((run host start history).step host .isHardware).session.step host .backendName).answer
        = .name "x86_64/sse4.2")
  /-- Whatever word an override has left in the cells. -/
  cells : ∀ cells : Cells, cells.session = start → ∀ request : Request,
    ((cells.run host history).step host request).2
      = ((run host start history).step host request).answer

theorem latest_probe_is_followed {start : Session} (hstart : start = fresh ∨ start = pinned)
    (host : Capabilities) (history : List Request) : FollowsProbes host start history where
  capabilities := congrArg Answer.capabilities (capabilities_run host start history)
  hasOverride := congrArg (fun value : Option Capabilities ↦ Answer.flag value.isSome)
    (override_run host start history)
  probe := by
    refine ⟨?_, ?_⟩
    · rw [step, probe, selected, capabilities_run, override_run, Backend.select_eq]
    · rw [step, probe, selected, capabilities_run, Backend.isHardware_select]
  firstUse := fun _ ↦ session_step_of_recorded_eq_none host _
  changes := fun _ ↦ isProbe_or_needsBackend_of_recorded_ne host _
  hardware := by
    -- Neither start has the hardware's backend recorded.
    have hnever : start.recorded ≠ some .sse42 := by
      rcases hstart with rfl | rfl <;> simp [fresh, pinned]
    simp only [recorded_run_eq_some_iff, Backend.select_eq_sse42_iff, hnever, false_and, or_false]
  uses :=
    ⟨(run host start history).active host,
      fun _ hneeds ↦ congrArg Session.recorded (session_step_of_needsBackend host _ hneeds),
      (withBackend_eq host _ _).2, (withBackend_eq host _ _).2,
      fun running _ plan hdata ↦ answer_checksum_of_ne_nil host _ running hdata plan⟩
  agree := ⟨answer_isHardware_iff_answer_backendName host rfl,
    answer_isHardware_iff_answer_backendName host (active_step_of_needsBackend host _ rfl)⟩
  cells := by
    rintro cells rfl request
    rw [← Cells.session_run]
    exact (Cells.session_step_and_answer_step host _ request).2

def passingClaim : List Request :=
  [.setOverride (some .sse42), .isHardware, .setOverride none]

theorem record_outlives_claim :
    (fresh = fresh ∨ fresh = pinned) ∧
      (run .empty fresh passingClaim).recorded = some .sse42 ∧
      ((run .empty fresh passingClaim).step .empty .capabilities).answer = .capabilities .empty ∧
      ((run .empty fresh passingClaim).step .empty .probe).answer = .flag false ∧
      ((Cells.fresh.run .empty passingClaim).step .empty .hasOverride).2 = .flag false := by
  have hstart : fresh = fresh ∨ fresh = pinned := .inl rfl
  have hpoint := latest_probe_is_followed hstart .empty passingClaim
  have hlatest : fresh.LatestProbe passingClaim [.setOverride (some .sse42)] :=
    ⟨.isHardware, [.setOverride none], rfl,
      .inr ⟨rfl, rfl, by simp [Request.isProbe, Request.needsBackend]⟩, by simp [Request.isProbe]⟩
  exact ⟨hstart, hpoint.hardware.2 ⟨_, hlatest, rfl⟩, hpoint.capabilities, hpoint.probe.2,
    (hpoint.cells Cells.fresh rfl .hasOverride).trans hpoint.hasOverride⟩

end Session

end InterleavedCrc
