import InterleavedCrc.Backend

/-!
# The cells of a process

A process keeps its session in three cells: whether an override is installed, the word
of the one installed last, and the place of the recorded backend among the candidates.
The word stays behind when the override is cleared, and a place that no candidate has
stands for no backend.  Nobody can tell: the cells answer as the session does
(`session_step_and_answer_step`).
-/

namespace InterleavedCrc

structure Cells where
  installed : Bool
  word : UInt64
  place : UInt8

namespace Cells

open Session

def unset : UInt8 := 255

def fresh : Cells := ⟨false, 0, unset⟩

def override (cells : Cells) : Option Capabilities :=
  if cells.installed then some ⟨cells.word⟩ else none

def capabilities (host : Capabilities) (cells : Cells) : Capabilities :=
  cells.override.getD host

def setOverride (cells : Cells) : Option Capabilities → Cells
  | some value => { cells with word := value.word, installed := true }
  | none => { cells with installed := false }

/-- The place of the first candidate whose requirements are met. -/
def placeFor (held : Capabilities) : Nat :=
  (Backend.candidates.findIdx? fun backend ↦ held.includes backend.requires).getD
    (Backend.candidates.length - 1)

def candidate (place : Nat) : Backend := Backend.candidates[place]?.getD .portable

def probe (host : Capabilities) (cells : Cells) : Cells × Bool :=
  let place := placeFor (cells.capabilities host)
  ({ cells with place := UInt8.ofNat place }, (candidate place).isHardware)

def active (host : Capabilities) (cells : Cells) : Cells × Backend :=
  let cells := if cells.place = unset then (cells.probe host).1 else cells
  (cells, candidate cells.place.toNat)

def step (host : Capabilities) (cells : Cells) : Request → Cells × Answer
  | .setOverride value => (cells.setOverride value, .done)
  | .hasOverride => (cells, .flag cells.installed)
  | .capabilities => (cells, .capabilities (cells.capabilities host))
  | .probe =>
      let (cells, hardware) := cells.probe host
      (cells, .flag hardware)
  | .isHardware =>
      let (cells, backend) := cells.active host
      (cells, .flag backend.isHardware)
  | .backendName =>
      let (cells, backend) := cells.active host
      (cells, .name backend.name)
  | .checksum running data plan =>
      if data.isEmpty then (cells, .checksum running)
      else
        let (cells, backend) := cells.active host
        (cells, .checksum (crc32c backend.kernel running data plan))

def run (host : Capabilities) (cells : Cells) (requests : List Request) : Cells :=
  requests.foldl (fun cells request ↦ (cells.step host request).1) cells

def session (cells : Cells) : Session :=
  ⟨cells.override, if cells.place = unset then none else some (candidate cells.place.toNat)⟩

theorem placeFor_lt (held : Capabilities) : placeFor held < Backend.candidates.length := by
  rw [placeFor]
  cases hplace : Backend.candidates.findIdx? fun backend ↦ held.includes backend.requires with
  | none => decide
  | some place => exact (List.findIdx?_eq_some_iff_getElem.1 hplace).1

theorem candidate_placeFor (held : Capabilities) :
    candidate (placeFor held) = Backend.select held := by
  rw [placeFor, candidate, Backend.select, List.find?_eq_bind_findIdx?_getElem?]
  cases Backend.candidates.findIdx? fun backend ↦ held.includes backend.requires <;> rfl

variable (host : Capabilities) (cells : Cells)

@[simp] theorem override_session : cells.session.override = cells.override := rfl

theorem toNat_place_probe :
    (cells.probe host).1.place.toNat = placeFor (cells.capabilities host) := by
  have hlt : placeFor (cells.capabilities host) < 2 ^ 8 :=
    Nat.lt_of_lt_of_le (placeFor_lt _) (by decide)
  exact UInt8.toNat_ofNat_of_lt hlt

theorem session_probe : (cells.probe host).1.session = (cells.session.probe host).session := by
  -- The place recorded is a candidate's, and none is at the place that stands for unset.
  have hplace : (cells.probe host).1.place ≠ unset := by
    intro h
    have hlt := placeFor_lt (cells.capabilities host)
    rw [← toNat_place_probe, h] at hlt
    exact absurd hlt (by decide)
  rw [session, if_neg hplace, toNat_place_probe, candidate_placeFor]
  rfl

theorem active_eq (answer : Backend → Answer) :
    (cells.active host).1.session = (cells.session.withBackend host answer).session ∧
      answer (cells.active host).2 = (cells.session.withBackend host answer).answer := by
  by_cases hplace : cells.place = unset
  · have hnone : cells.session.recorded = none := if_pos hplace
    simp only [active, if_pos hplace, withBackend, hnone, toNat_place_probe, candidate_placeFor]
    exact ⟨session_probe host cells, rfl⟩
  · have hsome : cells.session.recorded = some (candidate cells.place.toNat) := if_neg hplace
    simp only [active, if_neg hplace, withBackend, hsome, and_self]

theorem session_setOverride (value : Option Capabilities) :
    (cells.setOverride value).session = ⟨value, cells.session.recorded⟩ := by
  cases value <;> rfl

theorem session_step_and_answer_step (request : Request) :
    (cells.step host request).1.session = (cells.session.step host request).session ∧
      (cells.step host request).2 = (cells.session.step host request).answer := by
  cases request with
  | setOverride value => exact ⟨session_setOverride cells value, rfl⟩
  | hasOverride =>
      refine ⟨rfl, ?_⟩
      rw [step, Session.step, override_session, override]
      cases cells.installed <;> rfl
  | capabilities => exact ⟨rfl, rfl⟩
  | probe =>
      refine ⟨session_probe host cells, ?_⟩
      exact congrArg (fun backend ↦ Answer.flag backend.isHardware)
        (candidate_placeFor (cells.capabilities host))
  | isHardware => exact active_eq host cells fun backend ↦ .flag backend.isHardware
  | backendName => exact active_eq host cells fun backend ↦ .name backend.name
  | checksum running data plan =>
      cases data with
      | nil => exact ⟨rfl, rfl⟩
      | cons byte rest =>
          exact active_eq host cells fun backend ↦
            .checksum (crc32c backend.kernel running (byte :: rest) plan)

theorem session_run (requests : List Request) :
    (cells.run host requests).session = Session.run host cells.session requests := by
  induction requests generalizing cells with
  | nil => rfl
  | cons request requests ih =>
      have hstep := (session_step_and_answer_step host cells request).1
      rw [run, List.foldl_cons, ← run, ih, hstep]
      rfl

end Cells

end InterleavedCrc
