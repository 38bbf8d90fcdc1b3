import InterleavedCrc.Capabilities
import InterleavedCrc.Kernel

/-!
# Backends and sessions

A backend is a kernel with a name and the capabilities that it requires.  The
best candidate whose requirements are met is selected; the portable one requires
nothing.

A session holds an optional override of its capabilities and the backend that
the latest probe recorded.  An override is seen at once by whoever asks for the
capabilities, but by the backend only at the next probe.  Whoever needs a backend
before any probe makes one.
-/

namespace InterleavedCrc

inductive Backend where
  | sse42
  | portable
deriving DecidableEq

namespace Backend

def name : Backend → String
  | sse42 => "x86_64/sse4.2"
  | portable => "portable/slice8"

def requires : Backend → Capabilities
  | sse42 => Capabilities.sse42
  | portable => Capabilities.empty

def isHardware : Backend → Bool
  | sse42 => true
  | portable => false

def kernel : Backend → Kernel
  | sse42 => Kernel.instruction
  | portable => Kernel.portable

def candidates : List Backend := [sse42, portable]

def select (capabilities : Capabilities) : Backend :=
  (candidates.find? fun backend ↦ capabilities.includes backend.requires).getD portable

def event (backend : Backend) : Event :=
  ⟨.debug, "crc32c backend selected",
    [("backend", .text backend.name), ("hardware", .flag backend.isHardware)]⟩

end Backend

/-! ## Sessions -/

structure Session where
  override : Option Capabilities
  recorded : Option Backend
deriving DecidableEq

namespace Session

def fresh : Session := ⟨none, none⟩

/-- Told to claim no capability, and probed since. -/
def pinned : Session := ⟨some .empty, some .portable⟩

def capabilities (host : Capabilities) (session : Session) : Capabilities :=
  session.override.getD host

inductive Request where
  | setOverride (value : Option Capabilities)
  | hasOverride
  | capabilities
  | probe
  | isHardware
  | backendName
  | checksum (running : UInt32) (data : List UInt8) (plan : Plan)

inductive Answer where
  | done
  | flag (value : Bool)
  | capabilities (value : Capabilities)
  | name (value : String)
  | checksum (value : UInt32)

structure Outcome where
  session : Session
  answer : Answer
  events : List Event

def selected (host : Capabilities) (session : Session) : Backend :=
  Backend.select (session.capabilities host)

/-- Records the best backend and tells whether it is the hardware's. -/
def probe (host : Capabilities) (session : Session) : Outcome :=
  let backend := session.selected host
  ⟨⟨session.override, some backend⟩, .flag backend.isHardware, [backend.event]⟩

/-- Answers from the recorded backend, after a probe if there is none. -/
def withBackend (host : Capabilities) (session : Session) (answer : Backend → Answer) :
    Outcome :=
  match session.recorded with
  | some backend => ⟨session, answer backend, []⟩
  | none =>
      let backend := session.selected host
      ⟨(session.probe host).session, answer backend, [backend.event]⟩

/-- Empty data needs no backend. -/
def step (host : Capabilities) (session : Session) : Request → Outcome
  | .setOverride value => ⟨⟨value, session.recorded⟩, .done, []⟩
  | .hasOverride => ⟨session, .flag session.override.isSome, []⟩
  | .capabilities => ⟨session, .capabilities (session.capabilities host), []⟩
  | .probe => session.probe host
  | .isHardware => session.withBackend host fun backend ↦ .flag backend.isHardware
  | .backendName => session.withBackend host fun backend ↦ .name backend.name
  | .checksum running [] _ => ⟨session, .checksum running, []⟩
  | .checksum running data plan =>
      session.withBackend host fun backend ↦
        .checksum (crc32c backend.kernel running data plan)

def run (host : Capabilities) (session : Session) (requests : List Request) : Session :=
  requests.foldl (fun session request ↦ (session.step host request).session) session

end Session

end InterleavedCrc
