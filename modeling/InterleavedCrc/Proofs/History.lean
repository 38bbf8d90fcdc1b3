import InterleavedCrc.Hasher.Bench
import InterleavedCrc.Proofs.Remainder
import InterleavedCrc.Proofs.Stream

/-!
# Histories of hashers

A history tells what a hasher was created with and what it was fed since then or
since its last reset; a clone takes over its source's.  Commands act on histories
as on hashers, with the same answers, so after any calls the hashers on a bench are
those of their histories (`Bench.Follows.run`), and a call leaves all other slots alone.
-/

namespace InterleavedCrc

structure History where
  origin : UInt32
  plan : Plan
  fed : List UInt8

namespace History

def start (origin : UInt32) (plan : Plan) : History := ⟨origin, plan, []⟩

def feed (history : History) (data : List UInt8) : History :=
  ⟨history.origin, history.plan, history.fed ++ data⟩

/-- The creation is remembered, what was fed since is not. -/
def forget (history : History) : History := start history.origin history.plan

def checksum (history : History) : UInt32 := bitwiseCrc history.origin history.fed

/-- The hasher whose history this is. -/
def hasher (history : History) : Hasher := ⟨history.checksum, history.origin, history.plan⟩

theorem hasher_start (origin : UInt32) (plan : Plan) :
    (start origin plan).hasher = .resumeWith origin plan := by
  rw [hasher, checksum, start, bitwiseCrc_nil]
  rfl

theorem hasher_forget (history : History) : history.forget.hasher = history.hasher.reset :=
  hasher_start history.origin history.plan

theorem hasher_feed {history : History} (hplan : history.plan.Obtainable) (backend : Backend)
    (data : List UInt8) :
    (history.feed data).hasher = history.hasher.update backend.kernel data := by
  rw [Hasher.update, hasher, hasher, crc32c_eq_bitwiseCrc hplan, checksum, checksum, feed,
    bitwiseCrc_append]

theorem feed_append (history : History) (a b : List UInt8) :
    (history.feed a).feed b = history.feed (a ++ b) := by
  rw [feed, feed, feed, List.append_assoc]

theorem hasher_feed_flatten {history : History} (hplan : history.plan.Obtainable)
    (backend : Backend) (buffers : List (List UInt8)) :
    (history.feed buffers.flatten).hasher = history.hasher.updateAll backend.kernel buffers := by
  induction buffers generalizing history with
  | nil =>
      rw [List.flatten_nil, hasher_feed hplan backend, Hasher.update_nil]
      rfl
  | cons buffer buffers ih =>
      have hfed : (history.feed buffer).plan.Obtainable := hplan
      have hrest := ih hfed
      rw [feed_append, hasher_feed hplan backend buffer] at hrest
      exact hrest

theorem hasher_feed_slices {history : History} (hplan : history.plan.Obtainable)
    (backend : Backend) (slices : List Slice) :
    (history.feed (slices.map Slice.bytes).flatten).hasher
      = history.hasher.updateSlices backend.kernel slices := by
  rw [Hasher.updateSlices, Algorithm.updateSlices_eq]
  exact hasher_feed_flatten hplan backend (slices.map Slice.bytes)

end History

namespace Action

/-- The plan that the action gives to a hasher, if any, is one at hand. -/
def Accepted : Action → Prop
  | newWith given => given.Obtainable
  | resumeWith _ given => given.Obtainable
  | _ => True

/-- The action puts another hasher into its slot. -/
def creates : Action → Bool
  | .new | .default | .newWith _ | .resume _ | .resumeWith _ _ | .clone _ => true
  | _ => false

/-- The slots that the action in a slot reads. -/
def reads (slot : ℕ) : Action → List ℕ
  | .new | .default | .newWith _ | .resume _ | .resumeWith _ _ => []
  | .clone source => [source]
  | .combine other _ => [slot, other]
  | _ => [slot]

end Action

/-- The history of the hasher in each slot. -/
abbrev Histories := ℕ → Option History

namespace Histories

def empty : Histories := fun _ ↦ none

def act (histories : Histories) (slot : ℕ) : Action → Option (History × Bench.Answer)
  | .new => some (.start 0 .standard, .done)
  | .default => some (.start 0 .standard, .done)
  | .newWith plan => some (.start 0 plan, .done)
  | .resume crc => some (.start crc .standard, .done)
  | .resumeWith crc plan => some (.start crc plan, .done)
  | .clone source => (histories source).map fun history ↦ (history, .done)
  | .update data => (histories slot).map fun history ↦ (history.feed data, .done)
  | .updateAll buffers => (histories slot).map fun history ↦ (history.feed buffers.flatten, .done)
  | .updateSlices slices =>
      (histories slot).map fun history ↦ (history.feed (slices.map Slice.bytes).flatten, .done)
  | .write data => (histories slot).map fun history ↦ (history.feed data, .taken data.length)
  | .writeAll data => (histories slot).map fun history ↦ (history.feed data, .succeeded true)
  | .flush => (histories slot).map fun history ↦ (history, .succeeded true)
  | .reset => (histories slot).map fun history ↦ (history.forget, .done)
  | .finalize => (histories slot).map fun history ↦ (history, .checksum history.checksum)
  | .plan => (histories slot).map fun history ↦ (history, .plan history.plan)
  | .outline => (histories slot).map fun history ↦ (history, .outline history.hasher.outline)
  | .combine other length => do
      let history ← histories slot
      let second ← histories other
      return (history, .checksum (InterleavedCrc.combine history.checksum second.checksum length))

def step (histories : Histories) (command : Command) : Option (Histories × Bench.Answer) :=
  (histories.act command.slot command.action).map fun (history, answer) ↦
    (Function.update histories command.slot (some history), answer)

/-- The histories after the commands, and their answers in order. -/
def run (histories : Histories) : List Command → Option (Histories × List Bench.Answer)
  | [] => some (histories, [])
  | command :: commands => do
      let (next, answer) ← histories.step command
      (next.run commands).map fun (last, answers) ↦ (last, answer :: answers)

theorem exists_of_map_eq_some {held : Option History} {f : History → History × Bench.Answer}
    {next : History} {answer : Bench.Answer} (h : held.map f = some (next, answer)) :
    ∃ before, held = some before ∧ answer = (f before).2 := by
  obtain ⟨before, hbefore, heq⟩ := Option.map_eq_some_iff.1 h
  exact ⟨before, hbefore, congrArg Prod.snd heq.symm⟩

/-- Unless an action puts another hasher into its slot, the creation stays as it was. -/
theorem kept_of_act {histories : Histories} {slot : ℕ} {action : Action} {next : History}
    {answer : Bench.Answer} (hcreates : action.creates = false)
    (h : histories.act slot action = some (next, answer)) :
    ∃ history, histories slot = some history ∧ next.origin = history.origin ∧
      next.plan = history.plan := by
  cases action with
  | new | default | newWith | resume | resumeWith | clone => cases hcreates
  | combine other length =>
      obtain ⟨history, hslot, h⟩ := Option.bind_eq_some_iff.1 h
      obtain ⟨second, -, h⟩ := Option.bind_eq_some_iff.1 h
      obtain ⟨rfl, -⟩ := Prod.mk.inj (Option.some.inj h)
      exact ⟨history, hslot, rfl, rfl⟩
  | _ =>
      obtain ⟨history, hslot, h⟩ := Option.map_eq_some_iff.1 h
      obtain ⟨rfl, -⟩ := Prod.mk.inj h
      exact ⟨history, hslot, rfl, rfl⟩

theorem obtainable_of_act {histories : Histories} {slot : ℕ} {action : Action} {next : History}
    {answer : Bench.Answer}
    (hhistories : ∀ slot history, histories slot = some history → history.plan.Obtainable)
    (haction : action.Accepted) (h : histories.act slot action = some (next, answer)) :
    next.plan.Obtainable := by
  cases hcreates : action.creates with
  | false =>
      obtain ⟨history, hslot, -, hplan⟩ := kept_of_act hcreates h
      exact hplan ▸ hhistories slot history hslot
  | true =>
      cases action with
      | new | default | resume =>
          cases h
          exact Plan.obtainable_standard
      | newWith | resumeWith =>
          cases h
          exact haction
      | clone source =>
          obtain ⟨history, hsource, h⟩ := Option.map_eq_some_iff.1 h
          obtain ⟨rfl, -⟩ := Prod.mk.inj h
          exact hhistories source history hsource
      | _ => cases hcreates

end Histories

/-! ## Commands on a bench -/

namespace Bench

theorem actGeneric_eq (kernel : Kernel) (bench : Bench) (slot : ℕ) (action : Action) :
    bench.actGeneric kernel slot action = bench.act kernel slot action := by
  cases action <;> rfl

theorem perform_eq_step (bench : Bench) (call : Call) :
    bench.perform call = bench.step call.backend.kernel call.command := by
  rw [perform, actGeneric_eq]
  exact ite_self _

/-- A call has a result exactly when the slots that it reads hold hashers. -/
theorem isSome_perform_iff (bench : Bench) (call : Call) :
    (bench.perform call).isSome ↔
      ∀ slot ∈ call.command.action.reads call.command.slot, (bench.get? slot).isSome := by
  obtain ⟨backend, generic, slot, action⟩ := call
  rw [perform_eq_step, step, Option.isSome_map]
  cases action with
  | combine other length =>
      cases hslot : bench.get? slot <;> cases hother : bench.get? other <;>
        simp [act, Action.reads, hslot, hother]
  | _ => simp [act, Action.reads]

/-- Every slot holds the hasher of its history, with a plan at hand. -/
structure Follows (bench : Bench) (histories : Histories) : Prop where
  get?_eq : ∀ slot, bench.get? slot = (histories slot).map History.hasher
  obtainable : ∀ slot history, histories slot = some history → history.plan.Obtainable

/-- Both have no result, or they are told the same and the bench follows the histories. -/
def Agree {Told : Type} : Option (Bench × Told) → Option (Histories × Told) → Prop :=
  Option.Rel fun here there ↦ here.1.Follows there.1 ∧ here.2 = there.2

namespace Agree

variable {Told : Type} {here : Option (Bench × Told)} {there : Option (Histories × Told)}

theorem map_snd_eq (h : Agree here there) : here.map Prod.snd = there.map Prod.snd := by
  cases h with
  | none => rfl
  | some h => exact congrArg some h.2

theorem exists_of_eq_some (h : Agree here there) {bench : Bench} {told : Told}
    (hhere : here = some (bench, told)) :
    ∃ histories, there = some (histories, told) ∧ bench.Follows histories := by
  subst hhere
  rcases h with ⟨hfollows, rfl⟩
  exact ⟨_, rfl, hfollows⟩

/-- One more answer was given before. -/
theorem map_cons {here : Option (Bench × List Answer)} {there : Option (Histories × List Answer)}
    (h : Agree here there) (answer : Answer) :
    Agree (here.map fun (last, answers) ↦ (last, answer :: answers))
      (there.map fun (last, answers) ↦ (last, answer :: answers)) := by
  cases h with
  | none => exact .none
  | some h => exact .some ⟨h.1, congrArg (answer :: ·) h.2⟩

end Agree

namespace Follows

variable {bench : Bench} {histories : Histories}

/-- What is done to the hasher of a slot is done to its history. -/
theorem map_eq (h : bench.Follows histories) (slot : ℕ) {f : Hasher → Hasher × Answer}
    {g : History → History × Answer}
    (hfg : ∀ history, history.plan.Obtainable →
      f history.hasher = ((g history).1.hasher, (g history).2)) :
    (bench.get? slot).map f
      = ((histories slot).map g).map fun (history, answer) ↦ (history.hasher, answer) := by
  rw [h.get?_eq, Option.map_map, Option.map_map]
  apply Option.map_congr
  intro history hhistory
  exact hfg history (h.obtainable slot history hhistory)

theorem act_eq (h : bench.Follows histories) (backend : Backend) (slot : ℕ) (action : Action) :
    bench.act backend.kernel slot action
      = (histories.act slot action).map fun (history, answer) ↦ (history.hasher, answer) := by
  have hstart : ∀ origin plan, some (Hasher.resumeWith origin plan, Answer.done)
      = some ((History.start origin plan).hasher, Answer.done) :=
    fun origin plan ↦ by rw [History.hasher_start]
  cases action with
  | new => exact hstart 0 .standard
  | default => exact hstart 0 .standard
  | newWith plan => exact hstart 0 plan
  | resume crc => exact hstart crc .standard
  | resumeWith crc plan => exact hstart crc plan
  | clone source => exact h.map_eq source fun history _ ↦ rfl
  | update data =>
      refine h.map_eq slot fun history hplan ↦ ?_
      rw [History.hasher_feed hplan backend]
  | updateAll buffers =>
      refine h.map_eq slot fun history hplan ↦ ?_
      rw [History.hasher_feed_flatten hplan backend]
  | updateSlices slices =>
      refine h.map_eq slot fun history hplan ↦ ?_
      rw [History.hasher_feed_slices hplan backend]
  | write data =>
      refine h.map_eq slot fun history hplan ↦ ?_
      rw [History.hasher_feed hplan backend]
      rfl
  | writeAll data =>
      refine h.map_eq slot fun history hplan ↦ ?_
      rw [Hasher.writeAll_eq, History.hasher_feed hplan backend]
  | flush => exact h.map_eq slot fun history _ ↦ rfl
  | reset =>
      refine h.map_eq slot fun history _ ↦ ?_
      rw [History.hasher_forget]
  | finalize => exact h.map_eq slot fun history _ ↦ rfl
  | plan => exact h.map_eq slot fun history _ ↦ rfl
  | outline => exact h.map_eq slot fun history _ ↦ rfl
  | combine other length =>
      rw [act, Histories.act, h.get?_eq, h.get?_eq]
      cases histories slot <;> cases histories other <;> rfl

theorem empty : Bench.empty.Follows Histories.empty :=
  ⟨fun _ ↦ rfl, fun _ _ h ↦ nomatch h⟩

theorem put (h : bench.Follows histories) (slot : ℕ) {history : History}
    (hplan : history.plan.Obtainable) :
    (bench.put slot history.hasher).Follows (Function.update histories slot (some history)) where
  get?_eq other := by
    by_cases hother : other = slot
    · rw [hother, get?_put_self, Function.update_self]
      rfl
    · rw [get?_put_ne _ hother, Function.update_of_ne hother]
      exact h.get?_eq other
  obtainable other second hsecond := by
    by_cases hother : other = slot
    · rw [hother, Function.update_self] at hsecond
      cases hsecond
      exact hplan
    · rw [Function.update_of_ne hother] at hsecond
      exact h.obtainable other second hsecond

/-- A call does to the hashers what its command does to their histories. -/
theorem perform (h : bench.Follows histories) {call : Call}
    (haction : call.command.action.Accepted) :
    Agree (bench.perform call) (histories.step call.command) := by
  rw [perform_eq_step, step, h.act_eq, Histories.step]
  cases hact : histories.act call.command.slot call.command.action with
  | none => exact .none
  | some result =>
      have hplan : result.1.plan.Obtainable :=
        Histories.obtainable_of_act h.obtainable haction hact
      exact .some ⟨h.put call.command.slot hplan, rfl⟩

theorem run (h : bench.Follows histories) {calls : List Call}
    (hcalls : ∀ call ∈ calls, call.command.action.Accepted) :
    Agree (bench.run calls) (histories.run (calls.map Call.command)) := by
  induction calls generalizing bench histories with
  | nil => exact .some ⟨h, rfl⟩
  | cons call calls ih =>
      have hcall := h.perform (hcalls call List.mem_cons_self)
      rw [Bench.run, List.map_cons, Histories.run]
      generalize bench.perform call = here, histories.step call.command = there at hcall ⊢
      rcases hcall with @⟨⟨next, answer⟩, ⟨nextHistories, _⟩, hnext, rfl⟩ | _
      · have hrest := ih hnext fun call hcall ↦ hcalls call (List.mem_cons_of_mem _ hcall)
        exact hrest.map_cons answer
      · exact .none

/-- A call that has a result acts on a history and puts its hasher into the slot. -/
theorem exists_of_perform (h : bench.Follows histories) {next : Bench} {call : Call}
    {answer : Answer} (hperform : bench.perform call = some (next, answer)) :
    ∃ history,
      histories.act call.command.slot call.command.action = some (history, answer) ∧
      next = bench.put call.command.slot history.hasher := by
  rw [perform_eq_step, Bench.step, h.act_eq] at hperform
  cases hact : histories.act call.command.slot call.command.action with
  | none =>
      rw [hact] at hperform
      cases hperform
  | some result =>
      rw [hact] at hperform
      cases hperform
      exact ⟨result.1, rfl, rfl⟩

end Follows

/-- What may be relied on when a call has a result, on the hashers of these histories. -/
structure Transition (histories : Histories) (bench : Bench) (call : Call) (next : Bench)
    (answer : Answer) : Prop where
  others : ∀ slot, slot ≠ call.command.slot → next.get? slot = bench.get? slot
  creation : call.command.action.creates = false →
    ∃ before after, bench.get? call.command.slot = some before ∧
      next.get? call.command.slot = some after ∧
      after.initial = before.initial ∧ after.plan = before.plan
  write : ∀ data, call.command.action = .write data → answer = .taken data.length
  writeAll : ∀ data, call.command.action = .writeAll data → answer = .succeeded true
  flush : call.command.action = .flush → answer = .succeeded true
  finalize : call.command.action = .finalize →
    ∃ history, histories call.command.slot = some history ∧
      answer = .checksum (~~~Register.feed castagnoli (~~~history.origin) history.fed)
  plan : call.command.action = .plan →
    ∃ history, histories call.command.slot = some history ∧ answer = .plan history.plan
  combine : ∀ other length, call.command.action = .combine other length →
    ∃ history second, histories call.command.slot = some history ∧
      histories other = some second ∧
      answer = .checksum (InterleavedCrc.combine
        (~~~Register.feed castagnoli (~~~history.origin) history.fed)
        (~~~Register.feed castagnoli (~~~second.origin) second.fed) length)

theorem Follows.transition {bench next : Bench} {histories : Histories} {call : Call}
    {answer : Answer} (h : bench.Follows histories)
    (hperform : bench.perform call = some (next, answer)) :
    bench.Transition histories call next answer := by
  obtain ⟨history, hact, rfl⟩ := h.exists_of_perform hperform
  exact
    { others := fun slot hslot ↦ get?_put_ne bench hslot _
      creation := fun hcreates ↦ by
        obtain ⟨before, hslot, horigin, hplan⟩ := Histories.kept_of_act hcreates hact
        have hget : bench.get? call.command.slot = some before.hasher := by
          rw [h.get?_eq, hslot]
          rfl
        exact ⟨before.hasher, history.hasher, hget, get?_put_self _ _ _, horigin, hplan⟩
      write := fun data haction ↦ by
        rw [haction] at hact
        obtain ⟨_, -, hanswer⟩ := Histories.exists_of_map_eq_some hact
        exact hanswer
      writeAll := fun data haction ↦ by
        rw [haction] at hact
        obtain ⟨_, -, hanswer⟩ := Histories.exists_of_map_eq_some hact
        exact hanswer
      flush := fun haction ↦ by
        rw [haction] at hact
        obtain ⟨_, -, hanswer⟩ := Histories.exists_of_map_eq_some hact
        exact hanswer
      finalize := fun haction ↦ by
        rw [haction] at hact
        exact Histories.exists_of_map_eq_some hact
      plan := fun haction ↦ by
        rw [haction] at hact
        exact Histories.exists_of_map_eq_some hact
      combine := fun other length haction ↦ by
        rw [haction] at hact
        obtain ⟨first, hslot, hrest⟩ := Option.bind_eq_some_iff.1 hact
        obtain ⟨second, hother, heq⟩ := Option.bind_eq_some_iff.1 hrest
        exact ⟨first, second, hslot, hother, (Prod.mk.inj (Option.some.inj heq)).2.symm⟩ }

end Bench

/-- Every hasher on a bench is that of its history, every call is answered as the histories
say, and so it stays whatever is called next, which has a result whenever the hashers that it
reads are there. -/
theorem hashers_follow_histories {calls : List Call}
    (hcalls : ∀ call ∈ calls, call.command.action.Accepted) :
    (Bench.run .empty calls).map Prod.snd
        = (Histories.run .empty (calls.map Call.command)).map Prod.snd ∧
      ∀ bench answers, Bench.run .empty calls = some (bench, answers) →
        ∃ histories, Histories.run .empty (calls.map Call.command) = some (histories, answers) ∧
          (∀ slot, bench.get? slot = (histories slot).map fun history ↦
            { crc := ~~~Register.feed castagnoli (~~~history.origin) history.fed
              initial := history.origin
              plan := history.plan }) ∧
          (∀ slot hasher, bench.get? slot = some hasher →
            ∃ history, histories slot = some history ∧
              hasher.finalize = ~~~Register.feed castagnoli (~~~history.origin) history.fed ∧
              hasher.initial = history.origin ∧ hasher.plan = history.plan) ∧
          ∀ call : Call,
            ((bench.perform call).isSome ↔
              ∀ slot ∈ call.command.action.reads call.command.slot, (bench.get? slot).isSome) ∧
            ∀ next answer, bench.perform call = some (next, answer) →
              bench.Transition histories call next answer := by
  have hagree := Bench.Follows.empty.run hcalls
  refine ⟨hagree.map_snd_eq, fun bench answers hbench ↦ ?_⟩
  obtain ⟨histories, hhistories, hfollows⟩ := hagree.exists_of_eq_some hbench
  refine ⟨histories, hhistories, hfollows.get?_eq, fun slot hasher hget ↦ ?_, fun call ↦
    ⟨bench.isSome_perform_iff call, fun next answer hperform ↦ hfollows.transition hperform⟩⟩
  rw [hfollows.get?_eq] at hget
  obtain ⟨history, hhistory, rfl⟩ := Option.map_eq_some_iff.1 hget
  exact ⟨history, hhistory, rfl, rfl, rfl⟩

/-- A hasher is fed three digits and cloned; the clone is fed the other six, and then
the source starts over.  A third one joins the clone's checksum to its own.  The backend
changes in between. -/
def digitCalls : List Call :=
  [⟨.sse42, false, ⟨0, .newWith nestedPlan⟩⟩,
    ⟨.sse42, true, ⟨2, .default⟩⟩,
    ⟨.sse42, true, ⟨0, .update [0x31, 0x32, 0x33]⟩⟩,
    ⟨.portable, false, ⟨1, .clone 0⟩⟩,
    ⟨.portable, true, ⟨1, .updateAll [[0x34], [], [0x35, 0x36]]⟩⟩,
    ⟨.portable, true, ⟨1, .updateSlices [⟨[0x37]⟩, ⟨[0x38]⟩]⟩⟩,
    ⟨.portable, false, ⟨1, .writeAll [0x39]⟩⟩,
    ⟨.portable, true, ⟨0, .reset⟩⟩,
    ⟨.sse42, true, ⟨1, .finalize⟩⟩,
    ⟨.sse42, false, ⟨1, .plan⟩⟩,
    ⟨.sse42, true, ⟨2, .combine 1 9⟩⟩]

def digitAnswers : List Bench.Answer :=
  [.done, .done, .done, .done, .done, .done, .succeeded true, .done, .checksum 0xE3069283,
    .plan nestedPlan, .checksum 0xE3069283]

theorem histories_of_digitCalls :
    (∀ call ∈ digitCalls, call.command.action.Accepted) ∧
      ∃ bench, Bench.run .empty digitCalls = some (bench, digitAnswers) ∧
        bench.get? 0 = some ⟨0, 0, nestedPlan⟩ ∧
        bench.get? 1 = some ⟨0xE3069283, 0, nestedPlan⟩ ∧
        bench.get? 2 = some ⟨0, 0, .standard⟩ ∧
        ∃ next, bench.perform ⟨.sse42, false, ⟨0, .write [0x31]⟩⟩ = some (next, .taken 1) ∧
          next.get? 1 = bench.get? 1 := by
  have hcalls : ∀ call ∈ digitCalls, call.command.action.Accepted := by
    simp only [digitCalls, List.forall_mem_cons]
    exact ⟨obtainable_nestedPlan, trivial, trivial, trivial, trivial, trivial, trivial, trivial,
      trivial, trivial, trivial, by simp⟩
  have hvalue : bitwiseCrc 0 digits = 0xE3069283 := by decide +kernel
  have hjoined : combine (bitwiseCrc 0 []) (bitwiseCrc 0 digits) 9 = 0xE3069283 := by
    decide +kernel
  obtain ⟨histories, hhistories, hslots⟩ : ∃ histories : Histories,
      Histories.run .empty (digitCalls.map Call.command) = some (histories,
        [.done, .done, .done, .done, .done, .done, .succeeded true, .done,
          .checksum (bitwiseCrc 0 digits), .plan nestedPlan,
          .checksum (combine (bitwiseCrc 0 []) (bitwiseCrc 0 digits) 9)]) ∧
      histories 0 = some (.start 0 nestedPlan) ∧ histories 1 = some ⟨0, nestedPlan, digits⟩ ∧
        histories 2 = some (.start 0 .standard) := ⟨_, rfl, rfl, rfl, rfl⟩
  obtain ⟨hfirst, hsecond, hlast⟩ := hslots
  rw [hjoined, hvalue] at hhistories
  obtain ⟨hanswers, hall⟩ := hashers_follow_histories hcalls
  rw [hhistories] at hanswers
  obtain ⟨⟨bench, answers⟩, hbench, rfl⟩ := Option.map_eq_some_iff.1 hanswers
  obtain ⟨others, hothers, hget, -, hnext⟩ := hall bench _ hbench
  obtain rfl : histories = others :=
    congrArg Prod.fst (Option.some.inj (hhistories.symm.trans hothers))
  have hsource : bench.get? 0 = some ⟨0, 0, nestedPlan⟩ := by
    rw [hget, hfirst]
    rfl
  have hclone : bench.get? 1 = some ⟨0xE3069283, 0, nestedPlan⟩ := by
    rw [hget, hsecond, ← hvalue]
    rfl
  have hthird : bench.get? 2 = some ⟨0, 0, .standard⟩ := by
    rw [hget, hlast]
    rfl
  obtain ⟨hreads, htransition⟩ := hnext ⟨.sse42, false, ⟨0, .write [0x31]⟩⟩
  have hresult := hreads.2 (by simp [Action.reads, hsource])
  obtain ⟨⟨next, answer⟩, hperform⟩ := Option.isSome_iff_exists.1 hresult
  have hwrite := htransition next answer hperform
  obtain rfl : answer = .taken 1 := hwrite.write [0x31] rfl
  exact ⟨hcalls, bench, hbench, hsource, hclone, hthird, next, hperform,
    hwrite.others 1 (by decide)⟩

end InterleavedCrc
