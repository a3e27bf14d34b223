import MexOS.Ipc.PortStep
import MexOS.Machine.Transition

/-! The system as it runs under the scheduler of `sched.c`, which is one of the
interleavings that `System.Step` allows. -/

namespace MexOS.Ipc

open MexOS.Machine MexOS.Sched

inductive Action where
  | call (call : Call)
  | resume
  | yield
  | create (owner : Int) (allocated : Bool)
  | destroy (portId : Int)

namespace System

/-- One turn of the current task; `none` is a fault. -/
def runTurn (system : System) (port : Fin maxPorts) (request : Request) : Option (Event × System) :=
  match (system.ports port).turn request system.sched.currentTask with
  | .fault => none
  | .returns result p woken message =>
    some (.returned port request result message, ((system.setPort port p).wake woken).setInside none)
  | .blocks p =>
    system.sched.currentTask.map fun current =>
      (.blocked port request current,
        { (system.setPort port p).setInside (some (port, request)) with
          sched := (system.sched.markBlocked current).schedule })

/-- `none` where the action does not apply: a call from inside a call, a fault,
a failed `port_destroy`. -/
def perform (system : System) : Action → Option (Event × System)
  | .call call =>
    match system.pending, system.enter call with
    | some _, _ => none
    | none, none => some (.silent, system)
    | none, some (port, request) => system.runTurn port request
  | .resume =>
    match system.pending with
    | none => none
    | some (port, request) => system.runTurn port request
  | .yield => some (.silent, { system with sched := system.sched.schedule })
  | .create owner allocated =>
    match system.pending with
    | some _ => none
    | none => some (.silent, (system.portCreate owner allocated).2)
  | .destroy portId =>
    match system.pending, portAt portId with
    | none, some port =>
      if (system.ports port).owner = 0 then none else some (.destroyed port, (system.portDestroy portId).2)
    | _, _ => none

def run (system : System) : List Action → Option (List Event × System)
  | [] => some ([], system)
  | action :: rest =>
    match system.perform action with
    | none => none
    | some (event, next) => (next.run rest).map fun (events, last) => (event :: events, last)

theorem runTurn_step {system : System} (valid : system.sched.Valid) (executes : system.Executes port request)
    (result : system.runTurn port request = some (event, next)) : system.Step event next := by
  unfold runTurn at result
  split at result
  · cases result
  · next turn =>
    cases result
    exact .returns executes turn
  · next turn =>
    rw [Option.map_eq_some_iff] at result
    obtain ⟨current, running, result⟩ := result
    cases result
    exact .blocks executes running turn (valid.markBlocked current).schedule_dispatch

theorem perform_step {system : System} (valid : system.sched.Valid)
    (result : system.perform action = some (event, next)) : system.Step event next := by
  cases action with
  | call call =>
    simp only [perform] at result
    split at result
    · cases result
    · next outside refused =>
      cases result
      exact .refused outside refused
    · next outside entered => exact runTurn_step valid (.inr ⟨outside, call, entered⟩) result
  | resume =>
    simp only [perform] at result
    split at result
    · cases result
    · next inside => exact runTurn_step valid (.inl inside) result
  | yield =>
    cases result
    exact .reschedule valid.schedule_dispatch
  | create owner allocated =>
    simp only [perform] at result
    split at result
    · cases result
    · next outside =>
      cases result
      exact .create outside
  | destroy portId =>
    simp only [perform] at result
    split at result
    · next port outside found =>
      split at result
      · cases result
      · next owned =>
        cases result
        exact .destroy outside found owned
    · cases result

theorem Step.valid {before after : System} (step : Step before event after) (valid : before.sched.Valid) :
    after.sched.Valid := by
  have woken (system : System) (id : Nat) (valid : system.sched.Valid) : (system.wake id).sched.Valid := by
    unfold wake
    split
    · exact valid
    · exact valid.schedUnblock id
  cases step with
  | refused => exact valid
  | returns =>
    rw [setInside_sched]
    exact woken _ _ valid
  | blocks _ _ _ dispatch => exact (valid.markBlocked _).dispatch dispatch
  | reschedule dispatch => exact valid.dispatch dispatch
  | create =>
    rw [portCreate_sched]
    exact valid
  | destroy _ found owned =>
    simp only [portDestroy, found, owned, ↓reduceIte]
    exact woken _ _ (woken _ _ valid)

theorem run_trace {start system : System} (valid : system.sched.Valid) {earlier : List Event}
    (before : Trace Step start earlier system) (actions : List Action)
    (result : system.run actions = some (events, last)) : Trace Step start (earlier ++ events) last := by
  induction actions generalizing system earlier events with
  | nil =>
    cases result
    simpa using before
  | cons action rest ih =>
    simp only [run] at result
    split at result
    · cases result
    · next event next performed =>
      rw [Option.map_eq_some_iff] at result
      obtain ⟨⟨later, reached⟩, further, same⟩ := result
      cases same
      have step := perform_step valid performed
      have trace := ih (step.valid valid) (before.snoc step) further
      simpa using trace

/-- A task list as the boot code leaves it: the first task runs, the others
wait for the processor. -/
def boot (tasks : List Nat) : System where
  ports _ := Port.zero
  portCount := 0
  sched :=
    { taskQueue := tasks.zipIdx.map fun (id, place) =>
        { id, state := if place = 0 then .running else .ready, priority := 1, timeSlice := 10 }
      currentTask := tasks.head? }
  inside _ := none

theorem boot_initial {tasks : List Nat} (distinct : tasks.Nodup) (nonzero : 0 ∉ tasks) : (boot tasks).Initial := by
  have ids : (boot tasks).sched.taskQueue.map Task.id = tasks := by
    simp [boot, List.map_map, Function.comp_def]
  refine ⟨fun _ => rfl, fun _ => rfl, ?_, ?_, ?_⟩
  · rw [ids]
    exact distinct
  · rw [ids]
    exact nonzero
  · intro id current
    rw [ids]
    exact List.mem_of_head? current

/-- A check that the run of some actions passes holds of a state that the
system reaches. -/
theorem run_reaches {tasks : List Nat} (distinct : tasks.Nodup) (nonzero : 0 ∉ tasks)
    {check : List Event → System → Bool} {actions : List Action}
    (passes : ((boot tasks).run actions).map (fun result => check result.1 result.2) = some true) :
    ∃ events last, Trace Step (boot tasks) events last ∧ check events last = true := by
  rw [Option.map_eq_some_iff] at passes
  obtain ⟨⟨events, last⟩, result, passed⟩ := passes
  exact ⟨events, last, run_trace (boot_initial distinct nonzero).sched .nil actions result, passed⟩

end System

/-- The slot that the first `port_create` fills. -/
def firstPort : Fin maxPorts := ⟨0, maxPorts_pos⟩

end MexOS.Ipc
