import MexOS.Ipc.Run
import Mathlib.Data.Fintype.Card

/-! How many ports there are, and what `port_create` leaves when it fails. -/

namespace MexOS.Ipc

open MexOS.Machine MexOS.Sched

/-- The slots that a port has. -/
def occupied (ports : Fin maxPorts → Port) : Finset (Fin maxPorts) := Finset.univ.filter fun i => (ports i).owner ≠ 0

namespace System

/-- The counter is the number of slots with an owner, and each of these has the
queue that the operations on it rely on. -/
structure Exact (system : System) : Prop where
  counted : system.portCount.toNat = (occupied system.ports).card
  filled : ∀ port, (system.ports port).owner ≠ 0 →
    (system.ports port).queue ≠ none ∧ (system.ports port).queueSize = msgQueueSize

/-- A `port_create` that fails changes neither the table nor the counter. -/
def Undone (system : System) (owner : Int) (allocated : Bool) : Prop :=
  (system.portCreate owner allocated).1 = -1 → (system.portCreate owner allocated).2.ports = system.ports ∧
    (system.portCreate owner allocated).2.portCount = system.portCount

/-- The call finds the table full, or it gets its queue and is made for a task. -/
def Serves (system : System) (owner : Int) (allocated : Bool) : Prop :=
  maxPorts ≤ system.portCount.toNat ∨ allocated = true ∧ owner ≠ 0

/-- A step that is no `port_create`, or one that is served. -/
inductive ServedStep (before : System) : Event → System → Prop
  | create : before.pending = none → before.Serves owner allocated →
    ServedStep before .silent (before.portCreate owner allocated).2
  | other : before.Step event after →
    (event = .silent → after.ports = before.ports ∧ after.portCount = before.portCount) → ServedStep before event after

variable {system before after : System} {port : Fin maxPorts} {owner : Int} {allocated : Bool} {event : Event}

theorem mem_occupied {ports : Fin maxPorts → Port} : port ∈ occupied ports ↔ (ports port).owner ≠ 0 := by
  simp [occupied]

theorem occupied_congr {ports ports' : Fin maxPorts → Port} (same : ∀ port, (ports' port).owner = (ports port).owner) :
    occupied ports' = occupied ports := by
  ext port
  rw [mem_occupied, mem_occupied, same]

theorem occupied_fill {ports : Fin maxPorts → Port} (free : (ports port).owner = 0) {p : Port} (taken : p.owner ≠ 0) :
    (occupied (Function.update ports port p)).card = (occupied ports).card + 1 := by
  have grown : occupied (Function.update ports port p) = insert port (occupied ports) := by
    ext other
    rw [Finset.mem_insert, mem_occupied, mem_occupied]
    by_cases same : other = port
    · subst same
      rw [Function.update_self]
      exact iff_of_true taken (.inl rfl)
    · rw [Function.update_of_ne same]
      exact (or_iff_right same).symm
  have absent : port ∉ occupied ports := fun member => mem_occupied.mp member free
  rw [grown, Finset.card_insert_of_notMem absent]

theorem occupied_clear {ports : Fin maxPorts → Port} (taken : (ports port).owner ≠ 0) :
    (occupied (Function.update ports port Port.zero)).card + 1 = (occupied ports).card := by
  have freed : (Function.update ports port Port.zero port).owner = 0 := by
    rw [Function.update_self]
    rfl
  have again := occupied_fill freed taken
  rw [Function.update_idem, Function.update_eq_self] at again
  exact again.symm

/-- A call that is served fails without a trace or fills a free slot. -/
theorem portCreate_served (served : system.Serves owner allocated) :
    system.portCreate owner allocated = (-1, system) ∨ ∃ port, (system.ports port).owner = 0 ∧ owner ≠ 0 ∧
      system.portCount.toNat < maxPorts ∧ system.portCreate owner allocated =
        ((port.val : Int), { system.setPort port (freshPort port owner) with portCount := system.portCount + 1 }) := by
  by_cases full : system.portCount.toNat ≥ maxPorts
  · left
    rw [portCreate, if_pos full]
  · obtain ⟨granted, someone⟩ := served.resolve_left full
    rw [portCreate, if_neg full]
    cases found : (List.finRange maxPorts).find? fun i => (system.ports i).owner = 0 with
    | none => exact .inl rfl
    | some i =>
      have free : (system.ports i).owner = 0 := by simpa using List.find?_some found
      refine .inr ⟨i, free, someone, Nat.lt_of_not_le full, ?_⟩
      subst granted
      rfl

theorem undone_of_serves (served : system.Serves owner allocated) : system.Undone owner allocated := by
  intro failed
  rcases portCreate_served served with nothing | ⟨port, _, _, _, filled⟩
  · rw [nothing]
    exact ⟨rfl, rfl⟩
  · rw [filled] at failed
    have positive : (0 : Int) ≤ port.val := Int.natCast_nonneg _
    simp only at failed
    omega

theorem Exact.create (exact : system.Exact) (served : system.Serves owner allocated) :
    (system.portCreate owner allocated).2.Exact := by
  rcases portCreate_served served with nothing | ⟨port, free, someone, room, filled⟩
  · rw [nothing]
    exact exact
  · rw [filled]
    constructor
    · have taken : (freshPort port owner).owner ≠ 0 := someone
      have counted := exact.counted
      rw [setPort_ports, occupied_fill free taken]
      rw [maxPorts] at room
      simp only
      bv_omega
    · intro other owned
      rw [setPort_ports] at owned ⊢
      by_cases same : other = port
      · subst same
        rw [Function.update_self]
        exact ⟨Option.some_ne_none _, rfl⟩
      · rw [Function.update_of_ne same] at owned ⊢
        exact exact.filled other owned

theorem Exact.destroy (exact : system.Exact) {portId : Int} (found : portAt portId = some port)
    (owned : (system.ports port).owner ≠ 0) : (system.portDestroy portId).2.Exact := by
  simp only [portDestroy, found, owned, ↓reduceIte]
  constructor
  · have fewer := occupied_clear owned
    have counted := exact.counted
    simp only [setPort_ports, wake_ports]
    bv_omega
  · intro other still
    simp only [setPort_ports, wake_ports] at still ⊢
    by_cases same : other = port
    · subst same
      rw [Function.update_self] at still
      exact absurd rfl still
    · rw [Function.update_of_ne same] at still ⊢
      exact exact.filled other still

end System

/-- A turn neither takes the owner or the size away nor the queue. -/
theorem Port.Returns.keeps {p p' : Port} {request : Request} {code : Int} {woken : Nat} {message : Option Message}
    (returns : p.Returns request code p' woken message) : p'.owner = p.owner ∧ p'.queueSize = p.queueSize ∧
      (p.queue ≠ none → p'.queue ≠ none) := by
  cases returns with
  | busy => exact ⟨rfl, rfl, fun present => present⟩
  | sent => exact ⟨rfl, rfl, fun _ => Option.some_ne_none _⟩
  | received => exact ⟨rfl, rfl, fun present => present⟩

theorem Port.Blocks.keeps {p p' : Port} {request : Request} {task : Nat} (blocks : p.Blocks task request p') :
    p'.owner = p.owner ∧ p'.queueSize = p.queueSize ∧ (p.queue ≠ none → p'.queue ≠ none) := by
  cases blocks with
  | full => exact ⟨rfl, rfl, fun present => present⟩
  | empty => exact ⟨rfl, rfl, fun present => present⟩

namespace System

variable {system before after : System} {port : Fin maxPorts} {owner : Int} {allocated : Bool} {event : Event}

/-- A step that changes no owner, no size and no counter and takes no queue
away. -/
theorem Exact.keep (exact : before.Exact) (counter : after.portCount = before.portCount)
    (keeps : ∀ port, (after.ports port).owner = (before.ports port).owner ∧
      (after.ports port).queueSize = (before.ports port).queueSize ∧
      ((before.ports port).queue ≠ none → (after.ports port).queue ≠ none)) : after.Exact := by
  constructor
  · rw [counter, occupied_congr fun port => (keeps port).1]
    exact exact.counted
  · intro port owned
    obtain ⟨owner, size, queue⟩ := keeps port
    rw [owner] at owned
    obtain ⟨present, full⟩ := exact.filled port owned
    exact ⟨queue present, size.trans full⟩

@[simp] theorem setPort_portCount (system : System) (port : Fin maxPorts) (p : Port) :
    (system.setPort port p).portCount = system.portCount := rfl

@[simp] theorem wake_portCount (system : System) (id : Nat) : (system.wake id).portCount = system.portCount := by
  unfold wake
  split <;> rfl

@[simp] theorem setInside_portCount (system : System) (place : Option (Fin maxPorts × Request)) :
    (system.setInside place).portCount = system.portCount := by
  unfold setInside
  split <;> rfl

theorem Exact.step (exact : before.Exact) (step : before.ServedStep event after) : after.Exact := by
  cases step with
  | create _ served => exact exact.create served
  | other step quiet =>
    have shown (loud : event ≠ .silent) (port : Fin maxPorts) (alive : event ≠ .destroyed port) :
        (after.ports port).owner = (before.ports port).owner ∧
          (after.ports port).queueSize = (before.ports port).queueSize ∧
          ((before.ports port).queue ≠ none → (after.ports port).queue ≠ none) := by
      have portStep := step.port_step port
      generalize after.ports port = p at portStep
      cases portStep with
      | same => exact ⟨rfl, rfl, id⟩
      | returned _ returns => exact returns.keeps
      | blocked _ blocks => exact blocks.keeps
      | failed => exact absurd rfl loud
      | created => exact absurd rfl loud
      | destroyed => exact absurd rfl alive
    have silent (still : event = .silent) : after.Exact := by
      obtain ⟨ports, counter⟩ := quiet still
      refine exact.keep counter fun port => ?_
      rw [ports]
      exact ⟨rfl, rfl, id⟩
    cases step with
    | refused => exact exact
    | returns executes turn =>
      refine exact.keep ?_ fun port => shown (by simp) port (by simp)
      rw [setInside_portCount, wake_portCount, setPort_portCount]
    | blocks executes running turn dispatch =>
      refine exact.keep ?_ fun port => shown (by simp) port (by simp)
      exact setInside_portCount _ _
    | reschedule => exact ⟨exact.counted, exact.filled⟩
    | create => exact silent rfl
    | destroy idle found owned => exact exact.destroy found owned

theorem Exact.initial {start : System} (initial : start.Initial) (counter : start.portCount = 0) : start.Exact := by
  have nobody (port : Fin maxPorts) : (start.ports port).owner = 0 := by
    rw [initial.ports]
    rfl
  constructor
  · have empty : occupied start.ports = ∅ := by
      ext port
      rw [mem_occupied, nobody]
      simp
    rw [counter, empty]
    rfl
  · intro port owned
    exact absurd (nobody port) owned

/-- In every run in which each `port_create` that finds room gets its queue and is
made for a task, the ports are counted exactly, and the next such call is all or
nothing. -/
theorem ports_counted (start system : System) (initial : start.Initial) (counter : start.portCount = 0) (events : List Event)
    (trace : Trace ServedStep start events system) :
    system.Exact ∧ ∀ owner allocated, system.Serves owner allocated → system.Undone owner allocated := by
  refine ⟨?_, fun owner allocated served => undone_of_serves served⟩
  refine trace.invariant (fun _ system => system.Exact) (Exact.initial initial counter) ?_
  intro _ before event after exact step
  exact exact.step step

/-- One port is made, and one more could be. -/
theorem ports_counted_one : ∃ system, Trace ServedStep (boot [1, 2]) [.silent] system ∧
    (system.Exact ∧ ∀ owner allocated, system.Serves owner allocated → system.Undone owner allocated) ∧
    system.portCount = 1 ∧ system.Serves 2 true := by
  have made : ServedStep (boot [1, 2]) .silent ((boot [1, 2]).portCreate 1 true).2 := .create rfl (.inr ⟨rfl, by decide⟩)
  have trace := Trace.nil.snoc made
  refine ⟨_, trace, ?_, by decide +kernel, .inr ⟨rfl, by decide⟩⟩
  exact ports_counted (boot [1, 2]) _ (boot_initial (by decide) (by decide)) rfl _ trace

/-- When there is no memory for the queue, the slot keeps its owner without
being counted. -/
theorem failed_create_keeps_slot : ¬ ∀ start system events, Initial start → start.portCount = 0 → Trace Step start events system →
    system.Exact ∧ ∀ owner allocated, system.Undone owner allocated := by
  intro always
  have made : Step (boot [1, 2]) .silent ((boot [1, 2]).portCreate 1 false).2 := .create rfl
  obtain ⟨exact, _⟩ := always (boot [1, 2]) _ _ (boot_initial (by decide) (by decide)) rfl (Trace.nil.snoc made)
  have owned : (((boot [1, 2]).portCreate 1 false).2.ports firstPort).owner ≠ 0 := by decide +kernel
  have missing : (((boot [1, 2]).portCreate 1 false).2.ports firstPort).queue.isSome = false := by decide +kernel
  have present := (exact.filled firstPort owned).1
  rw [Option.isSome_eq_false_iff, Option.isNone_iff_eq_none] at missing
  exact present missing

end System

end MexOS.Ipc
