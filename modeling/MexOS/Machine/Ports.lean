import MexOS.Machine.Memory

/-! Programs that talk to devices through ports, and the machines they run on. -/

namespace MexOS.Machine

abbrev Port := BitVec 16

/-- What `in` and `out` of some width do to the machine behind the ports. -/
structure Bus (σ : Type) where
  read (width : Nat) : Port → σ → BitVec width × σ
  write (width : Nat) : Port → BitVec width → σ → σ

/-- A computation whose only effects are port accesses. -/
inductive PortProgram (α : Type) where
  | done (result : α)
  | input (width : Nat) (port : Port) (next : BitVec width → PortProgram α)
  | output (width : Nat) (port : Port) (value : BitVec width) (next : PortProgram α)

namespace PortProgram

variable {α β σ τ : Type}

def andThen : PortProgram α → (α → PortProgram β) → PortProgram β
  | done result, f => f result
  | input width port next, f => input width port fun value => (next value).andThen f
  | output width port value next, f => output width port value (next.andThen f)

instance : Monad PortProgram where
  pure := done
  bind := andThen

def inb (port : Port) : PortProgram (BitVec 8) := input 8 port done
def inw (port : Port) : PortProgram (BitVec 16) := input 16 port done
def inl (port : Port) : PortProgram (BitVec 32) := input 32 port done
def outb (port : Port) (value : BitVec 8) : PortProgram Unit := output 8 port value (done ())
def outw (port : Port) (value : BitVec 16) : PortProgram Unit := output 16 port value (done ())
def outl (port : Port) (value : BitVec 32) : PortProgram Unit := output 32 port value (done ())

def run (bus : Bus σ) : PortProgram α → σ → α × σ
  | done result, s => (result, s)
  | input width port next, s => (next (bus.read width port s).1).run bus (bus.read width port s).2
  | output width port value next, s => next.run bus (bus.write width port value s)

@[simp] theorem run_pure (bus : Bus σ) (a : α) (s : σ) : (pure a : PortProgram α).run bus s = (a, s) := rfl

@[simp] theorem run_bind (bus : Bus σ) (m : PortProgram α) (f : α → PortProgram β) (s : σ) :
    (m >>= f).run bus s = (f (m.run bus s).1).run bus (m.run bus s).2 := by
  change (m.andThen f).run bus s = _
  induction m generalizing s with
  | done => rfl
  | input width port next ih => exact ih _ _
  | output width port value next ih => exact ih _

section Instructions

variable (bus : Bus σ) (port : Port) (s : σ)

@[simp] theorem run_inb : (inb port).run bus s = bus.read 8 port s := rfl
@[simp] theorem run_inw : (inw port).run bus s = bus.read 16 port s := rfl
@[simp] theorem run_inl : (inl port).run bus s = bus.read 32 port s := rfl
@[simp] theorem run_outb (value : BitVec 8) : (outb port value).run bus s = ((), bus.write 8 port value s) := rfl
@[simp] theorem run_outw (value : BitVec 16) : (outw port value).run bus s = ((), bus.write 16 port value s) := rfl
@[simp] theorem run_outl (value : BitVec 32) : (outl port value).run bus s = ((), bus.write 32 port value s) := rfl

end Instructions

/-- The program reads these ports only, whatever the machine answers. -/
def Reads (decoded : Nat → Port → Prop) : PortProgram α → Prop
  | done _ => True
  | input width port next => decoded width port ∧ ∀ value, (next value).Reads decoded
  | output _ _ _ next => next.Reads decoded

/-- The program writes these ports only. -/
def Outputs (allowed : Port → Prop) : PortProgram α → Prop
  | done _ => True
  | input _ _ next => ∀ value, (next value).Outputs allowed
  | output _ port _ next => allowed port ∧ next.Outputs allowed

theorem Outputs.bind {allowed : Port → Prop} {m : PortProgram α} {f : α → PortProgram β}
    (first : m.Outputs allowed) (later : ∀ a, (f a).Outputs allowed) : (m >>= f).Outputs allowed := by
  change (m.andThen f).Outputs allowed
  induction m with
  | done result => exact later result
  | input width port next ih => exact fun value => ih value (first value)
  | output width port value next ih => exact ⟨first.1, ih first.2⟩

/-- What every read and every allowed write does, the program does. -/
theorem Outputs.run {allowed : Port → Prop} {bus : Bus σ} {program : PortProgram α} (outputs : program.Outputs allowed)
    (relation : σ → σ → Prop) (refl : ∀ s, relation s s)
    (trans : ∀ first second third, relation first second → relation second third → relation first third)
    (reads : ∀ width port s, relation s (bus.read width port s).2)
    (writes : ∀ width port value s, allowed port → relation s (bus.write width port value s)) (s : σ) :
    relation s (program.run bus s).2 := by
  induction program generalizing s with
  | done result => exact refl s
  | input width port next ih => exact trans _ _ _ (reads width port s) (ih _ (outputs _) _)
  | output width port value next ih => exact trans _ _ _ (writes width port value s outputs.1) (ih outputs.2 _)

/-- The result when every port always answers the same. -/
def eval (answers : (width : Nat) → Port → BitVec width) : PortProgram α → α
  | done result => result
  | input width port next => (next (answers width port)).eval answers
  | output _ _ _ next => next.eval answers

theorem eval_bind (answers : (width : Nat) → Port → BitVec width) (m : PortProgram α) (f : α → PortProgram β) :
    (m >>= f).eval answers = (f (m.eval answers)).eval answers := by
  change (m.andThen f).eval answers = _
  induction m with
  | done => rfl
  | input width port next ih => exact ih _
  | output width port value next ih => exact ih

theorem Outputs.run_eval {allowed : Port → Prop} {bus : Bus σ} {program : PortProgram α} (outputs : program.Outputs allowed)
    (answers : (width : Nat) → Port → BitVec width) (good : σ → Prop)
    (reads : ∀ width port s, good s → (bus.read width port s).1 = answers width port ∧ good (bus.read width port s).2)
    (writes : ∀ width port value s, allowed port → good s → good (bus.write width port value s)) {s : σ} (start : good s) :
    (program.run bus s).1 = program.eval answers := by
  induction program generalizing s with
  | done result => rfl
  | input width port next ih =>
    obtain ⟨answered, still⟩ := reads width port s start
    rw [PortProgram.run, PortProgram.eval, answered]
    exact ih _ (outputs _) still
  | output width port value next ih => exact ih outputs.2 (writes width port value s outputs.1 start)

theorem Reads.bind {decoded : Nat → Port → Prop} {m : PortProgram α} {f : α → PortProgram β}
    (first : m.Reads decoded) (later : ∀ a, (f a).Reads decoded) : (m >>= f).Reads decoded := by
  change (m.andThen f).Reads decoded
  induction m with
  | done result => exact later result
  | input width port next ih => exact ⟨first.1, fun value => ih value (first.2 value)⟩
  | output width port value next ih => exact ih first

/-- The program moves nothing that `view` shows, and its result is read off that. -/
def Looks (bus : Bus σ) (view : σ → τ) (program : PortProgram α) (value : τ → α) : Prop :=
  ∀ s, (program.run bus s).1 = value (view s) ∧ view (program.run bus s).2 = view s

namespace Looks

variable {bus : Bus σ} {view : σ → τ} {program : PortProgram α} {value : τ → α}

theorem pure (a : α) : Looks bus view (Pure.pure a) fun _ => a := fun _ => ⟨rfl, rfl⟩

theorem bind {next : α → PortProgram β} {result : τ → α → β} (first : Looks bus view program value)
    (later : ∀ a, Looks bus view (next a) fun t => result t a) :
    Looks bus view (program >>= next) fun t => result t (value t) := by
  intro s
  obtain ⟨here, kept⟩ := first s
  obtain ⟨there, same⟩ := later (program.run bus s).1 (program.run bus s).2
  rw [run_bind]
  exact ⟨by rw [there, kept, here], same.trans kept⟩

theorem ite {other : PortProgram α} {answer : τ → α} (p : Prop) [Decidable p] (yes : Looks bus view program value)
    (no : Looks bus view other answer) :
    Looks bus view (if p then program else other) fun t => if p then value t else answer t := by
  intro s
  split
  · exact yes s
  · exact no s

theorem congr {other : τ → α} (looks : Looks bus view program value) (same : ∀ t, value t = other t) :
    Looks bus view program other := fun s => ⟨(looks s).1.trans (same _), (looks s).2⟩

/-- A loop over a list that carries what it has found. -/
theorem foldlM {step : β → α → PortProgram β} {found : τ → β → α → β} (list : List α)
    (one : ∀ b, ∀ a ∈ list, Looks bus view (step b a) fun t => found t b a) (start : β) :
    Looks bus view (list.foldlM step start) fun t => list.foldl (found t) start := by
  induction list generalizing start with
  | nil => exact pure start
  | cons a rest ih =>
    exact (one start a (List.mem_cons_self ..)).bind fun b => ih (fun b a member => one b a (List.mem_cons_of_mem _ member)) b

end Looks

/-- Like `Looks`, for a machine that changes by itself: `version` counts the
changes, and the result is right when none has come in between. -/
def Samples (bus : Bus σ) (version : σ → Nat) (view : σ → τ) (program : PortProgram α) (value : τ → α) : Prop :=
  ∀ s, version s ≤ version (program.run bus s).2 ∧ (version (program.run bus s).2 = version s →
    (program.run bus s).1 = value (view s) ∧ view (program.run bus s).2 = view s)

namespace Samples

variable {bus : Bus σ} {version : σ → Nat} {view : σ → τ} {program : PortProgram α} {value : τ → α}

theorem pure (a : α) : Samples bus version view (Pure.pure a) fun _ => a := fun _ => ⟨Nat.le_refl _, fun _ => ⟨rfl, rfl⟩⟩

theorem bind {next : α → PortProgram β} {result : τ → α → β} (first : Samples bus version view program value)
    (later : ∀ a, Samples bus version view (next a) fun t => result t a) :
    Samples bus version view (program >>= next) fun t => result t (value t) := by
  intro s
  obtain ⟨before, here⟩ := first s
  obtain ⟨after, there⟩ := later (program.run bus s).1 (program.run bus s).2
  rw [run_bind]
  refine ⟨Nat.le_trans before after, fun same => ?_⟩
  -- No change in all of it is no change in either part.
  obtain ⟨found, kept⟩ := here (by omega)
  obtain ⟨answer, still⟩ := there (by omega)
  exact ⟨by rw [answer, kept, found], still.trans kept⟩

/-- What comes before is looked at for its changes only. -/
theorem after {first : PortProgram β} (kept : ∀ s, version s ≤ version (first.run bus s).2 ∧
    (version (first.run bus s).2 = version s → view (first.run bus s).2 = view s))
    (samples : Samples bus version view program value) : Samples bus version view (first >>= fun _ => program) value := by
  intro s
  obtain ⟨before, same⟩ := kept s
  obtain ⟨later, answer⟩ := samples (first.run bus s).2
  rw [run_bind]
  refine ⟨Nat.le_trans before later, fun still => ?_⟩
  have seen := same (by omega)
  rw [← seen]
  exact answer (by omega)

theorem ite {other : PortProgram α} {answer : τ → α} (p : Prop) [Decidable p] (yes : Samples bus version view program value)
    (no : Samples bus version view other answer) :
    Samples bus version view (if p then program else other) fun t => if p then value t else answer t := by
  intro s
  split
  · exact yes s
  · exact no s

theorem congr {other : τ → α} (samples : Samples bus version view program value) (same : ∀ t, value t = other t) :
    Samples bus version view program other := fun s =>
  ⟨(samples s).1, fun still => ⟨((samples s).2 still).1.trans (same _), ((samples s).2 still).2⟩⟩

end Samples

end PortProgram

/-- Seen through `view` the machine answers at the decoded ports as another one
does, and every output does there what it does here. -/
structure Bus.Follows (bus : Bus σ) (other : Bus τ) (view : σ → τ) (decoded : Nat → Port → Prop) : Prop where
  reads : ∀ width port s, decoded width port →
    other.read width port (view s) = ((bus.read width port s).1, view (bus.read width port s).2)
  writes : ∀ width port value s, other.write width port value (view s) = view (bus.write width port value s)

/-- A program cannot tell the machine from the one it is seen as. -/
theorem Bus.Follows.run {bus : Bus σ} {other : Bus τ} {view : σ → τ} {decoded : Nat → Port → Prop}
    (follows : bus.Follows other view decoded) {program : PortProgram α} (reads : program.Reads decoded) (s : σ) :
    program.run other (view s) = ((program.run bus s).1, view (program.run bus s).2) := by
  induction program generalizing s with
  | done result => rfl
  | input width port next ih =>
    have answered := follows.reads width port s reads.1
    simp only [PortProgram.run, answered]
    exact ih _ (reads.2 _) _
  | output width port value next ih =>
    simp only [PortProgram.run, follows.writes]
    exact ih reads _

end MexOS.Machine
