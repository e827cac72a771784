import ManagementPlane.Proofs.Global.Alone

/-!
# Proofs/Global/Answering — what a read answers

A global operation that only reads answers a value that is determined by the registration and by
what it sees of the model (`Act.Reads`), and submitted by itself it answers just that
(`Plane.answers_of_reads`).
-/

namespace ManagementPlane

open Execution (Refuses)

namespace Act

variable {α : Type} {a : Address} {root resource : Resource} {out : Except OperationError Value}
  {f g g' : Act Unit} {k : α → Act Unit}

/-- Where an act sees `root` from `a`, it does what another one does. -/
def Follows (a : Address) (root : Resource) (f g : Act Unit) : Prop :=
  ∀ x : Context, x.Sees a root → f.run.run x = g.run.run x

theorem Follows.refl (f : Act Unit) : Follows a root f f := fun _ _ => rfl

theorem Follows.trans (h : Follows a root f g) (h' : Follows a root g g') : Follows a root f g' :=
  fun x hx => (h x hx).trans (h' x hx)

/-- The act finds a value, and changes nothing. -/
def Finds (a : Address) (root : Resource) (f : Act α) (v : α) : Prop :=
  ∀ x : Context, x.Sees a root → f.run.run x = (.ok v, x)

theorem follows_bind {f : Act α} {v : α} (hf : Finds a root f v) (hk : Follows a root (k v) g) :
    Follows a root (f >>= k) g := by
  intro x hx
  rw [run_bind, hf x hx]
  exact hk x hx

theorem follows_orThrow {o : Except OperationError α} {v : α} (h : o = .ok v)
    (hk : Follows a root (k v) g) : Follows a root (GlobalOperation.orThrow o >>= k) g := by
  subst h
  exact follows_bind (fun _ _ => rfl) hk

theorem follows_get {k : Context → Act Unit} (hk : ∀ x : Context, x.Sees a root → k x = f)
    (hf : Follows a root f g) : Follows a root (get >>= k) g := by
  intro x hx
  rw [run_bind, ← hf x hx, ← hk x hx]
  rfl

theorem follows_read {k : Resource → Act Unit} (h : root.navigate? a = some resource)
    (hk : Follows a root (k resource) g) : Follows a root (read >>= k) g := by
  refine follows_bind (fun x hx => ?_) hk
  have hroot : x.transaction.root = root := hx.snapshot
  rw [run_read, Transaction.read, hx.address, hroot, h]

/-- The act answers a value or fails, and changes nothing else. -/
def Reads (a : Address) (root : Resource) (f : Act Unit) (out : Except OperationError Value) :
    Prop :=
  Follows a root f (GlobalOperation.orThrow out >>= setResult)

theorem reads_setResult (v : Value) : Reads a root (setResult v) (.ok v) := fun _ _ => rfl

theorem reads_throw (e : OperationError) : Reads a root (throw e) (.error e) := fun _ _ => rfl

/-- Where nobody else is asked, the answer is there. -/
theorem reads_setResult_queueAll (v : Value) {ds : List Delegation} (hds : ds = []) :
    Reads a root (setResult v >>= fun _ => Delegation.queueAll ds) (.ok v) := by
  subst hds
  exact reads_setResult v

end Act

variable {c : Nat} {r : Registration} {g : GlobalOperation} {operation : Value} {a : Address}
  {root : Resource} {p : Plane}

theorem Handler.comes_of_reads {out : Except OperationError Value}
    (h : Act.Reads a root (g.run r operation) out) :
    (Handler.global g).Comes r operation a root (out.map (·, root)) := by
  have hdeed : (Handler.global g).deed? operation = some (do
      let s ← get
      Deed.act (g.run (s.plane.registration s.controller) operation)) := rfl
  refine ⟨_, hdeed, fun s hr hsees _ => ?_⟩
  have hrun : (Deed.act (g.run r operation)).run.run s
      = (((g.run r operation).run.run s.context).1,
        { s with context := ((g.run r operation).run.run s.context).2 }) := Deed.run_act _ s
  refine ⟨_, _, (run_get _ s).trans (by rw [hr]; exact hrun), ?_⟩
  rw [h s.context hsees]
  cases out with
  | ok v => exact ⟨rfl, s.context.transaction, .refl _, hsees.snapshot, rfl⟩
  | error e => exact ⟨rfl, s.context.transaction, .refl _, rfl⟩

namespace Plane

/-- Submitted by itself, the operation succeeds with the value. -/
def Answers (c : Nat) (p : Plane) (operation v : Value) : Prop :=
  ∃ q, p.Executes c operation (.ok (p.finish c (Response.success v), [])) q

/-- **What an operation reads is what it answers.** -/
theorem answers_of_reads {v : Value} (hp : p.Idle c r root)
    (hleads : r.LeadsTo [] operation a g.entry) (hcheck : g.definition.check operation = .ok ())
    (h : Act.Reads a root (g.run r operation) (.ok v)) : p.Answers c operation v := by
  obtain ⟨q, hq, -⟩ := executes_answered hp hleads hcheck rfl
    (Execution.ends_of_comes (Handler.comes_of_reads h))
  exact ⟨q, hq⟩

/-- An operation that fails to read is refused. -/
theorem refuses_of_reads {e : OperationError} (hp : p.Idle c r root)
    (hleads : r.LeadsTo [] operation a g.entry) (hcheck : g.definition.check operation = .ok ())
    (h : Act.Reads a root (g.run r operation) (.error e)) :
    ∃ answer q, p.Executes c operation answer q ∧ Refuses e.isFatal answer := by
  obtain ⟨answer, q, hq, hrefuses, -⟩ := executes_stopped hp hleads hcheck rfl
    (Execution.ends_of_comes (Handler.comes_of_reads h))
  exact ⟨answer, q, hq, hrefuses⟩

end Plane

end ManagementPlane
