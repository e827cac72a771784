import ManagementPlane.Proofs.Global.Alone
import ManagementPlane.Proofs.Model.Lock
import ManagementPlane.Proofs.Proxied.Runs

/-!
# Proofs/Proxied/Asleep — tasks that wait, and the task whose turn it is

A task that has to wait changes nothing, and nothing that it waits for holds (`Task.Sleeps`).  So in
a machine that runs, every blocked task sleeps (`Machine.Dormant`), and whoever has something to do
is ready (`Dormant.mem_ready`).  `Machine.Holds` lists the tasks of a machine, in whatever order
they stand, and `Machine.Turns` says whose turn it is; `Turns.going` and its siblings say what one
step makes of them.
-/

namespace ManagementPlane

/-! ## Waiting -/

/-- Nothing that is waited for holds. -/
def Wait.Lasting (p : Plane) (waits : List Wait) : Prop := ∀ w ∈ waits, w.holds p = false

/-- A lock that somebody else holds is waited for until the deadline. -/
theorem Plane.lasting_lock {p : Plane} {c deadline : Nat} {t : Transaction}
    (h : p.takeLock? c t = none) (hdue : ¬deadline ≤ p.now) :
    Wait.Lasting p [.lock c t.writer, .time deadline] := by
  obtain ⟨-, hholder⟩ := Transaction.acquire?_eq_none (Option.map_eq_none_iff.mp h)
  refine List.forall_mem_cons.mpr ⟨decide_eq_false fun hheld => hholder ?_,
    List.forall_mem_singleton.mpr (decide_eq_false hdue)⟩
  exact WriteLock.holder_request hheld

/-- A cancellation that was not made is waited for. -/
theorem Input.lasting {p : Plane} {i : Input} (h : ¬p.isCancelled i.cancellation = true) :
    Wait.Lasting p i.waits := by
  rw [Bool.not_eq_true] at h
  rw [Input.waits]
  cases hi : i.cancellation with
  | none => rintro _ ⟨⟩
  | some c =>
    rw [hi] at h
    exact List.forall_mem_singleton.mpr h

/-- An exchange that has nothing to say wakes nobody. -/
theorem Exchange.isReady_eq_false {x : Exchange} (h : x.next.1 = .nothingYet) :
    x.isReady = false := by
  rw [next] at h
  split at h
  · cases h
  · next hevents =>
    dsimp only at h
    split at h
    · next hactive =>
      rw [isReady, hevents, hactive]
      rfl
    · cases h

/-- An actor that has nothing to do stays as it is. -/
theorem Actor.poll_of_wait {a : Actor} (h : a.poll.1 = .wait) :
    a.poll.2 = a ∧ a.isReady = false := by
  rw [poll] at h ⊢
  split at h
  · cases h
  · next henrollments =>
    cases hrequests : a.requests with
    | nil =>
      have hreceive : a.receive? = none := by rw [receive?, hrequests]
      rw [hreceive] at h ⊢
      dsimp only at h ⊢
      split at h
      · cases h
      · next hclients =>
        rw [isReady, henrollments, hrequests, if_neg hclients, decide_eq_false hclients]
        exact ⟨rfl, rfl⟩
    | cons r rest =>
      obtain ⟨b, hreceive⟩ : ∃ b, a.receive? = some (r, b) := by
        rw [receive?, hrequests]
        cases a.backlog <;> exact ⟨_, rfl⟩
      rw [hreceive] at h
      cases r with
      | execute => cases h
      | resolve number d reply =>
        dsimp only [serve] at h
        split at h <;> cases h

theorem Plane.modify_getD {α : Type} (l : List α) (i : Nat) (d : α) :
    l.modify i (fun _ => l[i]?.getD d) = l := by
  refine List.ext_getElem? fun j => ?_
  rw [List.getElem?_modify]
  by_cases hij : i = j
  · subst hij
    cases l[i]? <;> simp
  · simp [hij]

/-- To put back what is there changes nothing. -/
theorem Plane.modifyActor_self (p : Plane) (a : Nat) :
    p.modifyActor a (fun _ => p.actor a) = p := by
  rw [modifyActor, Plane.actor, modify_getD]

namespace Execution

/-- The turn changes nothing, and nothing that the operation waits for holds. -/
def Blocks (p : Plane) (x : Execution) (t : Turn) : Prop :=
  ∀ y, t.next = .blocked y → y = x ∧ t.plane = p ∧ t.spawned = [] ∧ Wait.Lasting p x.waits

variable {p : Plane} {x : Execution} {step : Step}

/-- A turn that does not block. -/
theorem Blocks.of_ne {t : Turn} (h : ∀ y, t.next ≠ .blocked y) : Blocks p x t :=
  fun y hy => absurd hy (h y)

/-- A turn that blocks on what lasts, and changes nothing. -/
theorem blocks_of_lasting (h : Wait.Lasting p x.waits) :
    Blocks p x { plane := p, next := .blocked x } := fun _ hy =>
  ⟨(Next.blocked.inj hy).symm, rfl, rfl, h⟩

theorem blocks_recover (q : Plane) (y : Execution) (frames : List Frame) (e : OperationError) :
    Blocks p x (recover q y step frames e) := by
  refine .of_ne ?_
  rw [recover]
  split <;> rintro _ ⟨⟩

theorem blocks_begin : Blocks p x (begin p x) := by
  refine .of_ne ?_
  rw [begin]
  split
  · rintro _ ⟨⟩
  · dsimp only
    split
    · rintro _ ⟨⟩
    · split
      · rintro _ ⟨⟩
      · split <;> rintro _ ⟨⟩

/-- Whoever waits for the lock waits for it and for the deadline. -/
theorem blocks_awaitLock {deadline : Nat} (hphase : x.phase = .locking deadline) :
    Blocks p x (awaitLock p x deadline) := by
  rw [awaitLock]
  dsimp only
  split
  · exact .of_ne (by rintro _ ⟨⟩)
  · next htake =>
    split
    · exact .of_ne (by rintro _ ⟨⟩)
    · next hdue =>
      refine blocks_of_lasting ?_
      rw [waits, hphase]
      exact Plane.lasting_lock htake hdue

theorem blocks_pick : Blocks p x (pick p x) := by
  refine .of_ne ?_
  rw [pick]
  dsimp only
  split
  · split <;> rintro _ ⟨⟩
  · split
    · rintro _ ⟨⟩
    · split <;> rintro _ ⟨⟩

theorem blocks_runScript (frames : List Frame) : Blocks p x (runScript p x step frames) := by
  match frames with
  | [] => exact .of_ne (by rintro _ ⟨⟩)
  | ⟨_, []⟩ :: rest => exact .of_ne (by rintro _ ⟨⟩)
  | ⟨caught, i :: is⟩ :: rest =>
    rw [runScript]
    generalize ((i.perform step.operation).run).run ⟨p, x.controller, x.context⟩ = out
    obtain ⟨out, scene⟩ := out
    dsimp only
    split
    · exact blocks_recover _ _ _ _
    · exact .of_ne (by rintro _ ⟨⟩)
    · exact .of_ne (by rintro _ ⟨⟩)
    · exact .of_ne (by rintro _ ⟨⟩)
    · exact .of_ne (by rintro _ ⟨⟩)
    · split <;> exact .of_ne (by rintro _ ⟨⟩)

/-- A step that wants to write waits for the lock and for the deadline. -/
theorem blocks_acquire {deadline : Nat} {frames : List Frame}
    (hphase : x.phase = .handling step (.acquiring deadline frames)) :
    Blocks p x (acquire p x step deadline frames) := by
  rw [acquire]
  dsimp only
  split
  · exact .of_ne (by rintro _ ⟨⟩)
  · next htake =>
    split
    · exact blocks_recover _ _ _ _
    · next hdue =>
      refine blocks_of_lasting ?_
      rw [waits, hphase]
      exact Plane.lasting_lock htake hdue

/-- A step that pauses waits for the time, and for the cancellation of its operation. -/
theorem blocks_pause {wake deadline : Nat} {what : String} {frames : List Frame}
    (hphase : x.phase = .handling step (.pausing wake deadline what frames)) :
    Blocks p x (pause p x step wake deadline what frames) := by
  have hpauses := pauses p x step wake deadline what frames
  generalize pause p x step wake deadline what frames = t at hpauses ⊢
  cases hpauses with
  | wakes => exact .of_ne (by rintro _ ⟨⟩)
  | fails => exact blocks_recover _ _ _ _
  | waits hwake hdue hcancelled =>
    refine blocks_of_lasting ?_
    rw [waits, hphase]
    exact List.forall_mem_cons.mpr ⟨decide_eq_false hwake.not_ge,
      List.forall_mem_cons.mpr ⟨decide_eq_false hdue.not_ge,
        Input.lasting (Bool.eq_false_iff.mp hcancelled)⟩⟩

theorem blocks_start (proxy : Proxy) : Blocks p x (Forwarding.start p x step proxy) := by
  refine .of_ne fun y hy => ?_
  rw [Forwarding.start] at hy
  dsimp only at hy
  split at hy
  · cases hy
  split at hy
  · cases hy
  · split at hy <;> cases hy

/-- A forwarded step waits for the next event on its way, for the deadline and for the
cancellation. -/
theorem blocks_wait {f due : Nat} {way : Delivery}
    (hphase : x.phase = .handling step (.forwarding f due way))
    (h : Wait.Lasting p (way.waits f)) : Blocks p x (Forwarding.wait p x step f due way) := by
  rw [Forwarding.wait]
  split
  · exact .of_ne (by rintro _ ⟨⟩)
  · next hdue =>
    split
    · exact .of_ne (by rintro _ ⟨⟩)
    · next hcancelled =>
      refine blocks_of_lasting ?_
      rw [waits, hphase]
      exact List.forall_mem_append.mpr ⟨h,
        List.forall_mem_cons.mpr ⟨decide_eq_false hdue, Input.lasting hcancelled⟩⟩

/-- Whatever is awaited on the way, the wait is for it. -/
theorem blocks_follow {f due : Nat} {way : Delivery}
    (hphase : x.phase = .handling step (.forwarding f due way)) :
    Blocks p x (Forwarding.follow p x step f due way) := by
  have hgone : ∀ {t : Turn} {y : Execution}, t.next = .going y → Blocks p x t :=
    fun h => .of_ne fun z hz => by rw [h] at hz; cases hz
  rw [Forwarding.follow.eq_def]
  dsimp only
  cases way with
  | sending a ticket e =>
    dsimp only
    split
    · exact hgone rfl
    · next hwaiting =>
      split
      · exact hgone rfl
      · next hopen =>
        refine blocks_wait hphase (List.forall_mem_singleton.mpr ?_)
        rw [Wait.holds, Bool.eq_false_iff.mpr hopen, Bool.eq_false_iff.mpr hwaiting]
        rfl
  | linked l =>
    dsimp only
    split
    · exact hgone rfl
    · exact hgone rfl
    · exact hgone rfl
    · next hoffer hfinal =>
      refine blocks_wait hphase (List.forall_mem_singleton.mpr ?_)
      rw [Wait.holds, hoffer, hfinal]
      rfl
  | following a e =>
    dsimp only
    split
    · exact hgone rfl
    · exact hgone rfl
    · exact hgone rfl
    · exact hgone rfl
    · next hsight =>
      exact blocks_wait hphase (List.forall_mem_singleton.mpr (Exchange.isReady_eq_false hsight))
  | delivered =>
    dsimp only
    split
    · next outcome houtcome =>
      refine .of_ne ?_
      cases outcome <;> rintro _ ⟨⟩
    · next houtcome =>
      split
      · exact .of_ne (by rintro _ ⟨⟩)
      · next hreporters =>
        refine blocks_wait hphase (List.forall_mem_singleton.mpr ?_)
        rw [Wait.holds, Forward.isAnswered, houtcome, decide_eq_false hreporters]
        rfl

theorem blocks_forward {f due : Nat} {way : Delivery}
    (hphase : x.phase = .handling step (.forwarding f due way)) :
    Blocks p x (Forwarding.advance p x step f due way) := by
  rw [Forwarding.advance]
  split
  · exact .of_ne (by rintro _ ⟨⟩)
  · exact blocks_follow hphase

/-- **A step that blocks waits for whatever may wake it.** -/
theorem blocks_work {w : Work} (hphase : x.phase = .handling step w) :
    Blocks p x (work p x step w) := by
  rw [work.eq_def]
  cases w with
  | begin =>
    dsimp only
    split
    · exact .of_ne (by rintro _ ⟨⟩)
    · exact blocks_start _
    · split <;> exact .of_ne (by rintro _ ⟨⟩)
  | running frames => exact blocks_runScript frames
  | acquiring deadline frames => exact blocks_acquire hphase
  | pausing wake deadline what frames => exact blocks_pause hphase
  | nesting frames =>
    refine blocks_of_lasting ?_
    rw [waits, hphase]
    rintro _ ⟨⟩
  | forwarding f due way => exact blocks_forward hphase

/-- An operation that has prepared waits for its handle and for the deadline. -/
theorem blocks_decide {handle : Nat} {due : Option Nat} (hphase : x.phase = .deciding handle due) :
    Blocks p x (decide p x handle due) := by
  have happly : ∀ d, Blocks p x (apply p x handle d) := by
    intro d
    refine .of_ne ?_
    rw [apply.eq_def]
    dsimp only
    split
    · split <;> rintro _ ⟨⟩
    · rintro _ ⟨⟩
  rw [decide.eq_def]
  split
  · exact happly _
  · next hpending =>
    have hlasting : ∀ waits, Wait.Lasting p waits →
        Wait.Lasting p (.decision handle :: waits) := fun waits hwaits =>
      List.forall_mem_cons.mpr ⟨by rw [Wait.holds, hpending]; rfl, hwaits⟩
    split
    · split
      · exact happly _
      · next hdue =>
        refine blocks_of_lasting ?_
        rw [waits, hphase]
        exact hlasting _ (List.forall_mem_singleton.mpr (decide_eq_false hdue))
    · refine blocks_of_lasting ?_
      rw [waits, hphase]
      exact hlasting _ (by rintro _ ⟨⟩)

theorem blocks_unwind (e : Ending) : Blocks p x (unwind p x e) := by
  refine .of_ne ?_
  rw [unwind]
  split
  · obtain ⟨t, ht⟩ := unwound_next p x e
    rw [ht]
    rintro _ ⟨⟩
  · rintro _ ⟨⟩

/-- An operation that drains waits for the responses of its forwarded steps. -/
theorem blocks_drain {due : Option Nat} {e : Ending} (hphase : x.phase = .draining due e) :
    Blocks p x (drain p x due e) := by
  rw [drain]
  dsimp only
  split
  · exact .of_ne (by rintro _ ⟨⟩)
  · next f rest hcompletions =>
    split
    · exact .of_ne (by rintro _ ⟨⟩)
    · next hcomplete =>
      split
      · exact .of_ne (by rintro _ ⟨⟩)
      · split
        · exact .of_ne (by rintro _ ⟨⟩)
        · next hdue =>
          refine blocks_of_lasting ?_
          rw [waits, hphase]
          dsimp only
          rw [hcompletions]
          refine List.forall_mem_cons.mpr ⟨Bool.eq_false_iff.mpr hcomplete, ?_⟩
          exact List.forall_mem_singleton.mpr (decide_eq_false hdue)

/-- **An operation that is blocked** has changed nothing, and nothing that it waits for holds. -/
theorem blocks_advance : Blocks p x (x.advance p) := by
  rw [advance]
  split
  · exact blocks_begin
  · next hphase => exact blocks_awaitLock hphase
  · exact blocks_pick
  · next hphase => exact blocks_work hphase
  · next hphase => exact blocks_decide hphase
  · exact blocks_unwind _
  · next hphase => exact blocks_drain hphase
  · next hphase =>
    refine blocks_of_lasting ?_
    rw [waits, hphase]
    rintro _ ⟨⟩

end Execution

namespace Task

variable {p : Plane} {t t' : Task}

/-- The task has to wait. -/
def Sleeps (p : Plane) (t : Task) : Prop := t.advance p = { plane := p, progress := .blocked t }

/-- Where every wait lasts, nobody can go. -/
theorem canGo_eq_false (h : Wait.Lasting p t.waits) : t.canGo p = false := by
  rw [canGo, List.any_eq_false]
  exact fun w hw => Bool.eq_false_iff.mp (h w hw)

/-- An operation takes its turn. -/
theorem advance_going {x y : Execution} {o : Origin} {q : Plane} {spawned : List Task}
    (hopen : ∀ answer, x.phase ≠ .ended answer)
    (h : x.advance p = { plane := q, spawned, next := .going y }) :
    (operation [x] o).advance p = ⟨q, spawned, .going (.operation [y] o)⟩ := by
  rw [advance, advanceStack.eq_def]
  dsimp only
  split
  · next answer hphase => exact absurd hphase (hopen answer)
  · rw [h]

theorem advance_returned {x y : Execution} {o : Origin} {q : Plane} {step : Step}
    {out : Except OperationError Unit} (hopen : ∀ answer, x.phase ≠ .ended answer)
    (h : x.advance p = { plane := q, next := .returned y step out }) :
    (operation [x] o).advance p = ⟨q, [], .going (.operation [y.afterStep step out] o)⟩ := by
  rw [advance, advanceStack.eq_def]
  dsimp only
  split
  · next answer hphase => exact absurd hphase (hopen answer)
  · rw [h]

theorem advance_ended {x : Execution} {o : Origin} {answer : Answer}
    (hphase : x.phase = .ended answer) :
    (operation [x] o).advance p = ⟨o.tell p answer, [], .finished⟩ := by
  rw [advance, advanceStack, hphase]

/-- An operation sleeps where its turn was blocked. -/
theorem sleeps_operation {stack : List Execution} {origin : Origin}
    (h : ((operation stack origin).advance p).progress = .blocked t') :
    (operation stack origin).Sleeps p ∧ (operation stack origin).canGo p = false := by
  rw [Sleeps, advance] at *
  cases stack with
  | nil => cases h
  | cons x rest =>
    rw [advanceStack.eq_def] at h ⊢
    dsimp only at h ⊢
    split at h
    · split at h <;> cases h
    · next hopen =>
      split at h
      · cases h
      · cases h
      · next y hy =>
        obtain ⟨rfl, hplane, hspawned, hlasting⟩ := Execution.blocks_advance y hy
        rw [hplane, hspawned]
        exact ⟨rfl, canGo_eq_false hlasting⟩
      · cases h
      · cases h

/-- So does a task that follows an exchange. -/
theorem sleeps_follow {a e f : Nat} {sink : Sink} {state : Follow}
    (h : ((follow a e f sink state).advance p).progress = .blocked t') :
    (follow a e f sink state).Sleeps p ∧ (follow a e f sink state).canGo p = false := by
  have hlasting : ∀ {w : Wait}, (follow a e f sink state).waits = [w] → w.holds p = false →
      (follow a e f sink state).canGo p = false := fun hwaits hw =>
    canGo_eq_false (hwaits ▸ List.forall_mem_singleton.mpr hw)
  rw [Sleeps, advance] at *
  rw [advanceFollow.eq_def] at h ⊢
  cases state with
  | deciding handle =>
    dsimp only at h ⊢
    split at h
    · next hpending => exact ⟨rfl, hlasting rfl (by rw [Wait.holds, hpending]; rfl)⟩
    · split at h <;> cases h
  | sending ticket reply =>
    dsimp only at h ⊢
    split at h
    · cases h
    · next hwaiting =>
      split at h
      · cases h
      · next hopen =>
        rw [if_neg hwaiting, if_neg hopen]
        refine ⟨rfl, hlasting rfl ?_⟩
        rw [Wait.holds, Bool.eq_false_iff.mpr hopen, Bool.eq_false_iff.mpr hwaiting]
        rfl
  | replying reply =>
    dsimp only at h ⊢
    split at h
    · next hawaited => exact ⟨rfl, hlasting rfl (by rw [Wait.holds, hawaited])⟩
    · cases h
  | finishing =>
    dsimp only at h ⊢
    split at h
    · cases h
    · cases h
    · cases h
    · cases h
    · next hsight => exact ⟨rfl, hlasting rfl (Exchange.isReady_eq_false hsight)⟩

/-- And so does an actor. -/
theorem sleeps_serve {a : Nat} (h : ((serve a).advance p).progress = .blocked t') :
    (serve a).Sleeps p ∧ (serve a).canGo p = false := by
  rw [Sleeps, advance] at *
  rw [advanceServe] at h ⊢
  split at h
  · cases h
  · next hclosed =>
    rw [if_neg hclosed]
    dsimp only at h ⊢
    split at h
    all_goals try cases h
    next hwait =>
    obtain ⟨hsame, hready⟩ := Actor.poll_of_wait hwait
    rw [hsame, Plane.modifyActor_self]
    refine ⟨rfl, canGo_eq_false (List.forall_mem_singleton.mpr ?_)⟩
    rw [Wait.holds, Bool.eq_false_iff.mpr hclosed, hready]
    rfl

/-- **A task that is blocked** has changed nothing, and cannot go on. -/
theorem sleeps_of_blocked (h : (t.advance p).progress = .blocked t') :
    t.Sleeps p ∧ t.canGo p = false := by
  cases t with
  | operation stack origin => exact sleeps_operation h
  | follow a e f sink state => exact sleeps_follow h
  | serve a => exact sleeps_serve h
  | relay l f =>
    rw [Sleeps, advance] at *
    dsimp only at h ⊢
    split at h
    · cases h
    · cases h
    · next hnone =>
      exact ⟨rfl, canGo_eq_false (List.forall_mem_singleton.mpr (by rw [Wait.holds, hnone]; rfl))⟩
  | expect m handle f result =>
    rw [Sleeps, advance] at *
    dsimp only at h ⊢
    split at h
    · cases h
    · next hnone =>
      exact ⟨rfl, canGo_eq_false (List.forall_mem_singleton.mpr (by rw [Wait.holds, hnone]; rfl))⟩
  | watch label handle =>
    rw [Sleeps, advance] at *
    dsimp only at h ⊢
    split at h
    · next hpending =>
      exact ⟨rfl, canGo_eq_false
        (List.forall_mem_singleton.mpr (by rw [Wait.holds, hpending]; rfl))⟩
    · cases h
    · cases h
  | prepareLate wake f response =>
    rw [Sleeps, advance] at *
    dsimp only at h ⊢
    split at h
    · cases h
    · next hwake =>
      rw [if_neg hwake]
      exact ⟨rfl, canGo_eq_false (List.forall_mem_singleton.mpr (decide_eq_false hwake))⟩
  | completeTwice handle f response =>
    rw [Sleeps, advance] at *
    dsimp only at h ⊢
    split at h
    · cases h
    · next hnone =>
      exact ⟨rfl, canGo_eq_false (List.forall_mem_singleton.mpr (by rw [Wait.holds, hnone]; rfl))⟩
  | cancelAt wake c =>
    rw [Sleeps, advance] at *
    dsimp only at h ⊢
    split at h
    · cases h
    · next hwake =>
      rw [if_neg hwake]
      exact ⟨rfl, canGo_eq_false (List.forall_mem_singleton.mpr (decide_eq_false hwake))⟩

theorem Sleeps.canGo (h : t.Sleeps p) : t.canGo p = false :=
  (sleeps_of_blocked (congrArg Move.progress h)).2

end Task

/-! ## The task whose turn it is -/

namespace Machine

variable {m m' : Machine} {t : Task} {rest : List Task}

def tasks (m : Machine) : List Task := m.ready ++ m.blocked

/-- Every blocked task had to wait when it was blocked, and cannot go on yet. -/
structure Dormant (m : Machine) : Prop where
  slept : ∀ t ∈ m.blocked, ∃ p, t.Sleeps p
  waiting : ∀ t ∈ m.blocked, t.canGo m.plane = false

/-- **Whoever can go is ready**, as long as the others sleep. -/
theorem Dormant.mem_ready (h : m.Dormant) (ht : t ∈ m.tasks) (hgo : t.canGo m.plane = true) :
    t ∈ m.ready := by
  refine (List.mem_append.mp ht).resolve_right fun hblocked => ?_
  rw [h.waiting t hblocked] at hgo
  cases hgo

theorem ready_wake (m : Machine) : ∃ woken, m.wake.ready = m.ready ++ woken := ⟨_, rfl⟩

/-- After the ready ones are woken, the others sleep. -/
theorem dormant_wake (h : ∀ t ∈ m.blocked, ∃ p, t.Sleeps p) : m.wake.Dormant := by
  have hmem : ∀ t ∈ m.wake.blocked, t ∈ m.blocked ∧ t.canGo m.plane = false := by
    intro t ht
    rw [wake, List.partition_eq_filter_filter] at ht
    simpa using List.mem_filter.mp ht
  exact ⟨fun t ht => h t (hmem t ht).1, fun t ht => (hmem t ht).2⟩

theorem wake_of_dormant (h : m.Dormant) : m.wake = m := by
  have hwoken : m.blocked.filter (·.canGo m.plane) = [] := by
    refine List.filter_eq_nil_iff.mpr fun t ht => ?_
    rw [h.waiting t ht]
    decide
  have hblocked : m.blocked.filter (not ∘ (·.canGo m.plane)) = m.blocked := by
    refine List.filter_eq_self.mpr fun t ht => ?_
    rw [Function.comp_apply, h.waiting t ht]
    rfl
  rw [wake, List.partition_eq_filter_filter]
  dsimp only
  rw [hwoken, hblocked, List.append_nil]

/-- The machine is at this plane with these tasks. -/
structure Holds (m : Machine) (p : Plane) (ts : List Task) : Prop where
  plane : m.plane = p
  dormant : m.Dormant
  tasks : m.tasks.Perm ts

/-- It is the turn of the first one. -/
structure Turns (m : Machine) (p : Plane) (t : Task) (ts : List Task) : Prop
    extends m.Holds p (t :: ts) where
  head : ∃ rest, m.ready = t :: rest

variable {p q : Plane} {ts us spawned : List Task} {s : Task}

theorem Holds.perm (h : m.Holds p ts) (hperm : ts.Perm us) : m.Holds p us :=
  ⟨h.plane, h.dormant, h.tasks.trans hperm⟩

theorem Turns.perm (h : m.Turns p t ts) (hperm : ts.Perm us) : m.Turns p t us :=
  ⟨h.toHolds.perm (hperm.cons t), h.head⟩

/-- Those that can go on are woken, and new tasks queue up behind them. -/
theorem holds_wake (h : ∀ t ∈ m.blocked, ∃ p, t.Sleeps p) (spawned : List Task) :
    Holds { m.wake with ready := m.wake.ready ++ spawned } m.plane (spawned ++ m.tasks) where
  plane := rfl
  dormant := ⟨(dormant_wake h).slept, (dormant_wake h).waiting⟩
  tasks := by
    refine List.Perm.trans ?_ ((World.perm_wake m).symm.append_left spawned)
    refine (List.Perm.of_eq (List.append_assoc _ _ _)).trans ?_
    exact List.perm_append_comm_assoc _ _ _

theorem Turns.going (h : m.Turns p t ts) (hadvance : t.advance p = ⟨q, spawned, .going s⟩) :
    ∃ m', m.step? = some m' ∧ m'.Turns q s (spawned ++ ts) ∧ spawned ⊆ m'.ready := by
  obtain ⟨⟨rfl, hdormant, htasks⟩, rest, hready⟩ := h
  have hwake := holds_wake (m := ⟨q, s :: rest, m.blocked⟩) hdormant.slept spawned
  refine ⟨_, ?_, ⟨hwake.perm ?_, ?_⟩, List.subset_append_right _ _⟩
  · rw [step?.eq_def, hready]
    dsimp only
    rw [hadvance]
  · rw [tasks, hready] at htasks
    refine List.Perm.trans ?_ List.perm_middle
    exact ((htasks.cons_inv).cons s).append_left spawned
  · obtain ⟨woken, hwoken⟩ := ready_wake ⟨q, s :: rest, m.blocked⟩
    refine ⟨rest ++ woken ++ spawned, ?_⟩
    rw [hwoken]
    rfl

/-- **A turn after which the task is finished.** -/
theorem Turns.finished (h : m.Turns p t ts)
    (hadvance : t.advance p = ⟨q, spawned, .finished⟩) :
    ∃ m', m.step? = some m' ∧ m'.Holds q (spawned ++ ts) := by
  obtain ⟨⟨rfl, hdormant, htasks⟩, rest, hready⟩ := h
  have hwake := holds_wake (m := ⟨q, rest, m.blocked⟩) hdormant.slept spawned
  refine ⟨_, ?_, hwake.perm ?_⟩
  · rw [step?.eq_def, hready]
    dsimp only
    rw [hadvance]
  · rw [tasks, hready] at htasks
    exact (htasks.cons_inv).append_left spawned

/-- A task that has to wait leaves its turn to the next one. -/
theorem Holds.sleeping (h : m.Holds p ts) (hready : m.ready = t :: rest) (hsleeps : t.Sleeps p) :
    m.step? = some ⟨p, rest, m.blocked ++ [t]⟩ ∧ Holds ⟨p, rest, m.blocked ++ [t]⟩ p ts := by
  obtain ⟨rfl, hdormant, htasks⟩ := h
  refine ⟨?_, rfl, ⟨?_, ?_⟩, ?_⟩
  · have hwake : (⟨m.plane, rest, m.blocked⟩ : Machine).wake = ⟨m.plane, rest, m.blocked⟩ :=
      wake_of_dormant ⟨hdormant.slept, hdormant.waiting⟩
    rw [step?.eq_def, hready]
    dsimp only
    rw [hsleeps, hwake, List.append_nil]
  · exact List.forall_mem_append.mpr
      ⟨hdormant.slept, List.forall_mem_singleton.mpr ⟨_, hsleeps⟩⟩
  · exact List.forall_mem_append.mpr
      ⟨hdormant.waiting, List.forall_mem_singleton.mpr hsleeps.canGo⟩
  · rw [Machine.tasks, hready] at htasks
    rw [Machine.tasks, ← List.append_assoc]
    exact (List.perm_append_singleton _ _).trans htasks

/-- The machine gets there by itself, without letting time pass. -/
def Leads : Machine → Machine → Prop := Relation.ReflTransGen fun m m' => m.step? = some m'

/-- **A task that is ready comes to its turn** when all others sleep. -/
theorem Holds.settles (h : m.Holds p (t :: ts)) (hmem : t ∈ m.ready) (hts : ∀ s ∈ ts, s.Sleeps p) :
    ∃ m', m.Leads m' ∧ m'.Turns p t ts := by
  generalize hlength : m.ready.length = n
  induction n generalizing m with
  | zero =>
    rw [List.length_eq_zero_iff.mp hlength] at hmem
    cases hmem
  | succ n ih =>
    obtain ⟨s, rest, hready⟩ := List.exists_cons_of_length_eq_add_one hlength
    by_cases hs : s = t
    · subst hs
      exact ⟨m, .refl, h, rest, hready⟩
    · have hsleeps : s.Sleeps p := by
        have hmem : s ∈ t :: ts :=
          h.tasks.subset (List.mem_append_left _ (hready ▸ List.mem_cons_self))
        exact hts s ((List.mem_cons.mp hmem).resolve_left hs)
      obtain ⟨hstep, hm'⟩ := h.sleeping hready hsleeps
      have hrest : t ∈ rest := (List.mem_cons.mp (hready ▸ hmem)).resolve_left (Ne.symm hs)
      obtain ⟨m', hleads, hturns⟩ := ih hm' hrest (by simpa [hready] using hlength)
      exact ⟨m', .head hstep hleads, hturns⟩

/-- An operation goes on by itself. -/
theorem Turns.passes {x y : Execution} {o : Origin} (h : m.Turns p (.operation [x] o) ts)
    (hpasses : Execution.Passes (p, x) (q, y)) :
    ∃ m', m.Leads m' ∧ m'.Turns q (.operation [y] o) ts := by
  generalize hs : (q, y) = s at hpasses
  induction hpasses generalizing q y with
  | refl =>
    cases hs
    exact ⟨m, .refl, h⟩
  | tail _ hpass ih =>
    subst hs
    obtain ⟨m', hleads, hm'⟩ := ih rfl
    obtain ⟨m'', hstep, hm'', -⟩ := by
      cases hpass with
      | going hopen hadvance => exact hm'.going (Task.advance_going hopen hadvance)
      | returned hopen hadvance => exact hm'.going (Task.advance_returned hopen hadvance)
    exact ⟨m'', hleads.tail hstep, hm''⟩

/-! ## When all have to wait -/

/-- Somebody who waits for the time lets the clock go on. -/
theorem due?_of_mem (hmem : t ∈ m.blocked) {due : Nat} (hdue : t.due? = some due) :
    ∃ due, m.due? = some due :=
  Option.isSome_iff_exists.mp (List.isSome_min?_of_mem (List.mem_filterMap.mpr ⟨t, hmem, hdue⟩))

/-- **The next time that a task waits for** lets a task go on. -/
theorem exists_canGo_of_due {due : Nat} (hdue : m.due? = some due) :
    ∃ t ∈ (m.elapse due).ready, t.canGo (m.elapse due).plane = true := by
  obtain ⟨t, ht, htask⟩ := List.mem_filterMap.mp (List.min?_mem hdue)
  obtain ⟨w, hw, hwait⟩ := List.mem_filterMap.mp (List.min?_mem htask)
  have hgo : t.canGo (m.elapse due).plane = true := by
    refine List.any_eq_true.mpr ⟨w, hw, ?_⟩
    cases w with
    | time =>
      obtain rfl := Option.some.inj hwait
      exact decide_eq_true (Nat.le_max_right _ _)
    | _ => cases hwait
  refine ⟨t, ?_, hgo⟩
  rw [elapse, wake, List.partition_eq_filter_filter]
  exact List.mem_append_right _ (List.mem_filter.mpr ⟨ht, hgo⟩)

/-- The clock goes on, and the same tasks are there. -/
theorem Holds.elapse (h : m.Holds p ts) (time : Nat) :
    (m.elapse time).Holds { p with now := max p.now time } ts := by
  obtain ⟨rfl, hdormant, htasks⟩ := h
  exact ⟨rfl, dormant_wake hdormant.slept, (World.perm_wake _).symm.trans htasks⟩

/-- Where nobody is ready, the machine lets the time pass. -/
theorem run_of_due {done : Plane → Bool} (hready : m.ready = []) (hdone : done m.plane = false)
    {due : Nat} (hdue : m.due? = some due) (fuel : Nat) :
    m.run done none (fuel + 1) = (m.elapse due).run done none fuel := by
  have hstep : m.step? = none := by rw [step?.eq_def, hready]
  rw [run.eq_def]
  dsimp only
  rw [hstep, hdone, hdue]
  rfl

/-! ## Several steps -/

/-- A machine that leads to another one gets there on its run. -/
theorem Leads.run (h : m.Leads m') (done : Plane → Bool) (limit : Option Nat) :
    ∃ n, ∀ fuel, m.run done limit (fuel + n) = m'.run done limit fuel := by
  induction h with
  | refl => exact ⟨0, fun _ => rfl⟩
  | tail _ hstep ih =>
    obtain ⟨n, hn⟩ := ih
    refine ⟨n + 1, fun fuel => ?_⟩
    rw [← Nat.add_assoc, Nat.add_right_comm, hn]
    exact run_of_step hstep fuel

end Machine

end ManagementPlane
