import ManagementPlane.Proofs.Proxied.Locks

/-!
# Proofs/Proxied/Runs — the machine moves through worlds

What a machine runs is one of the ways in which its tasks can take turns: a step of the machine
runs its first task, and when it lets time pass only the clock changes.  So what holds in every
world that is reached holds of machines.
-/

namespace ManagementPlane

open Plane

namespace World

/-- The world of a machine, with the turns that were taken so far. -/
def ofMachine (m : Machine) (past : List Moment) : World := ⟨m.plane, m.ready ++ m.blocked, past⟩

theorem perm_wake (m : Machine) : (m.ready ++ m.blocked).Perm (m.wake.ready ++ m.wake.blocked) := by
  rw [Machine.wake, List.partition_eq_filter_filter]
  dsimp only
  rw [List.append_assoc]
  exact (List.filter_append_perm _ _).symm.append_left _

/-- It does not matter which task comes next. -/
theorem FairStep.orders {w : World} {tasks : List Task} (h : w.tasks.Perm tasks) :
    FairStep w { w with tasks } :=
  .around (.orders h) ((Fair.refl w.plane).respects _)

/-- The tasks take turns: the first one runs, and queues again behind those that it began. -/
def turn (w : World) : World :=
  match w.tasks with
  | [] => w
  | t :: tasks =>
    { plane := (t.advance w.plane).plane
      tasks := tasks ++ ((t.advance w.plane).spawned ++ (t.advance w.plane).progress.remains)
      past := t.moments w.plane ++ w.past }

theorem fair_turn (w : World) : w.FairLeads w.turn := by
  obtain ⟨p, tasks, past⟩ := w
  cases tasks with
  | nil => exact .refl
  | cons t tasks =>
    refine (Relation.ReflTransGen.single (FairStep.runs p t tasks past)).tail (.orders ?_)
    rw [← List.append_assoc]
    exact List.perm_append_comm

theorem fair_turns (n : Nat) (w : World) : w.FairLeads (turn^[n] w) := by
  induction n generalizing w with
  | zero => exact .refl
  | succ n ih => exact (fair_turn w).trans (ih w.turn)

/-- **A step of the machine is a step of its world**: it runs the first task that is ready. -/
theorem fairLeads_step {m m' : Machine} (hstep : m.step? = some m') (past : List Moment) :
    ∃ past', (ofMachine m past).FairLeads (ofMachine m' past') := by
  rw [Machine.step?] at hstep
  split at hstep
  · cases hstep
  · rename_i t rest hready
    have hrun := FairStep.runs m.plane t (rest ++ m.blocked) past
    have hjoin : ∀ (k : Machine) (spawned others : List Task),
        (spawned ++ (others ++ (k.ready ++ k.blocked))).Perm
          (k.wake.ready ++ spawned ++ (k.wake.blocked ++ others)) := by
      intro k spawned others
      refine (((perm_wake k).append_left others).append_left spawned).trans ?_
      refine (List.perm_append_comm.append_left spawned).trans ?_
      simp only [List.append_assoc]
      exact List.perm_append_comm_assoc _ _ _
    refine ⟨t.moments m.plane ++ past, ?_⟩
    rw [ofMachine, hready, List.cons_append]
    generalize t.advance m.plane = move at hstep hrun
    obtain ⟨plane, spawned, progress⟩ := move
    refine (Relation.ReflTransGen.single hrun).tail ?_
    cases progress <;> obtain rfl := Option.some.inj hstep
    case going s =>
      have hperm := hjoin ⟨plane, s :: rest, m.blocked⟩ spawned []
      rw [List.append_nil] at hperm
      exact .orders hperm
    case blocked s => exact .orders (hjoin ⟨plane, rest, m.blocked⟩ spawned [s])
    case finished =>
      have hperm := hjoin ⟨plane, rest, m.blocked⟩ spawned []
      rw [List.append_nil] at hperm
      exact .orders hperm

/-- Time passes. -/
theorem fairLeads_elapse (m : Machine) (time : Nat) (past : List Moment) :
    (ofMachine m past).FairLeads (ofMachine (m.elapse time) past) := by
  have hclock : m.plane.Eases { m.plane with now := max m.plane.now time } :=
    (Eases.refl _).same rfl rfl rfl rfl rfl
  have hfair : m.plane.Fair { m.plane with now := max m.plane.now time } := .of_same rfl rfl rfl
  refine (Relation.ReflTransGen.single (.around (.outside (.eases hclock))
    (hfair.respects _))).tail (.orders ?_)
  exact perm_wake { m with plane := { m.plane with now := max m.plane.now time } }

/-- **Whatever the machine runs, it stays among the worlds that are reached.** -/
theorem fairLeads_run (done : Plane → Bool) (limit : Option Nat) (fuel : Nat) (m : Machine)
    (past : List Moment) :
    ∃ past', (ofMachine m past).FairLeads (ofMachine (Machine.run done limit fuel m) past') := by
  induction fuel generalizing m past with
  | zero => exact ⟨past, .refl⟩
  | succ fuel ih =>
    have helapsed : ∀ time, ∃ past', (ofMachine m past).FairLeads
        (ofMachine (Machine.run done limit fuel (m.elapse time)) past') := by
      intro time
      obtain ⟨past', hleads⟩ := ih (m.elapse time) past
      exact ⟨past', (fairLeads_elapse m time past).trans hleads⟩
    rw [Machine.run.eq_def]
    dsimp only
    split
    · rename_i m' hstep
      obtain ⟨past', hleads⟩ := fairLeads_step hstep past
      obtain ⟨past'', hleads'⟩ := ih m' past'
      exact ⟨past'', hleads.trans hleads'⟩
    · split
      · exact ⟨past, .refl⟩
      · split
        · split
          · exact ⟨past, fairLeads_elapse m _ past⟩
          · exact helapsed _
        · exact helapsed _
        · exact ⟨past, fairLeads_elapse m _ past⟩
        · exact ⟨past, .refl⟩

theorem leads_run (done : Plane → Bool) (limit : Option Nat) (fuel : Nat) (m : Machine)
    (past : List Moment) :
    ∃ past', (ofMachine m past).Leads (ofMachine (Machine.run done limit fuel m) past') :=
  (fairLeads_run done limit fuel m past).imp fun _ => FairLeads.leads

end World

end ManagementPlane
