import ManagementPlane.Proofs.Machine.Atomic
import ManagementPlane.Proofs.Proxied.Handing

/-!
# Proofs/Proxied/Deals — what a turn does with forwarded steps and their handles

Of an operation only its `Stance` matters to its participants: the forwarded step that it waits for,
and the handles that it holds for completed ones.  A turn is a sequence of elementary changes of the
plane and of that stance (`turned_advance`), unless it tells one of the handles what has become of
the operation (`tells_advance`).
-/

namespace ManagementPlane

open Plane

/-- What an operation waits for and what it holds. -/
structure Stance where
  /-- The forwarded step that is waited for. -/
  awaits : Option (Nat × Delivery) := none
  /-- The handles of the steps that completed, the latest first. -/
  held : List Nat := []

namespace Stance

/-- The participant of the step may report at any time. -/
def Hears (s : Stance) (f : Nat) : Prop := s.awaits = some (f, .delivered)

end Stance

namespace Execution

/-- The forwarded step that an operation waits for. -/
def awaits? (x : Execution) : Option (Nat × Delivery) :=
  match x.phase with
  | .handling _ (.forwarding f _ d) => some (f, d)
  | _ => none

def stance (x : Execution) : Stance where
  awaits := x.awaits?
  held := x.context.completed.filterMap Completion.handle?

end Execution

/-- An elementary change of the plane and of the stance of one operation. -/
inductive Deal : Plane × Stance → Plane × Stance → Prop
  | moves {p q : Plane} {s : Stance} (h : Moves s.Hears p q) : Deal (p, s) (q, s)
  /-- A step begins to be forwarded. -/
  | starts {p : Plane} {held : List Nat} (d : Delivery) :
    Deal (p, ⟨none, held⟩) (p.newForward.2, ⟨some (p.forwards.length, d), held⟩)
  /-- The operation comes closer to its participant. -/
  | redelivers {p : Plane} {f : Nat} {d d' : Delivery} {held : List Nat}
      (h : d' = .delivered ∨ d ≠ .delivered) :
    Deal (p, ⟨some (f, d), held⟩) (p, ⟨some (f, d'), held⟩)
  /-- The step completes with a prepared participant. -/
  | concludes {p : Plane} {f h : Nat} {d : Delivery} {held : List Nat} (ha : p.Accepts f h) :
    Deal (p, ⟨some (f, d), held⟩) (p, ⟨none, h :: held⟩)
  /-- The operation lets go of a participant that has prepared. -/
  | drops {p : Plane} {h : Nat} {held : List Nat} :
    Deal (p, ⟨none, h :: held⟩) (p.modifyHandle h Prepared.drop, ⟨none, held⟩)
  /-- The step fails or is abandoned. -/
  | leaves {p : Plane} {f : Nat} {d : Delivery} {held : List Nat}
      (hclosed : p.Tidy → ¬ p.Listens f) (hfree : d ≠ .delivered ∨ ∀ h, ¬ p.Accepts f h) :
    Deal (p, ⟨some (f, d), held⟩) (p, ⟨none, held⟩)

/-- A sequence of changes. -/
abbrev Deals : Plane × Stance → Plane × Stance → Prop := Relation.ReflTransGen Deal

/-- The task did nothing yet; only to forwarded steps in `late` will it report on its own. -/
def Task.Begins (late : Nat → Prop) : Task → Prop
  | operation stack _ => ∃ c operation control input sink,
    stack = [Execution.new c operation control input sink]
  | prepareLate _ f _ => late f
  | _ => True

theorem Task.Begins.mono {late late' : Nat → Prop} {t : Task} (h : t.Begins late)
    (hlate : ∀ f, late f → late' f) : t.Begins late' := by
  cases t with
  | prepareLate wake f response => exact hlate f h
  | _ => exact h

section Deals

variable {p q : Plane} {s : Stance} {f : Nat} {d : Delivery} {held : List Nat}

theorem deals_moves {t : Stance} (h : Moves s.Hears p q) (ht : t = s) : Deals (p, s) (q, t) := by
  subst ht
  exact .single (.moves h)

theorem not_listens_modifyForward {g : Forward → Forward}
    (hg : (g (p.forward f)).listening = false) : ¬ (p.modifyForward f g).Listens f := by
  rintro ⟨hf, hlistens⟩
  have hlength : (p.modifyForward f g).forwards.length = p.forwards.length :=
    List.length_modify _ _ _
  have hlistening := hlistens.listening
  rw [forward_modifyForward, if_pos ⟨rfl, hlength ▸ hf⟩, hg] at hlistening
  cases hlistening

/-- A step that has an outcome has heard a report. -/
theorem Plane.Tidy.not_listens (hp : p.Tidy) {o : Outcome} (ho : (p.forward f).outcome = some o) :
    ¬ p.Listens f := by
  rintro ⟨-, hlistens⟩
  have hfirst := hp.first ho
  rw [hlistens.silent] at hfirst
  cases hfirst

end Deals

/-! ## Completions -/

theorem Completion.eq_decide {c : Completion} {h : Nat} (hc : c.handle? = some h) :
    c = .decide h := by
  cases c with
  | decide i => exact congrArg Completion.decide (Option.some.inj hc)
  | _ => cases hc

/-- A completion without a handle deals with no participant. -/
theorem Completion.retains_run {c : Completion} (hc : c.handle? = none) (d : Decision) (s : Scene) :
    s.plane.Retains (c.run d s).plane := by
  have hscript : ∀ (body : Script) (line : String), s.plane.Retains
      (Completion.runScript body { s with plane := s.plane.writeLog line }).plane := by
    intro body line
    have hlog : s.plane.Retains (s.plane.writeLog line) := ⟨rfl, rfl, rfl, rfl, rfl⟩
    have hscript := Completion.runScript_does body { s with plane := s.plane.writeLog line }
    exact hlog.trans hscript.beside.2.retains
  cases c with
  | script label ro body =>
    cases ro with
    | false => exact hscript body _
    | true =>
      rw [Completion.run]
      split
      · exact .refl _
      · exact hscript body _
  | decide h => cases hc
  | reportSteps own slots =>
    rw [Completion.run]
    split <;> exact ⟨rfl, rfl, rfl, rfl, rfl⟩
  | stopWorker name =>
    rw [Completion.run]
    split <;> exact ⟨rfl, rfl, rfl, rfl, rfl⟩
  | restoreWorker name worker =>
    rw [Completion.run]
    split <;> exact ⟨rfl, rfl, rfl, rfl, rfl⟩
  | reconfigureWorker name k =>
    rw [Completion.run]
    split
    · exact .refl _
    · split <;> exact ⟨rfl, rfl, rfl, rfl, rfl⟩

/-! ## Forwarded steps -/

namespace Forwarding

variable {p : Plane} {x : Execution} {step : Step}

theorem eases_leave (p : Plane) (f : Nat) (d : Delivery) : p.Eases (leave p f d) := by
  have hleft : ∀ q : Plane, p.Eases q →
      p.Eases (q.modifyForward f fun forward => forward.abandon.release) := fun q hq =>
    hq.modifyForward f fun x => x.eases_abandon.trans (Forward.eases_release _)
  cases d with
  | sending a ticket e =>
    have hwithdrawn : p.Eases (p.modifyActor a (·.withdraw ticket)) :=
      (Eases.refl p).modifyActor a (List.Subset.refl _)
    exact hleft _ (hwithdrawn.same rfl rfl rfl rfl rfl)
  | linked l => exact hleft _ ((Eases.refl p).modifyLink l fun _ => .inl rfl)
  | following a e => exact hleft _ ((Eases.refl p).same rfl rfl rfl rfl rfl)
  | delivered => exact (Eases.refl p).modifyForward f Forward.eases_abandon

/-- What has been reported to a step stays when one is abandoned. -/
theorem outcome_abandon (p : Plane) (f : Nat) (d : Delivery) (g : Nat) :
    ((abandon p f d).forward g).outcome = (p.forward g).outcome := by
  rw [abandon, letGo_eq]
  exact ((eases_leave { p with handles := _ } f d).forward g).outcome

/-- A step that has not heard its participant lets go of an offer at most. -/
theorem moves_abandon {heard : Nat → Prop} (p : Plane) (f : Nat) {d : Delivery}
    (hd : d ≠ .delivered) : Moves heard p (abandon p f d) := by
  refine Moves.trans ?_ (eases_leave _ f d).moves
  cases d with
  | linked l =>
    rw [unread?]
    cases hoffer : (p.link l).offer with
    | none => exact .refl p
    | some offer => exact moves_dropOffer (l := l) (by simp [handlesAt, hoffer])
  | delivered => exact absurd rfl hd
  | sending | following => exact .refl p

theorem not_listens_abandon (p : Plane) (f : Nat) (d : Delivery) :
    ¬ (abandon p f d).Listens f := by
  cases d <;> exact not_listens_modifyForward rfl

theorem eases_send {q : Plane} (h : p.Eases q) (a : Nat) (r : ActorRequest) :
    p.Eases (q.send a r).2 := by
  have hcount : p.Eases { q with sends := q.sends + 1 } := h.same rfl rfl rfl rfl rfl
  refine hcount.modifyActor a ?_
  rw [Actor.send]
  split <;> exact List.Subset.refl _

theorem moves_unruly (p : Plane) (f : Nat) (name : String) (conduct : Misconduct) :
    Moves (· = f) p (unruly p f name conduct).2 := by
  have hprepare : ∀ q : Plane, Moves (· = f) q ((q.newHandle {}).2.reportOutcome f
      (.prepared q.handles.length (Response.success name))) :=
    fun q => moves_prepare q f ⟨rfl, le_rfl⟩ _
  have hrelease : ∀ {q : Plane}, Moves (· = f) p q →
      Moves (· = f) p (q.modifyForward f Forward.release) :=
    fun hq => hq.trans ((Eases.refl _).modifyForward f Forward.eases_release).moves
  cases conduct with
  | preparesTwice => exact hrelease ((hprepare p).trans (hprepare _))
  | failsAfterPreparing => exact (hprepare p).trans (moves_failForward _ f _)
  | preparesAfterFailing =>
    refine hrelease ((moves_newHandle p {} ⟨rfl, le_rfl⟩).bind fun hp => ?_)
    have hspare : (p.newHandle {}).2.Spare p.handles.length := spare_newHandle hp ⟨rfl, le_rfl⟩
    refine (moves_reportOutcome (by rintro h ⟨⟩)).trans (moves_reportOutcome ?_)
    rintro h ⟨⟩
    exact hspare.reportFailed f _
  | preparesLate ms => exact .refl p
  | neverCompletes => exact hprepare p
  | completesTwice => exact hprepare p
  | preparesDeaf => exact hrelease (moves_prepare p f ⟨rfl, le_rfl⟩ _)
  | failsBare => exact moves_failForward p f _
  | failsStructured => exact moves_failForward p f _
  | staysSilent => exact hrelease (.refl p)

theorem moves_mock (p : Plane) (m f : Nat) (operation : Value) :
    Moves (fun g => (mock p m f operation).1.isSome ∧ g = f) p (mock p m f operation).2 := by
  have hmock : ∀ {heard : Nat → Prop} (g : Mock → Mock), Moves heard p (p.modifyMock m g) :=
    fun g => (Moves.refl p).same rfl rfl rfl rfl rfl
  have hheard : ∀ {spawned : List Task} {q r : Plane}, Moves (· = f) q r →
      Moves (fun g => (some spawned).isSome ∧ g = f) q r := fun h => h.mono fun g hg => ⟨rfl, hg⟩
  rw [mock]
  dsimp only
  split
  · exact hmock _
  · exact (hmock _).trans (hheard (moves_prepare _ f ⟨rfl, le_rfl⟩ _))
  · exact (hmock _).trans (hheard (moves_failForward _ f _))
  · exact hmock _

/-- Only a participant that has all it needs can report at once. -/
theorem moves_dispatch (p : Plane) (x : Execution) (proxy : Proxy) (operation : Value) (f : Nat) :
    Moves (fun g => (dispatch p x proxy operation f).1 = .ok .delivered ∧ g = f) p
      (dispatch p x proxy operation f).2.2 := by
  rw [dispatch]
  split
  · exact (Eases.refl p).newLink.moves
  · rename_i a ha
    have hnew : p.Eases (p.newExchange (p.actor a).nextNumber).2 :=
      (Eases.refl p).same rfl rfl rfl rfl rfl
    have hcounted : p.Eases ((p.newExchange (p.actor a).nextNumber).2.modifyActor a fun k =>
        { k with nextNumber := k.nextNumber + 1 }) := hnew.modifyActor a (List.Subset.refl _)
    dsimp only
    split
    · exact (eases_send hcounted a _).moves
    · exact hcounted.moves.trans ((moves_failForward _ f _).mono fun g hg => ⟨rfl, hg⟩)
  · rename_i m hm
    have hmock := moves_mock p m f operation
    split <;> rename_i h <;> rw [h] at hmock
    · exact hmock.mono fun g hg => ⟨rfl, hg.2⟩
    · exact hmock.mono fun g hg => absurd hg.1 Bool.false_ne_true
  · rename_i name conduct hname
    exact (moves_unruly p f name conduct).mono fun g hg => ⟨rfl, hg⟩

theorem begins_dispatch (p : Plane) (x : Execution) (proxy : Proxy) (operation : Value) (f : Nat) :
    ∀ t ∈ (dispatch p x proxy operation f).2.1,
      t.Begins fun g => (dispatch p x proxy operation f).1 = .ok .delivered ∧ g = f := by
  rw [dispatch]
  split
  · rintro t (_ | ⟨_, ⟨⟩⟩)
    exact ⟨_, _, _, _, _, rfl⟩
  · dsimp only
    split <;> rintro t ⟨⟩
  · rename_i m hm
    have hspawned : ∀ spawned, (mock p m f operation).1 = some spawned →
        ∀ t ∈ spawned, ∀ late, t.Begins late := by
      rw [mock]
      dsimp only
      split
      · rintro spawned ⟨⟩
      · rintro spawned ⟨⟩ t (_ | ⟨_, ⟨⟩⟩) late
        trivial
      · rintro spawned ⟨⟩ t ⟨⟩
      · rintro spawned ⟨⟩ t ⟨⟩
    split <;> rename_i h <;> rw [h] at hspawned
    · exact fun t ht => hspawned _ rfl t ht _
    · rintro t ⟨⟩
  · rename_i name conduct hname
    cases conduct with
    | preparesTwice => rintro t (_ | ⟨_, _ | ⟨_, ⟨⟩⟩⟩) <;> trivial
    | failsAfterPreparing => rintro t (_ | ⟨_, ⟨⟩⟩); trivial
    | preparesAfterFailing => rintro t (_ | ⟨_, ⟨⟩⟩); trivial
    | preparesLate ms =>
      rintro t (_ | ⟨_, ⟨⟩⟩)
      exact ⟨rfl, rfl⟩
    | completesTwice => rintro t (_ | ⟨_, ⟨⟩⟩); trivial
    | _ => rintro t ⟨⟩

theorem spawned_of_error (p : Plane) (x : Execution) (proxy : Proxy) (operation : Value) (f : Nat) :
    ∀ reason, (dispatch p x proxy operation f).1 = .error reason →
      (dispatch p x proxy operation f).2.1 = [] := by
  rw [dispatch]
  split
  · rintro reason ⟨⟩
  · dsimp only
    split <;> rintro reason ⟨⟩
  · split
    · rintro reason ⟨⟩
    · exact fun _ _ => rfl
  · rintro reason ⟨⟩

end Forwarding

/-! ## The stance of an operation after a turn -/

/-- The step completes with a participant that has prepared and holds its handle from now on. -/
structure Moment.Concludes (m : Moment) (f h : Nat) : Prop where
  /-- The operation waits for the report of the participant, and is not interrupted. -/
  reads : ∃ step due, m.execution.phase = .handling step (.forwarding f due .delivered) ∧
    m.execution.interruption? m.plane due (Forwarding.subject step.address) = none
  accepts : m.plane.Accepts f h

theorem Moment.Concludes.awaits {m : Moment} {f h : Nat} (hm : m.Concludes f h) :
    m.execution.awaits? = some (f, .delivered) := by
  obtain ⟨step, due, hphase, -⟩ := hm.reads
  rw [Execution.awaits?, hphase]

namespace Execution

/-- What a turn does with the participants of its operation, unless it tells one of them. -/
inductive Turned (p : Plane) (x : Execution) (t : Turn) : Prop
  | deals {y : Execution} (hy : t.next.after? = some y)
      (h : Deals (p, x.stance) (t.plane, y.stance))
      (hheld : ∀ h ∈ y.stance.held, h ∈ x.stance.held ∨ ∃ f, (Moment.mk p x).Concludes f h)
      (hspawned : ∀ s ∈ t.spawned, s.Begins y.stance.Hears)
  /-- The step had only begun. -/
  | crashes {reason : String} (hnext : t.next = .crashed reason)
      (h : Deals (p, x.stance) (t.plane, x.stance)) (hidle : x.awaits? = none)
      (hspawned : t.spawned = [])

variable {p : Plane} {x y : Execution} {t : Turn}

theorem Turned.of_moves (h : Moves x.stance.Hears p t.plane) (hy : t.next.after? = some y)
    (hstance : y.stance = x.stance) (hspawned : t.spawned = []) : Turned p x t :=
  .deals hy (deals_moves h hstance) (fun h hh => .inl (hstance ▸ hh)) (by simp [hspawned])

theorem Turned.of_retains (h : p.Retains t.plane) (hy : t.next.after? = some y)
    (hstance : y.stance = x.stance) (hspawned : t.spawned = []) : Turned p x t :=
  .of_moves h.eases.moves hy hstance hspawned

theorem stance_of_phase {step : Step} {w : Work} (hphase : x.phase = .handling step w)
    (hw : w.forward? = none) : x.stance = ⟨none, x.stance.held⟩ := by
  have hawaits : x.awaits? = none := by
    rw [awaits?, hphase]
    cases w with
    | forwarding f due d => cases hw
    | _ => rfl
  rw [stance, hawaits]

theorem completed_afterStep (x : Execution) (step : Step) (out : Except OperationError Unit) :
    (x.afterStep step out).context.completed = x.context.completed := by
  have hcompleted := (x.context.endStep_rested step out).completed
  rw [afterStep]
  split
  all_goals
    rename_i context hcontext
    rw [hcontext] at hcompleted
    exact hcompleted

theorem stance_afterStep (x : Execution) (step : Step) (out : Except OperationError Unit) :
    (x.afterStep step out).stance = ⟨none, x.stance.held⟩ := by
  have hawaits : (x.afterStep step out).awaits? = none := by
    rw [afterStep]
    split <;> rfl
  rw [stance, hawaits, completed_afterStep, stance]

/-- The handles that the completions have are not changed by the work of a step. -/
theorem held_worked {z : Context} (h : x.context.Worked z) :
    z.completed.filterMap Completion.handle? = x.stance.held := by
  obtain ⟨new, hnew, hhandle⟩ := h.completed
  have hnone : new.filterMap Completion.handle? = [] := List.filterMap_eq_nil_iff.mpr hhandle
  rw [hnew, List.filterMap_append, hnone]
  rfl

theorem turned_start {step : Step} {proxy : Proxy} (hphase : x.phase = .handling step .begin) :
    Turned p x (Forwarding.start p x step proxy) := by
  have hstance := stance_of_phase hphase rfl
  rw [Forwarding.start]
  dsimp only
  split
  · exact .of_moves (.refl p) rfl ((stance_afterStep x step _).trans hstance.symm) rfl
  split
  · exact .of_moves (.refl p) rfl ((stance_afterStep x step _).trans hstance.symm) rfl
  · have hdispatch := Forwarding.moves_dispatch p.newForward.2 x proxy
      (step.operation.set Key.address (Address.toValue (step.address.drop proxy.node.length)))
      p.newForward.1
    have hbegins := Forwarding.begins_dispatch p.newForward.2 x proxy
      (step.operation.set Key.address (Address.toValue (step.address.drop proxy.node.length)))
      p.newForward.1
    have hnone := Forwarding.spawned_of_error p.newForward.2 x proxy
      (step.operation.set Key.address (Address.toValue (step.address.drop proxy.node.length)))
      p.newForward.1
    split <;> rename_i h <;> rw [h] at hdispatch hbegins hnone
    · rename_i delivery spawned q
      refine .deals rfl ?_ (fun h hh => .inl hh) ?_
      · rw [hstance]
        refine (Relation.ReflTransGen.single (.starts delivery)).trans (deals_moves ?_ rfl)
        refine hdispatch.mono ?_
        rintro g ⟨⟨⟩, rfl⟩
        exact rfl
      · intro s hs
        refine (hbegins s hs).mono ?_
        rintro g ⟨⟨⟩, rfl⟩
        exact rfl
    · rename_i reason spawned q
      refine .crashes rfl ?_ ?_ ?_
      · rw [hstance]
        have hmoves : Moves (Stance.Hears ⟨some (p.forwards.length, .linked 0), x.stance.held⟩)
            p.newForward.2 (q.modifyForward p.forwards.length Forward.abandon) := by
          refine (hdispatch.mono ?_).trans
            ((Eases.refl q).modifyForward _ Forward.eases_abandon).moves
          rintro g ⟨⟨⟩, -⟩
        refine ((Relation.ReflTransGen.single (.starts (.linked 0))).tail (.moves hmoves)).tail ?_
        exact .leaves (fun _ => not_listens_modifyForward rfl) (.inl (by rintro ⟨⟩))
      · exact congrArg Stance.awaits hstance
      · exact hnone reason rfl

section Forwarding

variable {step : Step} {f due : Nat} {d : Delivery}

theorem stance_of_forwarding (hphase : x.phase = .handling step (.forwarding f due d)) :
    x.stance = ⟨some (f, d), x.stance.held⟩ := by
  have hawaits : x.awaits? = some (f, d) := by rw [awaits?, hphase]
  rw [stance, hawaits]

/-- The step fails or is abandoned. -/
theorem turned_leave (hphase : x.phase = .handling step (.forwarding f due d)) {q : Plane}
    {e : OperationError} (hq : Moves x.stance.Hears p q) (hclosed : q.Tidy → ¬ q.Listens f)
    (hfree : d ≠ .delivered ∨ ∀ h, ¬ q.Accepts f h) :
    Turned p x { plane := q, next := .returned x step (.error e) } := by
  have hstance := stance_afterStep x step (.error e)
  refine .deals rfl ?_ (fun h hh => .inl (by rwa [hstance] at hh)) (by rintro s ⟨⟩)
  rw [hstance, stance_of_forwarding hphase]
  rw [stance_of_forwarding hphase] at hq
  exact (Relation.ReflTransGen.single (.moves hq)).tail (.leaves hclosed hfree)

/-- An operation that has heard nothing good leaves. -/
theorem turned_stop_unaccepted (hphase : x.phase = .handling step (.forwarding f due .delivered))
    (hnone : ∀ h, ¬ p.Accepts f h) (e : OperationError) :
    Turned p x (Forwarding.stop p x step f .delivered e) := by
  have hunread : Forwarding.unread? p f .delivered = none := by
    rw [Forwarding.unread?]
    cases ho : (p.forward f).outcome with
    | none => rfl
    | some o =>
      cases o with
      | prepared h r => exact absurd ⟨r, ho⟩ (hnone h)
      | failed r => rfl
  have heases : p.Eases (Forwarding.abandon p f .delivered) := by
    rw [Forwarding.abandon, hunread]
    exact Forwarding.eases_leave p f .delivered
  refine turned_leave hphase heases.moves
    (fun _ => Forwarding.not_listens_abandon p f .delivered) (.inr ?_)
  rintro h ⟨r, hr⟩
  exact hnone h ⟨r, (heases.forward f).outcome.symm.trans hr⟩

/-- A participant that has prepared unread counts as accepted and is dropped at once. -/
theorem turned_stop_accepted (hphase : x.phase = .handling step (.forwarding f due .delivered))
    {h : Nat} (haccepts : p.Accepts f h) (e : OperationError) :
    Turned p x (Forwarding.stop p x step f .delivered e) := by
  have hstance := stance_afterStep x step (.error e)
  have habandon : Forwarding.abandon p f .delivered =
      Forwarding.leave (p.modifyHandle h Prepared.drop) f .delivered := by
    obtain ⟨r, hr⟩ := haccepts
    rw [Forwarding.abandon, Forwarding.unread?, hr]
    rfl
  have hmoves : Moves (Stance.Hears ⟨none, x.stance.held⟩) (p.modifyHandle h Prepared.drop) _ :=
    (Forwarding.eases_leave _ f .delivered).moves
  refine .deals rfl ?_ (fun i hi => .inl (by rwa [hstance] at hi)) (by rintro s ⟨⟩)
  rw [hstance, stance_of_forwarding hphase, Forwarding.stop, habandon]
  exact ((Relation.ReflTransGen.single (.concludes haccepts)).tail .drops).tail (.moves hmoves)

/-- The step is abandoned, whatever has come for it. -/
theorem turned_stop (hphase : x.phase = .handling step (.forwarding f due d))
    (e : OperationError) : Turned p x (Forwarding.stop p x step f d e) := by
  by_cases hd : d = .delivered
  · subst hd
    by_cases haccepts : ∃ h, p.Accepts f h
    · obtain ⟨h, haccepts⟩ := haccepts
      exact turned_stop_accepted hphase haccepts e
    · exact turned_stop_unaccepted hphase (not_exists.mp haccepts) e
  · exact turned_leave hphase (Forwarding.moves_abandon p f hd)
      (fun _ => Forwarding.not_listens_abandon p f d) (.inl hd)

/-- The operation comes closer to its participant, which may report on the way. -/
theorem turned_go (hphase : x.phase = .handling step (.forwarding f due d)) {q : Plane}
    {d' : Delivery} {spawned : List Task} (hd : d' = .delivered ∨ d ≠ .delivered)
    (hq : Moves (fun g => d' = .delivered ∧ g = f) p q)
    (hspawned : ∀ s ∈ spawned, s.Begins fun _ => False) :
    Turned p x { plane := q, spawned, next := .going { x with
      phase := .handling step (.forwarding f due d') } } := by
  refine .deals rfl ?_ (fun h hh => .inl hh) fun s hs => (hspawned s hs).mono fun _ h => h.elim
  rw [stance_of_forwarding hphase]
  refine (Relation.ReflTransGen.single (.redelivers hd)).trans (deals_moves ?_ rfl)
  refine hq.mono ?_
  rintro g ⟨rfl, rfl⟩
  exact rfl

/-- The step completes: the operation holds the handle of its participant from now on. -/
theorem turned_conclude (hphase : x.phase = .handling step (.forwarding f due .delivered))
    (hbusy : x.context.Busy step (.forwarding f due .delivered)) {h : Nat} {response : Value}
    (houtcome : (p.forward f).outcome = some (.prepared h response))
    (hread : x.interruption? p due (Forwarding.subject step.address) = none) :
    Turned p x { plane := p, next := Forwarding.conclude x step f (.prepared h response) } := by
  obtain ⟨a, ha, -, -, hfresh⟩ := hbusy.active
  have haccept := Forwarding.accept_eq f h response ha (hfresh rfl)
  have hstance : Execution.stance
      ({ x with context := Forwarding.accept x.context f h response }.afterStep step (.ok ())) =
      ⟨none, h :: x.stance.held⟩ := by
    rw [stance_afterStep, haccept]
    rfl
  have haccepts : p.Accepts f h := ⟨response, houtcome⟩
  refine .deals rfl ?_ (fun i hi => ?_) (by rintro s ⟨⟩)
  · rw [hstance, stance_of_forwarding hphase]
    exact .single (.concludes haccepts)
  · rw [hstance] at hi
    rcases List.mem_cons.mp hi with rfl | hi
    · exact .inr ⟨f, ⟨step, due, hphase, hread⟩, haccepts⟩
    · exact .inl hi

theorem moves_approaches {sink : Sink} {d d' : Delivery} {q : Plane} {spawned : List Task}
    (h : Forwarding.Approaches p sink f d d' q spawned) :
    Moves (fun g => d' = .delivered ∧ g = f) p q := by
  have hreports : ∀ {r : Plane}, Moves (· = f) p r →
      Moves (fun g => Delivery.delivered = .delivered ∧ g = f) p r :=
    fun h => h.mono fun g hg => ⟨rfl, hg⟩
  cases h with
  | sent => exact .refl p
  | refused | ends | breaks => exact hreports (moves_failForward p f _)
  | @takes l i r hoffer =>
    have htake : p.Eases (p.modifyLink l Link.take) :=
      (Eases.refl p).modifyLink l fun _ => .inr rfl
    refine hreports (htake.moves.bind fun hp => moves_reportOutcome ?_)
    rintro i ⟨⟩
    exact spare_take hp hoffer
  | hears =>
    refine Eases.moves ?_
    cases sink <;> exact (Eases.refl p).same rfl rfl rfl rfl rfl
  | @stands a e r q _ hq =>
    have hseen : p.Eases q := hq ▸ (Eases.refl p).same rfl rfl rfl rfl rfl
    have huntouched : Prepared.Untouched {} := ⟨rfl, le_rfl⟩
    have hprepared := hseen.moves.trans (moves_prepare _ f huntouched r)
    exact hreports (hprepared.trans
      (Eases.moves ((Eases.refl _).modifyActor a (List.Subset.refl _))))
  | @fails a e =>
    have hleft : p.Eases ((p.modifyExchange e fun _ => (p.exchange e).next.2).modifyExchange e
        Exchange.leave) := (Eases.refl p).same rfl rfl rfl rfl rfl
    exact hreports (hleft.moves.trans (moves_failForward _ f _))
  | @closes a e =>
    have hseen : p.Eases (p.modifyExchange e fun _ => (p.exchange e).next.2) :=
      (Eases.refl p).same rfl rfl rfl rfl rfl
    exact hreports (hseen.moves.trans (moves_failForward _ f _))

theorem turned_follow (hphase : x.phase = .handling step (.forwarding f due d))
    (hbusy : x.context.Busy step (.forwarding f due d)) :
    Turned p x (Forwarding.advance p x step f due d) := by
  have hadvances := Forwarding.advances p x step f due d
  generalize Forwarding.advance p x step f due d = t at hadvances ⊢
  cases hadvances with
  | goes h =>
    refine turned_go hphase (.inr h.ne_delivered) (moves_approaches h) ?_
    cases h with
    | takes | stands =>
      rintro s (_ | ⟨_, ⟨⟩⟩)
      trivial
    | _ => rintro s ⟨⟩
  | @concludes o hd houtcome hread =>
    subst hd
    cases o with
    | prepared h response => exact turned_conclude hphase hbusy houtcome hread
    | failed response =>
      refine turned_leave hphase (.refl p) (fun hp => hp.not_listens houtcome) (.inr ?_)
      rintro h ⟨r, hr⟩
      cases houtcome.symm.trans hr
  | waits => exact .of_moves (.refl p) rfl rfl rfl
  | stops e => exact turned_stop hphase e

end Forwarding

/-! ## Turn by turn -/

/-- A step that runs here deals with no participant. -/
theorem turned_of_keeping {step : Step} {w : Work} (hphase : x.phase = .handling step w)
    (hw : w.isFresh = false) : Turned p x (work p x step w) := by
  have hkeeping := keeping_work p x step w
  obtain ⟨hretains, hspawned⟩ := hkeeping.retains hw
  have hforward : w.forward? = none := by
    cases w with
    | forwarding f due d => cases hw
    | _ => rfl
  have hstance := stance_of_phase hphase hforward
  have hcontinues := hkeeping.continues
  generalize hnext : (work p x step w).next = next at hcontinues
  have hturned : ∀ {y : Execution}, next.after? = some y → y.stance = ⟨none, x.stance.held⟩ →
      Turned p x (work p x step w) := fun hy hstance' =>
    .of_retains hretains (hnext ▸ hy) (hstance'.trans hstance.symm) hspawned
  cases hcontinues with
  | @goes z w' hz hw' _ =>
    refine hturned rfl ?_
    have hforward' : w'.forward? = none := by
      cases w' with
      | forwarding f due d => cases hw'
      | _ => rfl
    refine (stance_of_phase rfl hforward').trans (congrArg (Stance.mk none) ?_)
    cases hz with
    | does hz => exact held_worked hz.worked
    | stages hz =>
      have hheld := held_worked hz.worked
      exact hheld
  | forwards hf =>
    rcases hf with ⟨d, rfl⟩ | ⟨rfl, -⟩ <;> cases hw
  | returns hz hout =>
    refine hturned rfl ((stance_afterStep _ _ _).trans (congrArg (Stance.mk none) ?_))
    exact held_worked hz.worked
  | concludes hw' _ =>
    subst hw'
    cases hw
  | blocks => exact hturned rfl hstance
  | nests hz _ =>
    refine hturned rfl ((stance_of_phase rfl rfl).trans (congrArg (Stance.mk none) ?_))
    exact held_worked hz.worked
  | crashes hw' =>
    subst hw'
    cases hw

theorem turned_work {step : Step} {w : Work} (hphase : x.phase = .handling step w)
    (hbusy : x.context.Busy step w) : Turned p x (work p x step w) := by
  cases w with
  | begin =>
    have hstance := stance_of_phase hphase rfl
    rw [work]
    split
    · exact .of_moves (.refl p) rfl hstance.symm rfl
    · exact turned_start hphase
    · split
      · rename_i deed hdeed
        have hscene := Handler.deed?_made hdeed ⟨p, x.controller, x.context⟩
        refine .of_retains hscene.beside.2.retains rfl ?_ rfl
        refine (stance_afterStep _ _ _).trans ((congrArg (Stance.mk none) ?_).trans hstance.symm)
        exact held_worked hscene.context.worked
      · exact .of_moves (.refl p) rfl ((stance_afterStep x step _).trans hstance.symm) rfl
  | running frames => exact turned_of_keeping hphase rfl
  | acquiring deadline frames => exact turned_of_keeping hphase rfl
  | pausing wake deadline what frames => exact turned_of_keeping hphase rfl
  | nesting frames => exact turned_of_keeping hphase rfl
  | forwarding f due d => exact turned_follow hphase hbusy

theorem stance_of_idle (hidle : ∀ step w, x.phase ≠ .handling step w) :
    x.stance = ⟨none, x.stance.held⟩ := by
  have hawaits : x.awaits? = none := by
    rw [awaits?]
    split
    · rename_i step f due d hphase
      exact absurd hphase (hidle step _)
    · rfl
  rw [stance, hawaits]

theorem turned_begin (hphase : x.phase = .opening) : Turned p x (begin p x) := by
  have hstance : x.stance = ⟨none, x.stance.held⟩ := stance_of_idle (by simp [hphase])
  have hplane : ∀ {q : Plane} {y : Execution}, p.Retains q → y.stance = ⟨none, x.stance.held⟩ →
      Turned p x { plane := q, next := .going y } := fun hq hy =>
    .of_retains hq rfl (hy.trans hstance.symm) rfl
  rw [begin]
  split
  · exact hplane (.refl p) rfl
  · dsimp only
    split
    · exact hplane ⟨rfl, rfl, rfl, rfl, rfl⟩ rfl
    · split
      · exact hplane ⟨rfl, rfl, rfl, rfl, rfl⟩ rfl
      · split
        · rename_i q t htake
          refine hplane (Plane.Retains.trans ?_ (takeLock?_eq_some htake).2.2.2) rfl
          exact ⟨rfl, rfl, rfl, rfl, rfl⟩
        · exact hplane ⟨rfl, rfl, rfl, rfl, rfl⟩ rfl

theorem turned_awaitLock {deadline : Nat} (hphase : x.phase = .locking deadline) :
    Turned p x (awaitLock p x deadline) := by
  have hstance : x.stance = ⟨none, x.stance.held⟩ := stance_of_idle (by simp [hphase])
  rw [awaitLock]
  dsimp only
  split
  · rename_i q t htake
    exact .of_retains (takeLock?_eq_some htake).2.2.2 rfl hstance.symm rfl
  · split
    · exact .of_retains (retains_setTree _ _ _) rfl hstance.symm rfl
    · exact .of_retains (.refl p) rfl rfl rfl

theorem turned_pick (hphase : x.phase = .stepping) : Turned p x (pick p x) := by
  have hstance : x.stance = ⟨none, x.stance.held⟩ := stance_of_idle (by simp [hphase])
  rw [pick]
  dsimp only
  split
  · rename_i step context hnext
    have hcompleted : context.completed = x.context.completed := by
      obtain ⟨rest, -, rfl⟩ := Context.nextStep?_eq_some hnext
      rfl
    split
    all_goals
      refine .of_retains (.refl p) rfl (Eq.trans ?_ hstance.symm) rfl
      exact congrArg (fun c => Stance.mk none (c.filterMap Completion.handle?)) hcompleted
  · split
    · exact .of_retains (retains_setTree _ _ _) rfl rfl rfl
    · split
      · exact .of_retains (.refl p) rfl hstance.symm rfl
      · refine .of_moves ?_ rfl hstance.symm rfl
        refine (moves_newHandle p {} ⟨rfl, le_rfl⟩).bind fun hp =>
          moves_announcePrepared ?_ _ _
        exact spare_newHandle hp ⟨rfl, le_rfl⟩

theorem turned_decide {h : Nat} {due : Option Nat} (hphase : x.phase = .deciding h due) :
    Turned p x (decide p x h due) := by
  have hstance : x.stance = ⟨none, x.stance.held⟩ := stance_of_idle (by simp [hphase])
  have happly : ∀ d, Turned p x (apply p x h d) := by
    intro d
    have hleft : p.Eases (p.modifyHandle h Prepared.leave) :=
      (Eases.refl p).modifyHandle h (fun _ => rfl) fun _ => rfl
    have htree : ∀ tree, Moves x.stance.Hears p
        ((p.modifyHandle h Prepared.leave).setTree x.controller tree) :=
      fun tree => hleft.moves.same rfl rfl rfl rfl rfl
    rw [apply.eq_def]
    dsimp only
    cases d with
    | keep =>
      dsimp only
      split <;> exact .of_moves (htree _) rfl hstance.symm rfl
    | rollback => exact .of_moves (htree _) rfl hstance.symm rfl
  have hblocked : Turned p x { plane := p, next := .blocked x } := .of_moves (.refl p) rfl rfl rfl
  rw [decide.eq_def]
  split
  · exact happly _
  · split
    · split
      · exact happly .rollback
      · exact hblocked
    · exact hblocked

/-- The operation passes its outcome on to a prepared participant. -/
def Tells (x : Execution) (h : Nat) (d : Decision) : Prop :=
  ∃ e rest, x.phase = .unwinding e ∧ x.context.completed = .decide h :: rest ∧ d = e.decision

theorem mem_tells {h : Nat} {d : Decision} :
    (.decide h, d) ∈ (Moment.mk p x).tells ↔ x.Tells h d := by
  rw [Moment.tells]
  constructor
  · intro hd
    split at hd
    · rename_i e c rest hphase hcompleted
      cases List.mem_singleton.mp hd
      exact ⟨e, rest, hphase, hcompleted, rfl⟩
    · cases hd
  · rintro ⟨e, rest, hphase, hcompleted, rfl⟩
    rw [hphase, hcompleted]
    exact List.mem_singleton_self _

/-- After a completion was told, what is left is the stance of the rest. -/
theorem stance_run {e : Ending} {c : Completion} {rest : List Completion}
    (hphase : x.phase = .unwinding e) (hactive : x.context.active = none) :
    Execution.stance { x with context :=
      (c.run e.decision ⟨p, x.controller, { x.context with completed := rest }⟩).context } =
      ⟨none, rest.filterMap Completion.handle?⟩ := by
  have hstance : x.stance = ⟨none, x.stance.held⟩ := stance_of_idle (by simp [hphase])
  have hidle := c.run_idle e.decision ⟨p, x.controller, { x.context with completed := rest }⟩
    hactive
  rw [stance, hidle.2]
  exact congrArg (Stance.mk · _) (congrArg Stance.awaits hstance)

theorem turned_unwind {e : Ending} (hphase : x.phase = .unwinding e)
    (hactive : x.context.active = none) (hnot : ∀ h d, ¬ x.Tells h d) :
    Turned p x (unwind p x e) := by
  have hstance : x.stance = ⟨none, x.stance.held⟩ := stance_of_idle (by simp [hphase])
  rw [unwind]
  split
  · cases e with
    | kept => exact .of_retains (.refl p) rfl hstance.symm rfl
    | rolledBack failure => exact .of_retains (.refl p) rfl hstance.symm rfl
    | failed => exact .of_retains (retains_setTree _ _ _) rfl hstance.symm rfl
    | fatal reason => exact .of_retains ⟨rfl, rfl, rfl, rfl, rfl⟩ rfl hstance.symm rfl
  · rename_i c rest hcompleted
    have hc : c.handle? = none := by
      cases hc : c.handle? with
      | none => rfl
      | some h =>
        obtain rfl := Completion.eq_decide hc
        exact absurd ⟨e, rest, hphase, hcompleted, rfl⟩ (hnot h e.decision)
    have hretains := Completion.retains_run hc e.decision
      ⟨p, x.controller, { x.context with completed := rest }⟩
    refine .of_retains hretains rfl ((stance_run hphase hactive).trans ?_) rfl
    rw [hstance, stance, hcompleted, List.filterMap_cons_none hc]

theorem turned_drain {deadline : Option Nat} {e : Ending}
    (hphase : x.phase = .draining deadline e) :
    Turned p x (drain p x deadline e) := by
  have hstance : x.stance = ⟨none, x.stance.held⟩ := stance_of_idle (by simp [hphase])
  rw [drain]
  dsimp only
  split
  · exact .of_moves (.refl p) rfl hstance.symm rfl
  · split
    · exact .of_moves (.refl p) rfl hstance.symm rfl
    · split
      · exact .of_moves (.refl p) rfl hstance.symm rfl
      · split
        · exact .of_moves (.refl p) rfl hstance.symm rfl
        · exact .of_moves (.refl p) rfl rfl rfl

/-- **Every turn that tells no participant is a deal**, or breaks the operation down. -/
theorem turned_advance {past : List Moment} (hlived : Lived past x)
    (hopen : ∀ answer, x.phase ≠ .ended answer) (hnot : ∀ h d, ¬ x.Tells h d) :
    Turned p x (x.advance p) := by
  rw [advance]
  split <;> rename_i hphase
  · exact turned_begin hphase
  · exact turned_awaitLock hphase
  · exact turned_pick hphase
  · rw [Lived, hphase] at hlived
    exact turned_work hphase hlived.2
  · exact turned_decide hphase
  · rw [Lived, hphase] at hlived
    exact turned_unwind hphase hlived.2.1 hnot
  · exact turned_drain hphase
  · exact absurd hphase (hopen _)

/-- **A turn that tells a participant** decides its handle and does nothing else. -/
theorem tells_advance {past : List Moment} (hlived : Lived past x) {h : Nat} {d : Decision}
    (htells : x.Tells h d) : ∃ y held, (x.advance p).next = .going y ∧ y.stance = ⟨none, held⟩ ∧
      x.stance = ⟨none, h :: held⟩ ∧ (x.advance p).plane = p.decideAndDrop h d ∧
      (x.advance p).spawned = [] := by
  obtain ⟨e, rest, hphase, hcompleted, rfl⟩ := htells
  have hadvance : x.advance p = unwind p x e := by rw [advance, hphase]
  rw [Lived, hphase] at hlived
  rw [unwind, hcompleted] at hadvance
  have hstance : x.stance = ⟨none, x.stance.held⟩ := stance_of_idle (by simp [hphase])
  rw [hadvance]
  refine ⟨_, _, rfl, stance_run hphase hlived.2.1, ?_, rfl, rfl⟩
  rw [hstance, stance, hcompleted]
  rfl

end Execution

end ManagementPlane
