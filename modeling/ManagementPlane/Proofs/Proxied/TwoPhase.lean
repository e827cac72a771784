import ManagementPlane.Proofs.Proxied.Runs

/-!
# Proofs/Proxied/TwoPhase — participants are kept together or not at all

What becomes of a prepared participant, in every world that is reached (`World.TwoPhase`): it gets
one decision at most, it is kept only with the whole operation that forwarded to it, and it is
rolled back on arrival when it came too late or once too often.  An operation that has returned has
decided every participant that it ever had.
-/

namespace ManagementPlane

open Plane Execution

namespace World

variable {w w' : World} {f h : Nat} {r : Value}

/-- An operation that has not returned has still to decide the participant of its step: it is about
to take the handle, or took it on one of its turns. -/
def Undecided (w : World) (f h : Nat) : Prop :=
  ∃ x ∈ w.executions, (∀ answer, x.phase ≠ .ended answer) ∧
    ((∃ d, x.awaits? = some (f, d)) ∨
      h ∈ x.stance.held ∧ ∃ turns, Story turns w.plane x ∧ turns.Sublist w.past ∧
        ∃ k ∈ turns, k.Concludes f h)

/-- What becomes of the handle `h` that the participant of step `f` reported. -/
structure Decided (w : World) (f h : Nat) (r : Value) : Prop where
  /-- A decision is the only one that the handle ever gets. -/
  once : ∀ d, (w.plane.handle h).decision = some d →
    ∀ w', w.Leads w' → (w'.plane.handle h).decision = some d
  /-- The participant is kept only if it was the first to report on its step, and the operation
  that took it went well as a whole. -/
  kept : (w.plane.handle h).decision = some .keep →
    (w.plane.forward f).reports.head? = some (.prepared h r) ∧
      ∃ turns m, Story turns m.plane m.execution ∧ (m :: turns).Sublist w.past ∧
        (.decide h, .keep) ∈ m.tells ∧ Kept turns f h
  /-- What the step did not accept is rolled back. -/
  refused : (w.plane.forward f).outcome ≠ some (.prepared h r) →
    (w.plane.handle h).decision = some .rollback
  /-- Nobody is forgotten: what is neither kept nor waited for is rolled back. -/
  settled : (w.plane.handle h).decision = some .keep ∨
    (w.plane.handle h).outlook.effect? = some .rollback ∨ w.Undecided f h

/-- Two phases for all participants of all operations. -/
structure TwoPhase (w : World) : Prop where
  decided : ∀ f h r, .prepared h r ∈ (w.plane.forward f).reports → w.Decided f h r
  /-- When no operation waits for the step any more, be it that it went on, failed, ran out of time
  or was cancelled, then whoever prepares is rolled back on arrival. -/
  late : ∀ f < w.plane.forwards.length, (∀ x ∈ w.executions, ∀ d, x.awaits? ≠ some (f, d)) →
    ∀ w', w.Leads w' → ∀ h r, .prepared h r ∉ (w.plane.forward f).reports →
      .prepared h r ∈ (w'.plane.forward f).reports → (w'.plane.handle h).decision = some .rollback
  /-- An operation that has returned has decided every participant that it had. -/
  returned : ∀ x ∈ w.executions, ∀ answer, x.phase = .ended answer →
    ∃ turns, Story turns w.plane x ∧ turns.Sublist w.past ∧
      ∀ k ∈ turns, ∀ f h, k.Concludes f h → ∃ d, (w.plane.handle h).decision = some d

/-! ## From the accounts -/

/-- What a step took on a turn of the past, it still has. -/
theorem Inv.accepts (hw : w.Inv) {k : Moment} (hk : k ∈ w.past) (hc : k.Concludes f h) :
    w.plane.Accepts f h := by
  obtain ⟨-, r, hr⟩ := hc
  exact ⟨r, hw.accounts.recorded.outcome k hk hr⟩

theorem Inv.kept (hw : w.Inv) (ha : w.plane.Accepts f h)
    (hkeep : (w.plane.handle h).decision = some .keep) :
    ∃ turns m, Story turns m.plane m.execution ∧ (m :: turns).Sublist w.past ∧
      (.decide h, .keep) ∈ m.tells ∧ Kept turns f h := by
  obtain ⟨turns, m, hstory, hsub, htells⟩ := hw.accounts.recorded.told ha hkeep
  obtain ⟨g, hkept⟩ := hstory.kept htells
  obtain ⟨k, hk, hc⟩ := hkept.concludes
  have hg := hw.accepts (hsub.subset (List.mem_cons_of_mem m hk)) hc
  obtain rfl := hw.accounts.sound.tidy.accepts_unique hg ha
  exact ⟨turns, m, hstory, hsub, htells, hkept⟩

/-- Whoever waits for a step, or holds a handle, has not returned. -/
theorem Inv.undecided (hw : w.Inv) (ha : w.plane.Accepts f h)
    (hx : Stance.Awaited w.stances f ∨ Stance.Holding w.stances h) : w.Undecided f h := by
  rcases hx with ⟨s, hs, hf⟩ | ⟨s, hs, hh⟩
  · obtain ⟨x, hx, rfl⟩ := List.mem_map.mp hs
    obtain ⟨⟨g, d⟩, hd, rfl⟩ := Option.map_eq_some_iff.mp hf
    refine ⟨x, hx, fun answer hphase => ?_, .inl ⟨d, hd⟩⟩
    obtain ⟨step, due, hphase'⟩ := phase_of_awaits hd
    cases hphase.symm.trans hphase'
  · obtain ⟨x, hx, rfl⟩ := List.mem_map.mp hs
    obtain ⟨turns, hstory, hsub⟩ := hw.accounts.storied x hx
    obtain ⟨k, hk, g, hc⟩ := hstory.concluded h hh
    obtain rfl := hw.accounts.sound.tidy.accepts_unique (hw.accepts (hsub.subset hk) hc) ha
    refine ⟨x, hx, fun answer hphase => ?_, .inr ⟨hh, turns, hstory, hsub, k, hk, hc⟩⟩
    have hlived := hstory.lived
    rw [Lived, hphase] at hlived
    rw [stance, hlived.2] at hh
    cases hh

theorem Inv.decided (hw : w.Inv) (hr : .prepared h r ∈ (w.plane.forward f).reports) :
    w.Decided f h r := by
  have htidy := hw.accounts.sound.tidy
  have hrefused := htidy.refused hr
  constructor
  · exact fun d hd w' hleads => (hw.leads hleads).2.firm hd
  · intro hkeep
    have haccepted : (w.plane.forward f).outcome = some (.prepared h r) := by
      by_contra hnot
      cases hkeep.symm.trans (hrefused hnot)
    exact ⟨htidy.first haccepted, hw.kept ⟨r, haccepted⟩ hkeep⟩
  · exact hrefused
  · by_cases haccepted : (w.plane.forward f).outcome = some (.prepared h r)
    · have ha : w.plane.Accepts f h := ⟨r, haccepted⟩
      rcases hw.accounts.sound.settled ha with hf | hh | houtlook
      · exact .inr (.inr (hw.undecided ha (.inl hf)))
      · exact .inr (.inr (hw.undecided ha (.inr hh)))
      · cases hd : (w.plane.handle h).outlook with
        | pending => exact absurd hd houtlook
        | dropped => exact .inr (.inl rfl)
        | decided d =>
          cases d with
          | rollback => exact .inr (.inl rfl)
          | keep =>
            rw [Prepared.outlook] at hd
            split at hd
            · rename_i e he
              cases hd
              exact .inl he
            · split at hd <;> cases hd
    · right; left
      rw [Prepared.outlook, hrefused haccepted]
      rfl

theorem Inv.late (hw : w.Inv) (hlt : f < w.plane.forwards.length)
    (hleft : ∀ x ∈ w.executions, ∀ d, x.awaits? ≠ some (f, d)) (hleads : w.Leads w')
    (hnew : .prepared h r ∉ (w.plane.forward f).reports)
    (hr : .prepared h r ∈ (w'.plane.forward f).reports) :
    (w'.plane.handle h).decision = some .rollback := by
  obtain ⟨hw', hpersists⟩ := hw.leads hleads
  have htidy := hw.accounts.sound.tidy
  refine hw'.accounts.sound.tidy.refused hr fun haccepted => ?_
  rcases hpersists.accepted ⟨r, haccepted⟩ hlt with ⟨r', hr'⟩ | hlistens
  · -- the step had its outcome already, and keeps it
    cases (hpersists.outcome hr').symm.trans haccepted
    exact hnew (List.mem_of_mem_head? (htidy.first hr'))
  · obtain ⟨s, hs, hf⟩ := hw.accounts.sound.listens hlistens
    obtain ⟨x, hx, rfl⟩ := List.mem_map.mp hs
    obtain ⟨⟨g, d⟩, hd, rfl⟩ := Option.map_eq_some_iff.mp hf
    exact hleft x hx d hd

theorem Inv.returned (hw : w.Inv) {x : Execution} (hx : x ∈ w.executions) {answer : Answer}
    (hphase : x.phase = .ended answer) :
    ∃ turns, Story turns w.plane x ∧ turns.Sublist w.past ∧
      ∀ k ∈ turns, ∀ f h, k.Concludes f h → ∃ d, (w.plane.handle h).decision = some d := by
  obtain ⟨turns, hstory, hsub⟩ := hw.accounts.storied x hx
  refine ⟨turns, hstory, hsub, fun k hk f h hc => ?_⟩
  obtain ⟨m, hm, d, htells⟩ := hstory.answered hphase hk hc
  exact ⟨d, hw.accounts.recorded.decided m (hsub.subset hm) htells⟩

/-! ## Two phases -/

/-- A machine with one controller, all of which is proxied to a participant that prepares twice, and
with an operation that is to be kept and can be cancelled.  A bounded wait looks at the cancellation
before anything else. -/
def crossing : Machine where
  plane := {
    glance := .cancellation
    controllers := [{
      name := "main"
      registration := { Registration.root "" with
        proxy := some { node := Address.root, delegate := .unruly "odd" .preparesTwice } }
      tree := { root := {} } }]
    processes := [.running]
    cancellations := [false] }
  ready := [.operation
    [Execution.new 0 (.object [(Key.operation, .string "go")]) (.decide .keep)
      { cancellation := some 0 } .discard] (.ticket 0)]

/-- The machine after `n` steps, when its operation is cancelled. -/
def crossed (n : Nat) : Machine :=
  { Machine.run (fun _ => true) none n crossing with
    plane := (Machine.run (fun _ => true) none n crossing).plane.cancel 0 }

/-- **Two phases.**  In every world that is reached, whatever the participants do and whenever they
do it, each of them is decided once at most, kept only with the whole of its operation, and rolled
back otherwise. -/
theorem Reachable.two_phase (h : w.Reachable) : w.TwoPhase where
  decided _ _ _ hr := h.inv.decided hr
  late _ hlt hleft _ hleads _ _ hnew hr := h.inv.late hlt hleft hleads hnew hr
  returned _ hx _ hphase := h.inv.returned hx hphase

/-- A participant that prepares twice is kept with its first handle and rolled back with the second;
but when the operation is cancelled before it has read the first one, that is dropped, and so rolled
back as well. -/
theorem two_phase_crossing :
    (∃ w : World, w.Reachable ∧ (w.plane.handle 0).decision = some .keep ∧
      (w.plane.handle 1).decision = some .rollback ∧ w.TwoPhase) ∧
    ∃ w : World, w.Reachable ∧ (w.plane.forward 0).outcome.bind Outcome.handle? = some 0 ∧
      (w.plane.handle 0).outlook = .dropped ∧ (w.plane.handle 1).decision = some .rollback ∧
        w.TwoPhase := by
  have hfresh : World.Fresh ⟨crossing.plane, [], []⟩ := by
    refine ⟨rfl, rfl, fun k => ?_, rfl, rfl⟩
    cases k <;> rfl
  have hreachable : ∀ n, ∃ past,
      (ofMachine (Machine.run (fun _ => true) none n crossing) past).Reachable := fun n => by
    obtain ⟨past, hleads⟩ := leads_run (fun _ => true) none n crossing []
    exact ⟨past, _, hfresh, (Relation.ReflTransGen.single
      (.begins _ ⟨_, _, _, _, _, rfl⟩)).trans hleads⟩
  constructor
  · have hdecisions : ((Machine.run (fun _ => true) none 30 crossing).plane.handle 0).decision =
          some .keep ∧
        ((Machine.run (fun _ => true) none 30 crossing).plane.handle 1).decision =
          some .rollback := by decide
    obtain ⟨past, hrun⟩ := hreachable 30
    exact ⟨_, hrun, hdecisions.1, hdecisions.2, Reachable.two_phase hrun⟩
  · have hdropped : ((Machine.run (fun _ => true) none 30 (crossed 3)).plane.forward
          0).outcome.bind Outcome.handle? = some 0 ∧
        ((Machine.run (fun _ => true) none 30 (crossed 3)).plane.handle 0).outlook = .dropped ∧
        ((Machine.run (fun _ => true) none 30 (crossed 3)).plane.handle 1).decision =
          some .rollback := by decide
    obtain ⟨past, w₀, hw₀, hbefore⟩ := hreachable 3
    have hcancels : Step (ofMachine (Machine.run (fun _ => true) none 3 crossing) past)
        (ofMachine (crossed 3) past) := .outside (.eases (eases_of_same rfl rfl rfl rfl rfl))
    obtain ⟨past', hafter⟩ := leads_run (fun _ => true) none 30 (crossed 3) past
    have hrun : (ofMachine (Machine.run (fun _ => true) none 30 (crossed 3)) past').Reachable :=
      ⟨w₀, hw₀, (hbefore.tail hcancels).trans hafter⟩
    exact ⟨_, hrun, hdropped.1, hdropped.2.1, hdropped.2.2, Reachable.two_phase hrun⟩

end World

end ManagementPlane
