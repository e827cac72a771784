import ManagementPlane.Proofs.Proxied.Chain

/-!
# Proofs/Proxied/Preparing — operations that prepare, each after the next one

An operation that has done its steps goes through the remaining stages by itself and hands a handle
to whoever asked for it (`Complete.prepares`).  If that is an operation that waits in a chain, it
takes the handle and has done its only step (`Awaits.completes`).  So one operation after another
prepares, up to the one whose caller decides, and the caller gets a success (`Chain.succeeds`).
-/

namespace ManagementPlane

open Execution (Pass Passes)

/-- The operation has done all its steps, and nothing has gone wrong. -/
structure Execution.Complete (x : Execution) : Prop where
  phase : x.phase = .stepping
  unharmed : x.context.Unharmed
  queues : x.context.queues = {}
  root : (x.context.slot Context.rootSlot).failure = none
  uncancelled : x.context.input.cancellation = none

namespace Execution

variable {R : Reserve} {p q : Plane} {x y : Execution} {f : Nat} {way : Delivery} {o : Origin}
  {control : Control} {response : Value}

/-- The remaining stages have nothing to do. -/
theorem Complete.passes (h : x.Complete) (p : Plane) : ∃ q y, Passes (p, x) (q, y) ∧ y.Complete ∧
    y.context.stage.next? = none ∧ y.control = x.control ∧ (∀ R : Reserve, R.Kept p q) ∧
    q.actors = p.actors := by
  obtain ⟨n, hn⟩ : ∃ n, n = 3 - x.context.stage.index := ⟨_, rfl⟩
  induction n generalizing p x with
  | zero =>
    have hlast : x.context.stage.next? = none := by
      revert hn
      cases x.context.stage <;> decide
    exact ⟨p, x, .refl, h, hlast, rfl, fun R => .refl R p, rfl⟩
  | succ n ih =>
    obtain ⟨stage, hnext, hindex⟩ : ∃ stage, x.context.stage.next? = some stage ∧
        n = 3 - stage.index := by
      revert hn
      cases x.context.stage <;> simp [Stage.index, Stage.next?]
    have hempty : x.context.queues.get x.context.stage = [] := by
      rw [h.queues]
      cases x.context.stage <;> rfl
    have hpass := pass_stage (p := p) h.phase hempty hnext
    rw [Transaction.releaseLock, h.unharmed.unstaged] at hpass
    obtain ⟨q, y, hpasses, hy, hlast, hcontrol, hkept, hactors⟩ := ih (x := { x with
        context := { x.context with stage, transaction := x.context.transaction } })
      ⟨h.phase, { h.unharmed with }, h.queues, h.root, h.uncancelled⟩
      (p.setTree x.controller (p.tree x.controller)) hindex
    exact ⟨q, y, .head hpass hpasses, hy, hlast, hcontrol,
      fun R => (Reserve.kept_setTree R _ _ _).trans (hkept R), hactors⟩

/-- **An operation that has done its steps** prepares by itself. -/
theorem Complete.prepares (h : x.Complete) (p : Plane) : ∃ (q : Plane) (handle : Nat)
    (tentative : Value) (y : Execution),
    Passes (p, x) (q.announcePrepared x.control handle tentative, y) ∧ y.Winding ∧
      (∃ due, y.phase = .deciding handle due) ∧ (y.context.slot Context.rootSlot).failure = none ∧
      (∀ R : Reserve, R.Kept p q) ∧ q.actors = p.actors ∧ handle < q.handles.length ∧
      q.handle handle = {} := by
  obtain ⟨q, y, hpasses, hy, hlast, hcontrol, hkept, hactors⟩ := h.passes p
  have hnone : y.context.nextStep? = none := by
    rw [Context.nextStep?, hy.queues]
    cases y.context.stage <;> rfl
  have hadvance : y.advance q = prepare q y := by
    rw [advance, hy.phase]
    dsimp only
    rw [pick, hnone, hlast, hy.uncancelled]
    rfl
  have hpass := Pass.going (by rw [hy.phase]; rintro _ ⟨⟩) hadvance
  rw [← hcontrol]
  refine ⟨(q.newHandle {}).2, q.handles.length, _, _, .tail hpasses hpass, ?_, ⟨_, rfl⟩, hy.root,
    fun R => (hkept R).trans (Reserve.kept_newHandle R q), hactors, ?_, ?_⟩
  · exact ⟨.inl ⟨_, _, rfl⟩, hy.unharmed.unstaged, hy.unharmed.decisions⟩
  · simp [Plane.newHandle]
  · rw [Plane.handle_newHandle, if_pos rfl]

end Execution

/-! ## Handles on their way -/

section

variable {R : Reserve} {p q : Plane} {x y : Execution} {f : Nat} {way : Delivery} {o : Origin}
  {control : Control} {response tentative : Value} {W : List Task} {t : Task}

/-- Whoever joins the company only has to be attended. -/
theorem Company.joined (hW : Company R p W)
    (hmute : ∀ e, (p.exchange e).Mute → (q.exchange e).Mute) (ht : t.Winding R q)
    (hserve : ∀ a, t ≠ .serve a) (hattended : ∀ a k, (p.actor a).Attended k →
      (q.actor a).Attended ([t].countP (Task.follows a) + k)) : Company R q (t :: W) where
  winding := List.forall_mem_cons.mpr ⟨ht, fun s hs => (hW.winding s hs).around hmute⟩
  attended a ha := by
    rw [← List.singleton_append, List.countP_append]
    exact hattended a _ (hW.attended a ((List.mem_cons.mp ha).resolve_left (hserve a).symm))

/-- **A handle that is announced** is offered to whoever waits for it. -/
theorem Delivery.Silent.announce (h : way.Silent p) (hway : way.Joins o control) (handle : Nat)
    (tentative : Value) : way.Offers (p.announcePrepared control handle tentative) tentative ∧
      (∀ R : Reserve, ¬R.told o → ¬R.read o →
        R.Kept p (p.announcePrepared control handle tentative)) ∧
      ∀ a k, (p.actor a).Attended k →
        ((p.announcePrepared control handle tentative).actor a).Attended k := by
  cases hway with
  | linked l =>
    have hannounce : p.announcePrepared (.relay l) handle tentative =
        p.modifyLink l fun _ => { offer := some (handle, tentative) } := by
      rw [Plane.announcePrepared]
      dsimp only
      rw [h.2]
      rfl
    rw [hannounce]
    refine ⟨⟨handle, ?_⟩, fun R htold hread => Reserve.kept_modifyLink htold hread p _,
      fun _ _ => id⟩
    rw [Plane.link_modifyLink, if_pos ⟨rfl, h.1⟩]
  | following a e =>
    obtain ⟨hlength, hopen, hevents, hfollowed, -⟩ := h
    obtain ⟨news, hannounce⟩ : ∃ news, p.announcePrepared (.exchange e a) handle tentative =
        (p.modifyActor a fun k =>
          { k with enrollments := k.enrollments ++ [news] }).modifyExchange e
          (·.send (.prepared tentative)) := by
      rw [Plane.announcePrepared]
      dsimp only
      rw [if_pos hopen]
      refine ⟨.prepared (p.exchange e).number handle, ?_⟩
      exact if_pos hfollowed
    rw [hannounce]
    have hsent : ((p.exchange e).send (.prepared tentative)).events = [.prepared tentative] := by
      rw [Exchange.send, if_pos hfollowed, hevents]
      rfl
    have hmute : ((p.exchange e).send (.prepared tentative)).Mute := by
      intro m hm
      rw [hsent] at hm
      cases List.mem_singleton.mp hm
    refine ⟨?_, fun R htold hread => ?_, fun b k hb => ?_⟩
    · rw [Offers, Plane.exchange_modifyExchange, if_pos ⟨rfl, hlength⟩]
      exact ⟨hmute, hsent ▸ List.prefix_rfl⟩
    · exact (Reserve.kept_modifyActor R p a id).trans
        (Reserve.kept_modifyExchange htold hread _ fun _ => hmute)
    · refine (Plane.actor_modifyActor p a b _).symm ▸ ?_
      split
      · exact ⟨hb.isOpen, hb.clients, hb.requests, hb.backlog⟩
      · exact hb

namespace Execution

/-- The handle of a participant reaches whoever waits for it. -/
theorem Awaits.advance_offers (h : x.Awaits p f way) (hway : way.Joins o control)
    (hoffers : way.Offers p response) (hf : ¬R.heard f) (htold : ¬R.told o) (hread : ¬R.read o)
    {step : Step} {due : Nat} (hphase : x.phase = .handling step (.forwarding f due way))
    (hdue : p.now < due) :
    ∃ (q : Plane) (handle : Nat) (t : Task),
      x.advance p = { plane := q, spawned := [t], next := .going (x.delivered step f due) } ∧
      (q.forward f).outcome = some (.prepared handle response) ∧ R.Kept p q ∧ t.Winding R q ∧
      (∀ a, t ≠ .serve a) ∧ ∀ a k, (p.actor a).Attended k →
        (q.actor a).Attended ([t].countP (Task.follows a) + k) := by
  have hadvance : x.advance p = Forwarding.follow p x step f due way := by
    rw [advance, hphase]
    exact Forwarding.advance_eq_follow (unhurried_of_poised h.poised hdue _)
  rw [hadvance, Forwarding.follow.eq_def]
  cases hway with
  | linked l =>
    obtain ⟨handle, hoffer⟩ := hoffers
    dsimp only
    rw [hoffer]
    have htaken : R.Kept p (p.modifyLink l Link.take) := Reserve.kept_modifyLink htold hread p _
    have hlistens : ((p.modifyLink l Link.take).forward f).Listens := h.listens
    refine ⟨_, handle, _, rfl, outcome_reportOutcome hlistens h.known _,
      htaken.trans (kept_reportOutcome hlistens hf _), .relay l f, by rintro _ ⟨⟩, fun a k ha => ?_⟩
    rw [List.countP_singleton, if_neg (by rintro ⟨⟩), Nat.zero_add,
      Plane.reportOutcome_of_listens hlistens]
    exact ha
  | following a e =>
    obtain ⟨hmute, rest, hrest⟩ := hoffers
    have hnext : (p.exchange e).next = (.event (.prepared response),
        { p.exchange e with events := rest }) := by
      rw [Exchange.next, ← hrest]
      rfl
    obtain ⟨q, hq⟩ : ∃ q, q = (p.modifyExchange e fun _ =>
        { p.exchange e with events := rest }).newHandle {} := ⟨_, rfl⟩
    have hread' : R.Kept p q.2 := by
      rw [hq]
      refine (Reserve.kept_modifyExchange htold hread p fun _ m hm => ?_).trans
        (Reserve.kept_newHandle R _)
      exact hmute m (hrest ▸ List.mem_cons_of_mem _ hm)
    have hlistens : (q.2.forward f).Listens := by
      rw [hq]
      exact h.listens
    dsimp only
    rw [hnext]
    dsimp only
    rw [← hq]
    have hknown : f < q.2.forwards.length := by
      rw [hq]
      exact h.known
    have hkept := hread'.trans (kept_reportOutcome hlistens hf (.prepared q.1 response))
    refine ⟨_, q.1, _, rfl, outcome_reportOutcome hlistens hknown _,
      hkept.trans (Reserve.kept_modifyActor R _ a id), .follow htold hread ?_, by rintro _ ⟨⟩,
      fun b k hb => ?_⟩
    · exact hkept.mute e hmute
    · rw [Plane.reportOutcome_of_listens hlistens, hq, List.countP_singleton, Task.follows]
      refine (Plane.actor_modifyActor _ a b _).symm ▸ ?_
      have hlength := Plane.lt_of_isOpen hb.isOpen
      by_cases hab : a = b
      · rw [if_pos (decide_eq_true hab), if_pos ⟨hab, hlength⟩, Nat.add_comm]
        exact ⟨hb.isOpen, Nat.succ_lt_succ hb.clients, hb.requests, hb.backlog⟩
      · rw [if_neg (by simpa using hab), if_neg fun h => hab h.1, Nat.zero_add]
        exact hb

/-- **An operation whose participant has prepared** has done its only step. -/
theorem Awaits.completes (h : x.Awaits p f way) (step : Step) {due : Nat} (hdue : q.now < due)
    {handle : Nat} (houtcome : (q.forward f).outcome = some (.prepared handle response)) :
    ∃ y, Passes (q, x.delivered step f due) (q, y) ∧ y.Complete ∧ y.control = x.control := by
  obtain ⟨a, hactive⟩ := h.poised.active
  have hadvance : (x.delivered step f due).advance q =
      { plane := q
        next := .returned { x.delivered step f due with
          context := Forwarding.accept x.context f handle response } step (.ok ()) } := by
    have hfollow : (x.delivered step f due).advance q =
        Forwarding.follow q (x.delivered step f due) step f due .delivered :=
      Forwarding.advance_eq_follow (unhurried_of_poised h.poised hdue _)
    rw [hfollow, Forwarding.follow, houtcome]
    rfl
  have hpass := Pass.returned (by rintro _ ⟨⟩) hadvance
  rw [Forwarding.accept_eq f handle response hactive rfl,
    afterStep_ok _ (by exact h.poised.violation) (by exact h.poised.rollbackOnly)] at hpass
  refine ⟨_, .single hpass, ⟨rfl, ?_, h.poised.queues, ?_, h.poised.uncancelled⟩, rfl⟩
  · exact { h.poised.toUnharmed with
      decisions := List.forall_mem_cons.mpr ⟨⟨handle, rfl⟩, h.poised.decisions⟩ }
  · show ((x.context.slots.modify x.context.currentSlot _)[0]?.getD ({} : ResponseSlot)).failure
      = none
    rw [Context.currentSlot, hactive, h.poised.slots]
    rfl

end Execution

/-- **If the last operation of a chain has done its steps**, the caller gets a success. -/
theorem Plane.Chain.succeeds {m : Machine} {n : Nat} {levels : List Level}
    (h : p.Chain n o x.control levels)
    (hm : m.Turns p (.operation [x] o) (levels.map Level.task ++ W))
    (hW : Company (Reserve.for levels) p W) (hx : x.Complete) :
    m.Delivers n Execution.Succeeds := by
  induction levels generalizing m p o x W with
  | nil =>
    obtain ⟨q, handle, tentative, y, hpasses, hy, ⟨due, hphase⟩, hroot, hkept, hactors, hhandle,
      hfresh⟩ := hx.prepares p
    obtain ⟨m₁, hleads, hm₁⟩ := hm.passes hpasses
    replace h := h.kept (hkept _)
    generalize x.control = control at h hm₁
    cases h with
    | top known hnone =>
      have hdecided := Reserve.kept_decideAndDrop .nothing q handle .keep
      have hkeep : ((q.decideAndDrop handle .keep).handle handle).decision = some .keep := by
        rw [Plane.handle_decideAndDrop, if_pos ⟨rfl, hhandle⟩, hfresh]
        rfl
      have hcompany : Company .nothing (q.decideAndDrop handle .keep)
          (.operation [y] (.ticket n) :: W) := by
        refine (hW.mono (Reserve.covers_nothing _)).joined
          ((hkept .nothing).trans hdecided).mute (.operation hy id)
            (by rintro _ ⟨⟩) fun a k ha => ?_
        rw [List.countP_singleton, if_neg (by rintro ⟨⟩), Nat.zero_add]
        have hsame : (q.decideAndDrop handle .keep).actors = p.actors := hactors
        rwa [Plane.actor, hsame]
      refine .of_leads hleads
        (hcompany.rests hm₁.toHolds ⟨known, fun z hz => ⟨?_, fun _ => id⟩, ?_⟩)
      · rcases List.mem_cons.mp hz with hz | hz
        · obtain ⟨⟨rfl⟩, -⟩ := Task.operation.inj hz
          exact .deciding hphase hkeep hroot
        · cases hW.winding _ hz with
          | operation hz ho => exact absurd (.inl ⟨n, rfl⟩) ho
      · exact .inl ⟨hnone, y, List.mem_cons_self⟩
  | cons level levels ih =>
    obtain ⟨q, handle, tentative, y, hpasses, hy, ⟨due, hphase⟩, hroot, hkept, hactors, hhandle,
      hfresh⟩ := hx.prepares p
    obtain ⟨m₁, hleads, hm₁⟩ := hm.passes hpasses
    replace h := h.kept (hkept _)
    generalize x.control = control at h hm₁
    cases h with
    | @level x₁ o₁ _ _ _ f way h hx₁ hway hsilent hforward htold =>
      obtain ⟨hoffers, hannounced, hattended⟩ := hsilent.announce hway handle tentative
      generalize q.announcePrepared control handle tentative = q₁
        at hoffers hannounced hattended hm₁
      -- what the participant that has prepared leaves to the others
      have hspared := hannounced { Reserve.for levels with
        heard := (Reserve.for (⟨x₁, o₁, f, o⟩ :: levels)).heard } htold fun h => htold (.inr h)
      have hx₂ := hx₁.kept (R := { Reserve.for levels with
        heard := (Reserve.for (⟨x₁, o₁, f, o⟩ :: levels)).heard })
          (Reserve.heard_forward _ _) hspared
      have hchain := h.kept (hannounced _ htold fun h => htold (.inr h))
      have hcompany : Company (Reserve.after ⟨x₁, o₁, f, o⟩ levels) q₁
          (.operation [y] o :: W) := by
        refine (hW.mono (Reserve.covers_after _ _)).joined
          (((hkept .nothing).trans (hannounced .nothing id id)).mute) (.operation hy htold)
          (by rintro _ ⟨⟩) fun a k ha => ?_
        rw [List.countP_singleton, if_neg (by rintro ⟨⟩), Nat.zero_add]
        refine hattended a k ?_
        rwa [Plane.actor, hactors]
      obtain ⟨m₂, r, W', hleads₂, hm₂, hkept₂, hW'⟩ := hcompany.settles
        (hm₁.toHolds.perm List.perm_middle.symm)
        (fun r hr => (hx₂.kept (Reserve.heard_forward _ _) hr).canGo_of_offers
          (hoffers.kept hway (Reserve.read_awaited _ _) hr))
        (fun r hr => (hchain.kept (hr.mono (Reserve.after_covers _ _))).sleeps)
      -- the operation that waits takes the handle
      have hx₃ := hx₂.kept (Reserve.heard_forward _ _) hkept₂
      obtain ⟨step, due', hhandling, -, hdue'⟩ := hx₃.handling
      obtain ⟨q₂, handle', t, hadvance, houtcome, hkept₃, ht, hserve, hattended'⟩ :=
        hx₃.advance_offers hway (hoffers.kept hway (Reserve.read_awaited _ _) hkept₂) hforward htold
          (fun h => htold (.inr h)) hhandling hdue'
      obtain ⟨m₃, hstep, hm₃, -⟩ := hm₂.going (Task.advance_going hx₃.open hadvance)
      obtain ⟨z, hpasses', hz, hcontrol⟩ := hx₃.completes step (hkept₃.now ▸ hdue') houtcome
      obtain ⟨m₄, hleads₄, hm₄⟩ := hm₃.passes hpasses'
      refine .of_leads (((hleads.trans hleads₂).tail hstep).trans hleads₄) ?_
      have hperm : (t :: (levels.map Level.task ++ W')).Perm (levels.map Level.task ++ t :: W') :=
        List.perm_middle.symm
      refine ih (W := t :: W') ?_ (hm₄.perm hperm) ?_ hz
      · rw [hcontrol]
        exact (hchain.kept (hkept₂.mono (Reserve.after_covers _ _))).kept hkept₃
      · exact (hW'.mono (Reserve.after_covers _ _)).joined hkept₃.mute ht hserve hattended'

end

end ManagementPlane
