import ManagementPlane.Proofs.Proxied.Overruled

/-!
# Proofs/Proxied/Cancellation — to cancel an operation

A cancellation that is made before the operation has prepared wins: the operation never prepares,
and nothing comes of what it has done (`World.Overruled`).  One that is made later changes nothing,
if the completions that are left do not ask for it.  Both hold wherever in the course of the
operation it is made (`Entrusted.cancellation_wins_or_late`).
-/

namespace ManagementPlane

open Plane Execution

/-- Whether the operations of the task have neither the cancellation `c` nor a link. -/
def Task.withholds (c : Nat) : Task → Bool
  | .operation _ (.link _) => false
  | t => t.stack.all fun x => (x.seat c).isNone

theorem Task.withholds_of_eq_true {c : Nat} {t : Task} (h : t.withholds c = true) :
    t.Withholds c := by
  have hseats : (t.stack.all fun x => (x.seat c).isNone) = true →
      ∀ x ∈ t.stack, x.seat c = none :=
    fun hall x hx => Option.isNone_iff_eq_none.mp (List.all_eq_true.mp hall x hx)
  cases t with
  | operation stack origin =>
    cases origin with
    | link l => cases h
    | _ => exact ⟨hseats h, by rintro _ _ ⟨⟩⟩
  | _ => exact ⟨hseats h, by rintro _ _ ⟨⟩⟩

namespace World

variable {c : Nat} {w w' w₁ : World}

/-! ## Tasks that take turns -/

/-- The tasks take turns as long as nobody is given the cancellation `c` but by an operation that
has it. -/
def proceed (c : Nat) (w : World) : World :=
  match w.tasks with
  | [] => w
  | t :: _ =>
    if t.stack.isEmpty && !(t.advance w.plane).spawned.all (·.withholds c) then w else w.turn

theorem aloof_proceed (c : Nat) (w : World) : w.AloofLeads c (w.proceed c) := by
  rw [proceed]
  split
  · exact .refl
  · next t tasks htasks =>
    split
    · exact .refl
    · next hcalm =>
      obtain ⟨p, _, past⟩ := w
      obtain rfl : _ = t :: tasks := htasks
      have hruns : AloofStep c ⟨p, t :: tasks, past⟩ _ := .runs p t tasks past fun hstack s hs => by
        rw [hstack, List.isEmpty_nil, Bool.true_and, Bool.not_eq_true, Bool.not_eq_false'] at hcalm
        exact Task.withholds_of_eq_true (List.all_eq_true.mp hcalm s hs)
      refine (Relation.ReflTransGen.single hruns).tail (.orders ?_)
      rw [← List.append_assoc]
      exact List.perm_append_comm

theorem aloof_proceeds (c n : Nat) (w : World) : w.AloofLeads c ((proceed c)^[n] w) := by
  induction n generalizing w with
  | zero => exact .refl
  | succ n ih => exact (aloof_proceed c w).trans (ih (w.proceed c))

/-- Two controllers, an actor that runs the second one, and a proxy for all of the first.  A bounded
wait looks at the cancellation before anything else. -/
def divided (delegate : Delegate) : Plane where
  glance := .cancellation
  controllers := [
    { name := "main"
      registration := { Registration.root "" with
        proxy := some { node := Address.root, delegate } }
      tree := { root := {} } },
    { name := "part"
      registration := { Registration.root "" with operations := [
        ("go", {
          definition := { name := "go" }
          handler := .script [.complete "done" [], .set none "size" (.integer 1)] }),
        ("ask", {
          definition := { name := "ask" }
          handler := .script [.complete "done" [.resultCancelled]] })] }
      tree := { root := {} } }]
  processes := [.running, .running]
  actors := [{ controller := 1, capacity := 1 }]
  tickets := [{}]
  cancellations := [false]

/-- An operation on controller `d` that is to be kept, with its cancellation, beside the actor. -/
def commissioned (delegate : Delegate) (d : Nat) (name : String) : World where
  plane := divided delegate
  tasks := [
    .operation [Execution.new d (.object [(Key.operation, .string name)]) (.decide .keep)
      { cancellation := some 0 } .discard] (.ticket 0),
    .serve 0]

/-- What comes about of that after `n` turns. -/
def underway (delegate : Delegate) (d : Nat) (name : String) (n : Nat) : World :=
  (proceed 0)^[n] (commissioned delegate d name)

theorem entrusted_underway (delegate : Delegate) (d : Nat) (name : String) (n : Nat) :
    (underway delegate d name n).Entrusted 0 := by
  have hfresh : World.Fresh ⟨divided delegate, [], []⟩ := by
    refine ⟨rfl, rfl, fun k => ?_, rfl, rfl⟩
    cases k with
    | ticket t => cases t <;> rfl
    | actor a => cases a <;> rfl
    | _ => rfl
  have hfree : ∀ c, ((divided delegate).tree c).lock = {} := by
    rintro (_ | _ | c) <;> rfl
  have hserves : AloofStep 0 ⟨divided delegate, [], []⟩ ⟨divided delegate, [.serve 0], []⟩ :=
    .begins _ (t := .serve 0) trivial (Task.withholds_of_eq_true rfl)
  have hhands : Hands 0 ⟨divided delegate, [.serve 0], []⟩ (commissioned delegate d name) := by
    refine .begins ⟨_, _, _, _, _, rfl⟩ (by rintro l ⟨⟩) rfl ?_
    rintro z (⟨⟨⟩⟩ | ⟨m, ⟨⟩, -⟩)
  exact ⟨_, hfresh, hfree, (Relation.ReflTransGen.single (.inl hserves)).trans
    ((Relation.ReflTransGen.single (.inr hhands)).trans
      (aloof_proceeds 0 n (commissioned delegate d name)).sole)⟩

/-- The participant runs in the same process. -/
abbrev shared (n : Nat) : World := underway (.controller 1) 0 "go" n

/-- The participant runs behind the actor. -/
abbrev delegated (n : Nat) : World := underway (.actor 0) 0 "go" n

/-- There is no participant, and the completion asks for the cancellation. -/
abbrev curious (n : Nat) : World := underway (.controller 1) 1 "ask" n

/-- What the response says that the caller has got, of an operation that answers yes or no. -/
def saysYes? (w : World) : Option Bool :=
  match (w.plane.ticket 0).final with
  | some (.answered (.ok (response, _))) => (Response.result response).asBoolean?
  | _ => none

/-! ## To cancel -/

theorem isCancelled_cancel {p : Plane} (hc : c < p.cancellations.length) :
    (p.cancel c).isCancelled (some c) = true := by
  rw [Plane.isCancelled, Plane.cancel]
  simp [hc]

/-- **A cancellation wins or comes too late.**  Whenever an operation is cancelled that has not
prepared, it never does, and all is undone that it and its participants have done; what a
participant behind an actor has sent and nobody has read when its step is abandoned is left out.
Once the operation has prepared, and no completion of those that share the cancellation asks for it,
all that can happen with the cancellation can happen without it, and the other way round, and but
for the cancellation itself it comes to the same: the decision, the published models, the responses
and the logs. -/
theorem Entrusted.cancellation_wins_or_late (h : w.Entrusted c)
    (hc : c < w.plane.cancellations.length) :
    (¬ w.Prepared c → ∀ w', (w.cancel c).SoleLeads c w' → w'.Overruled c) ∧
    (w.Prepared c → w.Discreet c →
      (∀ w₁, w.SoleLeads c w₁ → ∃ w₁', (w.cancel c).SoleLeads c w₁' ∧ w₁.Alike c w₁') ∧
      ∀ w₁', (w.cancel c).SoleLeads c w₁' → ∃ w₁, w.SoleLeads c w₁ ∧ w₁.Alike c w₁') := by
  refine ⟨fun hnot w' hleads => ?_,
    fun hprepared hdiscreet => ⟨fun w₁ hleads => ?_, fun w₁' hleads => ?_⟩⟩
  · have hcancelled : (w.cancel c).plane.isCancelled (some c) = true := isCancelled_cancel hc
    have hbefore : ¬ (w.cancel c).Prepared c := hnot
    exact (h.cancel.leads hleads).kindred.overruled
      (h.cancel.unprepared hcancelled hbefore hleads)
  · obtain ⟨w₁', hleads', halike⟩ := AloofLeads.alike (hprepared.aloof hleads).1
      (alike_cancel w c) fun _ => h.heedless hprepared hdiscreet
    exact ⟨w₁', hleads'.sole, halike⟩
  · have hstill : (w.cancel c).Prepared c := hprepared
    obtain ⟨w₁, hleads', halike⟩ := AloofLeads.alike_symm (hstill.aloof hleads).1
      (alike_cancel w c) fun _ => h.heedless hprepared hdiscreet
    exact ⟨w₁, hleads'.sole, halike⟩

/-- A participant that has offered its handle when the operation is cancelled is rolled back, be it
that the offer is never read or that the step has completed with it; and once the operation has
prepared, it is kept with it, whether or not the operation is cancelled. -/
theorem cancellation_wins_or_late_shared :
    (∃ w w' : World, w.Entrusted 0 ∧ (w.plane.link 0).offer.map Prod.fst = some 0 ∧
      (w.cancel 0).SoleLeads 0 w' ∧ w'.Overruled 0 ∧
      (w'.plane.handle 0).outlook.effect? = some .rollback) ∧
    (∃ w w' : World, w.Entrusted 0 ∧ (w.cancel 0).SoleLeads 0 w' ∧ w'.Overruled 0 ∧
      (told (seated 0 none w'.past)).map Prod.snd = [.rollback] ∧
      (w'.plane.handle 0).decision = some .rollback) ∧
    ∃ w w₁ w₁' : World, w.Entrusted 0 ∧ w.Prepared 0 ∧ w.Discreet 0 ∧ w.SoleLeads 0 w₁ ∧
      (w₁.plane.handle 0).decision = some .keep ∧ (w.cancel 0).SoleLeads 0 w₁' ∧
        w₁.Alike 0 w₁' := by
  have hentrusted := entrusted_underway (.controller 1) 0 "go"
  have hturns := fun n w => (aloof_proceeds 0 n w).sole
  refine ⟨?_, ?_, ?_⟩
  · have hrun : (((shared 37).plane.link 0).offer.map Prod.fst = some 0 ∧
          ∀ m ∈ (shared 37).past, m.Prepares → m.execution.seat 0 ≠ some none) ∧
        (((proceed 0)^[3] ((shared 37).cancel 0)).plane.handle 0).outlook.effect? =
          some .rollback := by
      decide +kernel
    obtain ⟨⟨hoffer, hnever⟩, heffect⟩ := hrun
    have hnot : ¬ (shared 37).Prepared 0 := fun ⟨m, hm, hprepares, hplace⟩ =>
      hnever m hm hprepares hplace
    have hoverruled := ((hentrusted 37).cancellation_wins_or_late (by decide +kernel)).1 hnot _
      (hturns 3 _)
    exact ⟨_, _, hentrusted 37, hoffer, hturns 3 _, hoverruled, heffect⟩
  · have hrun : (∀ m ∈ (shared 50).past, m.Prepares → m.execution.seat 0 ≠ some none) ∧
        (told (seated 0 none ((proceed 0)^[30] ((shared 50).cancel 0)).past)).map Prod.snd =
          [.rollback] ∧
        (((proceed 0)^[30] ((shared 50).cancel 0)).plane.handle 0).decision = some .rollback := by
      decide +kernel
    obtain ⟨hnever, htold, hdecision⟩ := hrun
    have hnot : ¬ (shared 50).Prepared 0 := fun ⟨m, hm, hprepares, hplace⟩ =>
      hnever m hm hprepares hplace
    have hoverruled := ((hentrusted 50).cancellation_wins_or_late (by decide +kernel)).1 hnot _
      (hturns 30 _)
    exact ⟨_, _, hentrusted 50, hturns 30 _, hoverruled, htold, hdecision⟩
  · have hrun : ((∃ m ∈ (shared 60).past, m.Prepares ∧ m.execution.seat 0 = some none) ∧
        (shared 60).Discreet 0) ∧
        (((proceed 0)^[10] (shared 60)).plane.handle 0).decision = some .keep := by decide +kernel
    obtain ⟨⟨hprepared, hdiscreet⟩, hdecision⟩ := hrun
    obtain ⟨w₁', hleads', halike⟩ :=
      (((hentrusted 60).cancellation_wins_or_late (by decide +kernel)).2 hprepared hdiscreet).1 _
        (hturns 10 _)
    exact ⟨_, _, w₁', hentrusted 60, hprepared, hdiscreet, hturns 10 _, hdecision, hleads', halike⟩

/-- **A cancellation need not win, nor be too late.**  A participant behind an actor that has
prepared when the operation is cancelled, with nobody having read that, is still prepared when the
operation is over, and nobody is left who will decide; and a completion that asks for the
cancellation tells the caller of one that was made after the operation had prepared. -/
theorem cancellation_missed_or_seen :
    (∃ w w' : World, w.Entrusted 0 ∧ ¬ w.Prepared 0 ∧ (w.cancel 0).SoleLeads 0 w' ∧
      (∃ m ∈ w'.past, m.execution.seat 0 = some none ∧ m.sent? = some (0, 0, 0)) ∧
      (∀ x ∈ w'.executions, x.seat 0 ≠ some none) ∧
      ∃ k ∈ w.past, k.Prepares ∧ k.execution.control = .exchange 0 0 ∧
        (w'.plane.handle k.handle).outlook = .pending) ∧
    ∃ w : World, w.Entrusted 0 ∧ w.Prepared 0 ∧
      ((proceed 0)^[20] w).saysYes? = some false ∧
      ((proceed 0)^[20] (w.cancel 0)).saysYes? = some true := by
  constructor
  · have hrun : (∀ m ∈ (delegated 38).past, m.Prepares → m.execution.seat 0 ≠ some none) ∧
        (∃ m ∈ ((proceed 0)^[20] ((delegated 38).cancel 0)).past,
          m.execution.seat 0 = some none ∧ m.sent? = some (0, 0, 0)) ∧
        (∀ x ∈ ((proceed 0)^[20] ((delegated 38).cancel 0)).executions, x.seat 0 ≠ some none) ∧
        ∃ k ∈ (delegated 38).past, k.Prepares ∧ k.execution.control = .exchange 0 0 ∧
          (((proceed 0)^[20] ((delegated 38).cancel 0)).plane.handle k.handle).outlook =
            .pending := by
      decide +kernel
    obtain ⟨hnever, hpending⟩ := hrun
    have hnot : ¬ (delegated 38).Prepared 0 := fun ⟨m, hm, hprepares, hplace⟩ =>
      hnever m hm hprepares hplace
    exact ⟨_, _, entrusted_underway (.actor 0) 0 "go" 38, hnot,
      (aloof_proceeds 0 20 _).sole, hpending⟩
  · have hrun : (∃ m ∈ (curious 20).past, m.Prepares ∧ m.execution.seat 0 = some none) ∧
        ((proceed 0)^[20] (curious 20)).saysYes? = some false ∧
        ((proceed 0)^[20] ((curious 20).cancel 0)).saysYes? = some true := by
      decide +kernel
    exact ⟨_, entrusted_underway (.controller 1) 1 "ask" 20, hrun⟩

end World

end ManagementPlane
