import ManagementPlane.Proofs.Global.Alone
import ManagementPlane.Proofs.Proxied.Inquiring

/-!
# Proofs/Proxied/Inquired — the course of an inquiry

What one turn keeps of an inquiry holds along its whole course (`Inquiry.stands_course`), from the
first turn on (`Inquiry.stands_begin`) and whatever goes on around the operation, as long as it
registers nothing.
-/

namespace ManagementPlane

/-- How an operation ends that has nothing to commit. -/
def Decision.ending : Decision → Ending
  | keep => .kept
  | rollback => .rolledBack "Operation was rolled back"

/-- **The decision about an operation that has nothing to commit** ends its pipeline. -/
theorem Execution.apply_of_unharmed {x : Execution} (h : x.context.Unharmed) (p : Plane)
    (handle : Nat) (d : Decision) : ∃ q t, apply p x handle d =
      { plane := q
        next := .going { x with
          context := { x.context with transaction := t }, phase := .unwinding d.ending } } := by
  rw [apply.eq_def]
  cases d with
  | keep =>
    dsimp only
    rw [Transaction.commit, h.unstaged]
    exact ⟨_, _, rfl⟩
  | rollback => exact ⟨_, _, rfl⟩

namespace Inquiry

variable {I : Inquiry} {g : GlobalOperation} {operation : Value} {r : Registration}
  {root : Resource} {past : List Moment} {p : Plane} {x y : Execution} {m : Moment} {k : Nat}
  {rs : List (Nat × Value)} {d : Delegation} {e : Ending}

/-! ## The end of the pipeline -/

/-- An operation that has its answer prepares, unless it was cancelled. -/
theorem stands_complete (hlength : rs.length = I.questions.length) (hphase : x.phase = .stepping)
    (hqueues : x.context.queues = {}) (h : x.context.Unharmed)
    (hroot : x.context.slot Context.rootSlot = .answered (I.result (answers rs)))
    (hnoted : I.Noted past rs.length rs) (hy : (x.advance p).next.after? = some y) (q : Plane) :
    I.Stands g operation r root (⟨p, x⟩ :: past) q y := by
  have hnoted' : I.Noted (⟨p, x⟩ :: past) rs.length rs := by
    refine hnoted.cons_of_phase ?_
    rw [hphase]
    rintro _ _ ⟨⟩
  have hnone : x.context.nextStep? = none := by
    rw [Context.nextStep?, hqueues]
    cases x.context.stage <;> rfl
  have hrelease : ∀ tree, (x.context.transaction.releaseLock tree).2 = x.context.transaction := by
    intro tree
    rw [Transaction.releaseLock, h.unstaged]
  rw [Execution.advance, hphase] at hy
  dsimp only at hy
  rw [Execution.pick, hnone] at hy
  dsimp only at hy
  split at hy
  · obtain rfl := Option.some.inj hy
    exact .complete rs hlength (.inl hphase) hqueues
      { h with unstaged := (congrArg _ (hrelease _)).trans h.unstaged } hroot hnoted'
  · split at hy
    · obtain rfl := Option.some.inj hy
      exact .halting .failed (.inl rfl) h.decisions (.stopped hnoted' (.inl rfl))
    · obtain rfl := Option.some.inj hy
      exact .complete rs hlength (.inr ⟨_, _, rfl⟩) hqueues { h with } hroot hnoted'

theorem stands_deciding {handle : Nat} {due : Option Nat}
    (hlength : rs.length = I.questions.length) (hphase : x.phase = .deciding handle due)
    (hqueues : x.context.queues = {}) (h : x.context.Unharmed)
    (hroot : x.context.slot Context.rootSlot = .answered (I.result (answers rs)))
    (hnoted : I.Noted past rs.length rs) (hy : (x.advance p).next.after? = some y) (q : Plane) :
    I.Stands g operation r root (⟨p, x⟩ :: past) q y := by
  have hnoted' : I.Noted (⟨p, x⟩ :: past) rs.length rs := by
    refine hnoted.cons_of_phase ?_
    rw [hphase]
    rintro _ _ ⟨⟩
  have happlied : ∀ {d}, (Execution.apply p x handle d).next.after? = some y →
      I.Stands g operation r root (⟨p, x⟩ :: past) q y := by
    intro d hy
    obtain ⟨q', t, happly⟩ := Execution.apply_of_unharmed h p handle d
    rw [happly] at hy
    obtain rfl := Option.some.inj hy
    refine .closing rs d.ending hlength ?_ (.inl rfl) h.decisions hroot h.streams hnoted'
    cases d with
    | keep => exact .inl rfl
    | rollback => exact .inr ⟨_, rfl⟩
  have hblocked : ∀ {z : Execution}, z = x → some z = some y →
      I.Stands g operation r root (⟨p, x⟩ :: past) q y := by
    rintro z rfl hz
    obtain rfl := Option.some.inj hz
    exact .complete rs hlength (.inr ⟨handle, due, hphase⟩) hqueues h hroot hnoted'
  rw [Execution.advance, hphase] at hy
  dsimp only at hy
  rw [Execution.decide.eq_def] at hy
  split at hy
  · exact happlied hy
  · split at hy
    · split at hy
      · exact happlied hy
      · exact hblocked rfl hy
    · exact hblocked rfl hy

/-- The answer of an operation that is kept. -/
theorem response_kept (hroot : x.context.slot Context.rootSlot = .answered (I.result (answers rs)))
    (hstreams : x.context.streams = []) :
    ((Ending.kept.response? x.context).map fun response =>
      (p.finish x.controller response, x.context.streams)) =
    .ok (p.finish x.controller (Response.success (I.result (answers rs))), []) := by
  rw [Ending.response?, hroot, hstreams]
  rfl

theorem stands_closing (hlength : rs.length = I.questions.length)
    (he : e = .kept ∨ ∃ failure, e = .rolledBack failure) (hclosing : x.Closes e)
    (hdecisions : ∀ c ∈ x.context.completed, ∃ h, c = .decide h)
    (hroot : x.context.slot Context.rootSlot = .answered (I.result (answers rs)))
    (hstreams : x.context.streams = []) (hnoted : I.Noted (⟨p, x⟩ :: past) rs.length rs)
    (hy : (x.advance p).next.after? = some y) (q : Plane) :
    I.Stands g operation r root (⟨p, x⟩ :: past) q y := by
  obtain ⟨hcontroller, hsettles, hnext⟩ := Execution.closing_of_closes hclosing hdecisions hy
  rcases hnext with hnext | hended
  · refine .closing rs e hlength he hnext (fun c hc => hdecisions c (hsettles.completed c hc)) ?_
      (hsettles.streams.trans hstreams) hnoted
    rw [← hroot, Context.slot, Context.slot, hsettles.slots]
  · refine .answered rs _ hlength hended ?_ hnoted
    rcases he with rfl | ⟨failure, rfl⟩
    · refine .inl ⟨p, ?_⟩
      rw [hcontroller]
      exact response_kept hroot hstreams
    · refine .inr ?_
      rintro ⟨response, streams, hanswer, hsuccess⟩
      obtain ⟨rfl, -⟩ := Prod.mk.inj (Except.ok.inj hanswer)
      rw [Response.isSuccess_finish, Response.isSuccess_toValue] at hsuccess
      cases hsuccess

theorem isSuccess_finish_failure (p : Plane) (c : Nat) (s : ResponseSlot) (failure : Value) :
    Response.isSuccess (p.finish c (ResponseSlot.toValue { s with failure := some failure } true)) =
      false := by
  rw [Response.isSuccess_finish, Response.isSuccess_toValue]
  rfl

/-- **The answer of an operation that was halted.** -/
theorem Halted.refused (h : I.Halted past x.context e) :
    I.Refused past ((e.response? x.context).map fun response =>
      (p.finish x.controller response, x.context.streams)) := by
  cases h with
  | @failed rs d response hd hasked hheard hfailure hroot hstreams =>
    refine .failed hd hasked hheard ?_
      (isSuccess_finish_failure p x.controller (.answered I.value) (.string (d.failure response)))
      (Response.failureText?_finish _ _ _ _)
    rw [Ending.response?, hroot, hfailure, hstreams]
    rfl
  | stopped hnoted he =>
    refine .stopped hnoted ?_
    rintro ⟨response, streams, hanswer, hsuccess⟩
    rcases he with rfl | ⟨reason, rfl⟩
    · obtain ⟨rfl, -⟩ := Prod.mk.inj (Except.ok.inj hanswer)
      rw [isSuccess_finish_failure] at hsuccess
      cases hsuccess
    · cases hanswer

theorem stands_halting (hclosing : x.Closes e)
    (hdecisions : ∀ c ∈ x.context.completed, ∃ h, c = .decide h)
    (h : I.Halted (m :: past) x.context e) (hy : (x.advance p).next.after? = some y) (q : Plane) :
    I.Stands g operation r root (m :: past) q y := by
  obtain ⟨-, hsettles, hnext⟩ := Execution.closing_of_closes hclosing hdecisions hy
  rcases hnext with hnext | hended
  · refine .halting e hnext (fun c hc => hdecisions c (hsettles.completed c hc)) ?_
    cases h with
    | failed hd hasked hheard hfailure hroot hstreams =>
      refine .failed hd hasked hheard (hsettles.firstFailure.trans hfailure) ?_
        (hsettles.streams.trans hstreams)
      rw [← hroot, Context.slot, Context.slot, hsettles.slots]
    | stopped hnoted he => exact .stopped hnoted he
  · exact .refused _ hended h.refused

/-! ## The whole course -/

theorem Halted.cons (h : I.Halted past x.context e) (hasks : m.asks = []) (hhears : m.hears = []) :
    I.Halted (m :: past) x.context e := by
  cases h with
  | failed hd hasked hheard hfailure hroot hstreams =>
    exact .failed hd ((asked_cons hasks).trans hasked) ((heard_cons hhears).trans hheard) hfailure
      hroot hstreams
  | stopped hnoted he => exact .stopped (hnoted.cons hasks hhears) he

/-- **Every turn carries an inquiry on**, whatever it finds around the operation. -/
theorem stands_turn (harises : I.Arises g operation r root)
    (h : I.Stands g operation r root past p x) (hopen : ∀ answer, x.phase ≠ .ended answer)
    (hy : (x.advance p).next.after? = some y) :
    I.Stands g operation r root (⟨p, x⟩ :: past) (x.advance p).plane y := by
  have hcloses : ∀ {e}, x.Closes e → ∀ step w, x.phase ≠ .handling step w := by
    rintro e (hphase | ⟨due, hphase⟩) <;> rw [hphase] <;> rintro _ _ ⟨⟩
  cases h with
  | opened hphase hqueues h =>
    have hnoted : I.Noted (⟨p, x⟩ :: past) 0 [] := by
      refine h.noted.cons_of_phase ?_
      rw [hphase]
      rintro _ _ ⟨⟩
    exact stands_of_step hphase h.stage hqueues h.decisions h.noted
      (.reading rfl rfl rfl ⟨{ h.toUnharmed with }, h.registration, h.stage, h.slots, h.snapshot,
        hnoted⟩) hy
  | reading hphase hqueues hactive h => exact stands_reading harises hphase hqueues hactive h hy
  | turning rs hle hphase hqueues h hnoted => exact stands_turning hle hphase hqueues h hnoted hy
  | asking rs d hd hphase hqueues hactive h hnoted =>
    exact stands_asking (harises.sound d (List.mem_of_getElem? hd)) hd hphase hqueues hactive h
      hnoted hy
  | waiting rs d f due way hd hphase hqueues hactive h hnoted =>
    exact stands_waiting hd hphase hqueues hactive h hnoted hy
  | placing rs hlength hphase hqueues hactive h hnoted =>
    exact stands_placing hlength hphase hqueues hactive h hnoted hy
  | complete rs hlength hphase hqueues h hroot hnoted =>
    rcases hphase with hphase | ⟨handle, due, hphase⟩
    · exact stands_complete hlength hphase hqueues h hroot hnoted hy _
    · exact stands_deciding hlength hphase hqueues h hroot hnoted hy _
  | closing rs e hlength he hphase hdecisions hroot hstreams hnoted =>
    exact stands_closing hlength he hphase hdecisions hroot hstreams
      (hnoted.cons_of_phase (hcloses hphase)) hy _
  | answered rs answer _ hphase => exact absurd hphase (hopen answer)
  | halting e hphase hdecisions h =>
    refine stands_halting hphase hdecisions (h.cons ?_ ?_) hy _
    · exact Moment.asks_eq_nil fun step => hcloses hphase step _
    · exact Moment.hears_eq_nil fun step f due way => hcloses hphase step _
  | refused answer hphase => exact absurd hphase (hopen answer)

/-- What goes on around the operation does not matter to it, if it registers nothing. -/
theorem Stands.around (h : I.Stands g operation r root past p x) {q : Plane}
    (hq : ∀ c, q.registration c = p.registration c) :
    I.Stands g operation r root past q x := by
  cases h with
  | opened hphase hqueues h =>
    exact .opened hphase hqueues { h with registration := (hq _).trans h.registration }
  | reading hphase hqueues hactive h =>
    exact .reading hphase hqueues hactive { h with registration := (hq _).trans h.registration }
  | turning rs hle hphase hqueues h hnoted => exact .turning rs hle hphase hqueues h hnoted
  | asking rs d hd hphase hqueues hactive h hnoted =>
    exact .asking rs d hd hphase hqueues hactive h hnoted
  | waiting rs d f due way hd hphase hqueues hactive h hnoted =>
    exact .waiting rs d f due way hd hphase hqueues hactive h hnoted
  | placing rs hlength hphase hqueues hactive h hnoted =>
    exact .placing rs hlength hphase hqueues hactive h hnoted
  | complete rs hlength hphase hqueues h hroot hnoted =>
    exact .complete rs hlength hphase hqueues h hroot hnoted
  | closing rs e hlength he hphase hdecisions hroot hstreams hnoted =>
    exact .closing rs e hlength he hphase hdecisions hroot hstreams hnoted
  | answered rs answer hlength hphase hanswer hnoted =>
    exact .answered rs answer hlength hphase hanswer hnoted
  | halting e hphase hdecisions h => exact .halting e hphase hdecisions h
  | refused answer hphase h => exact .refused answer hphase h

/-- Nothing runs on top of the operation. -/
theorem Stands.resume (h : I.Stands g operation r root past p x) (answer : Answer) :
    x.resume p answer = (p, x) := by
  have hnot : ∀ step frames, x.phase ≠ .handling step (.nesting frames) := by
    intro step frames hnesting
    cases h <;> simp_all [Execution.Closes]
  rw [Execution.resume.eq_def]
  split
  · next step frames hphase => exact absurd hphase (hnot step frames)
  · rfl

theorem stands_course {around : Plane → Plane → Prop} {p₀ : Plane} {x₀ : Execution}
    (harises : I.Arises g operation r root)
    (haround : ∀ p q, around p q → ∀ c, q.registration c = p.registration c)
    (h₀ : I.Stands g operation r root [] p₀ x₀)
    (hcourse : Execution.Course around p₀ x₀ past p x) :
    I.Stands g operation r root past p x := by
  induction hcourse with
  | start => exact h₀
  | around _ hq ih => exact ih.around (haround _ _ hq)
  | turn _ hopen hy ih => exact stands_turn harises ih hopen hy
  | resume _ answer ih =>
    rw [ih.resume answer]
    exact ih

/-- **The operation begins**: it is resolved, and has its first step to take. -/
theorem stands_begin {c : Nat} (control : Control) (input : Input) (sink : Sink)
    (hr : p.registration c = r) (hleads : r.LeadsTo [] operation I.address g.entry)
    (hcheck : g.definition.check operation = .ok ()) (hread : g.definition.readOnly = true) :
    ∃ y, ((Execution.new c operation control input sink).advance p).next = .going y ∧
      I.Stands g operation r (p.tree c).root []
        ((Execution.new c operation control input sink).advance p).plane y := by
  obtain ⟨name, b, node, hparse, hb, hresolve⟩ := hleads
  obtain rfl : I.address = b := hb
  have hsteady : p.Steady (Plane.counting c p) :=
    p.steady_modifyController c ⟨_, _, rfl, rfl, rfl⟩
  have hregistration : (Plane.counting c p).registration c = r :=
    (hsteady.registration c).trans hr
  have hconsulted := Execution.consulted_eq_ok hresolve hcheck
  rw [← hregistration] at hconsulted
  have hbegin := Execution.begin_of_readOnly (p := p)
    (x := Execution.new c operation control input sink) hparse hconsulted hread
  have hadvance : (Execution.new c operation control input sink).advance p =
      Execution.begin p (Execution.new c operation control input sink) := rfl
  rw [hadvance, hbegin]
  refine ⟨_, rfl, .opened rfl rfl ⟨⟨rfl, rfl, rfl, rfl, rfl, by rintro _ ⟨⟩⟩, hregistration, rfl,
    rfl, (hsteady.tree c).1, rfl, rfl⟩⟩

end Inquiry

end ManagementPlane
