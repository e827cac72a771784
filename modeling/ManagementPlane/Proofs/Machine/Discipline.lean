import ManagementPlane.Proofs.Machine.Intent
import ManagementPlane.Proofs.Machine.Stages

/-!
# Proofs/Machine/Discipline — the order of the steps, from the first to the decision

What the turns of one operation come to (`Execution.Disciplined`), whatever its steps do and
whatever goes on around them, as long as no cancellation is taken back.

The steps run as on an agenda (`Proofs/Machine/Stages`), so their order is a matter of how they were
queued; that an agenda exists follows because the queues grow in no other way (`Course.recorded`).
The staged root is followed from the last step of the first stage to the commit: past that stage a
step can neither write nor take the lock (`Context.Clings`, `Execution.Orderly`), so the transaction
only ever loses the lock (`Course.left`).
-/

namespace ManagementPlane

namespace Moment

/-- The operation waits for its decision when it takes the turn. -/
def Decides (m : Moment) : Prop := ∃ handle due, m.execution.phase = .deciding handle due

/-- The operation is cancelled when it takes the turn. -/
def cancelled (m : Moment) : Bool := m.plane.isCancelled m.execution.context.input.cancellation

end Moment

namespace Execution

variable {around : Plane → Plane → Prop} {p₀ p : Plane} {x₀ x y z : Execution}
  {past : List Moment}

/-! ## The same operation -/

section Continues

variable {step : Step} {w : Work} {next : Next}

/-- A running step leaves the input of its operation alone, and the transaction too, unless it takes
the lock or the first stage lasts. -/
theorem Continues.carries (h : Continues p x step w next) (hy : next.after? = some y) :
    y.context.input = x.context.input ∧ (x.context.stage = .model ∨
      y.context.transaction = x.context.transaction ∨ y.context.transaction.holdsLock = true) := by
  have hkept : ∀ {z : Context}, x.context.Clings z → z.input = x.context.input ∧
      (x.context.stage = .model ∨ z.transaction = x.context.transaction ∨
        z.transaction.holdsLock = true) := by
    intro z hz
    by_cases hstage : x.context.stage = .model
    · exact ⟨hz.input, .inl hstage⟩
    · exact ⟨hz.input, .inr (.inl (hz.later hstage))⟩
  have hreturned : ∀ {z : Context} {out : Except OperationError Unit}, x.context.Clings z →
      x.context.Clings ({ x with context := z }.afterStep step out).context := by
    intro z out hz
    obtain ⟨z', phase, heq, hz', -⟩ := exists_afterStep { x with context := z } step out
    rw [heq]
    exact hz.trans hz'
  cases h with
  | goes hz =>
    obtain rfl := Option.some.inj hy
    cases hz with
    | does hz => exact hkept hz.clings
    | stages hz => exact ⟨hz.clings.input, .inr (.inr rfl)⟩
  | forwards =>
    obtain rfl := Option.some.inj hy
    exact hkept (.refl _)
  | returns hz =>
    obtain rfl := Option.some.inj hy
    exact hkept (hreturned hz.clings)
  | concludes =>
    obtain rfl := Option.some.inj hy
    exact hkept (hreturned (Context.clings_accept _ _ _ _))
  | blocks =>
    obtain rfl := Option.some.inj hy
    exact hkept (.refl _)
  | nests hz =>
    obtain rfl := Option.some.inj hy
    exact hkept hz.clings
  | crashes => cases hy

end Continues

theorem input_nextStep? {step : Step} {context : Context}
    (h : x.context.nextStep? = some (step, context)) : context.input = x.context.input := by
  obtain ⟨rest, -, rfl⟩ := Context.nextStep?_eq_some h
  rfl

theorem input_turn (hy : (x.advance p).next.after? = some y) :
    y.context.input = x.context.input := by
  have hgoes := goes_advance hy
  generalize (x.advance p).plane = q at hgoes
  cases hgoes with
  | @picks step context _ hstep =>
    exact (input_nextStep? hstep : context.input = x.context.input)
  | @interrupts context _ _ hcontext =>
    rcases hcontext with rfl | ⟨step, hstep⟩
    · rfl
    · exact (input_nextStep? hstep : context.input = x.context.input)
  | works _ hwork => exact ((keeping_work p x _ _).continues.carries hwork).1
  | tells => exact (x.context.clings_told _ _ _ _ _).input
  | _ => rfl

theorem context_resume (p : Plane) (x : Execution) (answer : Answer) :
    (x.resume p answer).2.context = x.context := by
  rw [resume.eq_def]
  split <;> rfl

theorem orderly_new (c : Nat) (operation : Value) (control : Control) (input : Input)
    (sink : Sink) : (Execution.new c operation control input sink).Orderly where
  waits := by rintro ⟨⟩
  later h := absurd rfl h
  opening _ := ⟨rfl, rfl, rfl⟩
  deciding := by rintro h due ⟨⟩
  settled := by rintro ⟨⟩
  named _ := .inl rfl

theorem Orderly.resume (h : x.Orderly) (p : Plane) (answer : Answer) :
    (x.resume p answer).2.Orderly := by
  rw [resume.eq_def]
  split
  · next step frames hphase =>
    refine ⟨by rintro ⟨⟩, h.later, by rintro ⟨⟩, by rintro _ _ ⟨⟩, by rintro ⟨⟩, fun hid => ?_⟩
    rcases h.named hid with hopening | ⟨answer', hended⟩
    · cases hphase.symm.trans hopening
    · cases hphase.symm.trans hended
  · exact h

theorem Course.orderly (h : Course around p₀ x₀ past p x) (h₀ : x₀.Orderly) : x.Orderly := by
  induction h with
  | start => exact h₀
  | around _ _ ih => exact ih
  | turn _ _ hy ih => exact (grasps_advance ih hy).orderly
  | resume _ answer ih => exact ih.resume _ answer

theorem Course.input (h : Course around p₀ x₀ past p x) :
    ∀ m ∈ past, m.execution.context.input = x.context.input := by
  induction h with
  | start => rintro m ⟨⟩
  | around _ _ ih => exact ih
  | turn _ _ hy ih =>
    rw [input_turn hy]
    exact List.forall_mem_cons.mpr ⟨rfl, ih⟩
  | resume _ answer ih =>
    rw [context_resume]
    exact ih

theorem recalls_resume (p : Plane) (x : Execution) (answer : Answer) :
    p.Recalls (x.resume p answer).1 := by
  rw [resume.eq_def]
  split <;> exact fun _ h => h

/-- What was cancelled stays so. -/
theorem Course.recalls (h : Course Plane.Recalls p₀ x₀ past p x) (h₀ : x₀.Orderly) :
    ∀ m ∈ past, m.plane.Recalls p := by
  induction h with
  | start => rintro m ⟨⟩
  | around _ hq ih => exact fun m hm => (ih m hm).trans hq
  | turn hcourse _ hy ih =>
    obtain ⟨l, hlock, -⟩ := (grasps_advance (hcourse.orderly h₀) hy).lock
    exact List.forall_mem_cons.mpr ⟨hlock.recalls, fun m hm => (ih m hm).trans hlock.recalls⟩
  | resume _ answer ih => exact fun m hm => (ih m hm).trans (recalls_resume _ _ answer)

/-! ## The steps that were accepted -/

theorem length_get_addAll (q : Queues) (es : List Entry) (s : Stage) :
    ((q.addAll es).get s).length = (q.get s).length + (es.filter (·.stage = s)).length := by
  induction es generalizing q with
  | nil => rfl
  | cons e es ih =>
    have hadded : ((q.add e.stage e.step e.first).get s).length =
        (q.get s).length + if e.stage = s then 1 else 0 := by
      rw [Queues.get_add]
      by_cases hs : s = e.stage
      · rw [if_pos hs, if_pos hs.symm]
        split
        · rfl
        · exact List.length_append
      · rw [if_neg hs, if_neg (Ne.symm hs)]
        rfl
    rw [Queues.addAll, List.foldl_cons, ← Queues.addAll, ih, hadded, List.filter_cons]
    by_cases hs : e.stage = s
    · simp [hs]
      omega
    · simp [hs]

/-- What does not grow was not queued for. -/
theorem notMem_of_get_addAll {q : Queues} {es : List Entry} {s : Stage}
    (h : (q.addAll es).get s = q.get s) : ∀ e ∈ es, e.stage ≠ s := by
  rintro e he rfl
  have hlength := length_get_addAll q es e.stage
  rw [h] at hlength
  have hmem : e ∈ es.filter (·.stage = e.stage) := List.mem_filter.mpr ⟨he, by simp⟩
  have := List.length_pos_of_mem hmem
  omega

theorem ne_opening_afterStep (x : Execution) (step : Step) (out : Except OperationError Unit) :
    (x.afterStep step out).phase ≠ .opening := by
  rcases x.phase_afterStep step out with ⟨-, hphase⟩ | ⟨e, hphase, -⟩ <;> rw [hphase] <;> rintro ⟨⟩

/-- Nothing is queued before the operation opens. -/
theorem unqueued_turn (h : x.phase = .opening → x.context.queues = {})
    (hy : (x.advance p).next.after? = some y) :
    y.phase = .opening → y.context.queues = {} := by
  have hgoes := goes_advance hy
  generalize (x.advance p).plane = q at hgoes
  cases hgoes with
  | rejects => rintro ⟨⟩
  | opens _ _ _ _ hnext => rcases hnext with rfl | ⟨due, rfl⟩ <;> rintro ⟨⟩
  | drains _ hnext => rcases hnext with ⟨due, rfl⟩ | ⟨answer, rfl⟩ <;> rintro ⟨⟩
  | passes hphase | tells hphase =>
    intro hopening
    cases hphase.symm.trans hopening
  | @works step w _ hphase hwork =>
    have hcontinues := (keeping_work p x step w).continues
    generalize (work p x step w).next = next at hcontinues hwork
    cases hcontinues with
    | goes | forwards | nests =>
      obtain rfl := Option.some.inj hwork
      rintro ⟨⟩
    | returns | concludes =>
      obtain rfl := Option.some.inj hwork
      exact fun hopening => absurd hopening (ne_opening_afterStep _ _ _)
    | blocks =>
      obtain rfl := Option.some.inj hwork
      exact h
    | crashes => cases hwork
  | blocks => exact h
  | _ => rintro ⟨⟩

theorem Course.unqueued (h : Course around p₀ x₀ past p x)
    (h₀ : x₀.phase = .opening → x₀.context.queues = {}) :
    x.phase = .opening → x.context.queues = {} := by
  induction h with
  | start => exact h₀
  | around _ _ ih => exact ih
  | turn _ _ hy ih => exact unqueued_turn ih hy
  | @resume _ p x _ answer ih =>
    rw [context_resume, resume.eq_def]
    split
    · rintro ⟨⟩
    · exact ih

/-- What a turn makes of the queues, unless it picks steps: it adds what it likes, but for a stage
that is over. -/
theorem queued_turn (hopening : x.phase = .opening → x.context.stage = .model ∧
      x.context.queues = {}) (hy : (x.advance p).next.after? = some y)
    (hphase : x.phase ≠ .stepping) : x.context.Queued y.context := by
  have hgoes := goes_advance hy
  generalize (x.advance p).plane = q at hgoes
  cases hgoes with
  | @opens _ _ address resolved _ _ _ hopens =>
    obtain ⟨hstage, hqueues⟩ := hopening hopens
    refine ⟨rfl,
      ⟨[⟨.model, ⟨resolved.handler, x.operation, address, Context.rootSlot⟩, false⟩], ?_⟩,
      fun s hs => absurd (hstage ▸ hs) (not_lt_model s)⟩
    rw [hqueues]
    rfl
  | works _ hwork => exact queued_work hwork
  | @tells e c rest => exact x.context.queued_told c rest _ _ _
  | picks h | interrupts h | passes h | prepares h => exact absurd h hphase
  | _ => exact .of_eq (.refl _) rfl rfl

theorem Course.opening (h : Course around p₀ x₀ past p x) (hlived : Lived [] x₀)
    (hempty : x₀.phase = .opening → x₀.context.queues = {}) (hphase : x.phase = .opening) :
    x.context.stage = .model ∧ x.context.queues = {} := by
  have hnow := h.lived hlived
  rw [Lived, hphase] at hnow
  exact ⟨hnow.2.2.2, h.unqueued hempty hphase⟩

section Queued

variable (hlived : Lived [] x₀) (hempty : x₀.phase = .opening → x₀.context.queues = {})
include hlived hempty

/-- **No step is accepted for a stage that is over.** -/
theorem Course.timely (h : Course around p₀ x₀ past p x) :
    ∀ m ∈ past, ∀ es, m.Accepts es → ∀ e ∈ es, ¬ e.stage < m.execution.context.stage := by
  induction h with
  | start => rintro m ⟨⟩
  | around _ _ ih => exact ih
  | @turn past p x y hcourse _ hy ih =>
    refine List.forall_mem_cons.mpr ⟨fun es hes e he hlt => ?_, ih⟩
    by_cases hphase : x.phase = .stepping
    · obtain rfl := (Moment.accepts_iff_of_stepping (m := ⟨p, x⟩) hphase).mp hes
      cases he
    · have hsame := (queued_turn (hcourse.opening hlived hempty) hy hphase).behind e.stage hlt
      rw [(Moment.accepts_iff (m := ⟨p, x⟩) hphase hy).mp hes] at hsame
      exact notMem_of_get_addAll hsame e he rfl
  | resume _ _ ih => exact ih

/-- **The turns can be accounted for**: each of them accepts what its queues grow by. -/
theorem Course.recorded (h : Course around p₀ x₀ past p x) :
    ∃ book, List.Forall₂ Moment.Accepts past book := by
  induction h with
  | start => exact ⟨[], .nil⟩
  | around _ _ ih => exact ih
  | @turn past p x y hcourse _ hy ih =>
    obtain ⟨book, hbook⟩ := ih
    by_cases hphase : x.phase = .stepping
    · exact ⟨[] :: book, .cons
        ((Moment.accepts_iff_of_stepping (m := ⟨p, x⟩) hphase).mpr rfl) hbook⟩
    · obtain ⟨es, hes⟩ := (queued_turn (hcourse.opening hlived hempty) hy hphase).queues
      exact ⟨es :: book, .cons ((Moment.accepts_iff (m := ⟨p, x⟩) hphase hy).mpr hes) hbook⟩
  | resume _ _ ih => exact ih

end Queued

theorem paced_new (c : Nat) (operation : Value) (control : Control) (input : Input) (sink : Sink) :
    Paced [] [] (Execution.new c operation control input sink) where
  kept := Agenda.kept_empty
  lists := .nil
  rises := .nil
  tracks _ := Agenda.tracks_empty
  reached _ := by rintro s ⟨⟩

theorem Paced.resume {book : List (List Entry)} (h : Paced past book x) (p : Plane)
    (answer : Answer) : Paced past book (x.resume p answer).2 := by
  rw [Execution.resume.eq_def]
  split
  · next step frames hphase =>
    have hopen : x.phase.isClosed = false := by rw [hphase]; rfl
    exact ⟨h.kept, h.lists, h.rises, fun _ => h.tracks hopen, fun _ => h.reached hopen⟩
  · exact h

/-- **By every account the turns follow the agenda.** -/
theorem Course.paced (h : Course around p₀ x₀ past p x) (h₀ : Paced [] [] x₀)
    {book : List (List Entry)} (hbook : List.Forall₂ Moment.Accepts past book) :
    Paced past book x := by
  induction h generalizing book with
  | start =>
    cases hbook
    exact h₀
  | around _ _ ih => exact ih hbook
  | turn _ _ hy ih =>
    obtain ⟨es, book', hes, hbook', rfl⟩ := List.forall₂_cons_left_iff.mp hbook
    exact (ih hbook').turn hy hes
  | resume _ answer ih => exact (ih hbook).resume _ answer

/-- What prepares has run all that it accepted. -/
theorem Paced.complete {book : List (List Entry)} (h : Paced past book x) (hlived : Lived past x)
    {handle : Nat} {due : Option Nat} (hphase : x.phase = .deciding handle due) :
    (agenda past book).ran.Perm (List.range (agenda past book).accepted.length) := by
  rw [Lived, hphase] at hlived
  obtain ⟨-, -, hempty⟩ := hlived
  have htracks := h.tracks (by rw [hphase]; rfl)
  have hwaiting : Stage.all.flatMap (agenda past book).waiting = [] := by
    rw [List.flatMap_eq_nil_iff]
    intro stage _
    have hstage := htracks stage
    rw [hempty stage] at hstage
    exact List.forall₂_nil_right_iff.mp hstage
  have hperm := h.kept.each
  rwa [hwaiting, List.append_nil] at hperm

/-- **An operation that has prepared** is past its steps. -/
theorem prepared_turn (hx : x.phase.isPrepared = true)
    (hy : (x.advance p).next.after? = some y) : y.phase.isPrepared = true := by
  have hgoes := goes_advance hy
  generalize (x.advance p).plane = q at hgoes
  cases hgoes with
  | rejects | commits | reverts | unwinds | interrupts | prepares => rfl
  | drains _ hnext => rcases hnext with ⟨due, rfl⟩ | ⟨answer, rfl⟩ <;> rfl
  | tells | blocks => exact hx
  | opens hphase | locks hphase | picks hphase | passes hphase | works hphase =>
    rw [hphase] at hx
    cases hx

theorem Course.prepared (h : Course around p₀ x₀ past p x) {m : Moment} (hm : m ∈ past)
    (hdecides : m.Decides) : x.phase.isPrepared = true := by
  induction h with
  | start => cases hm
  | around _ _ ih => exact ih hm
  | @turn past p x y hcourse _ hy ih =>
    refine prepared_turn ?_ hy
    rcases List.mem_cons.mp hm with rfl | hm
    · obtain ⟨handle, due, hphase⟩ := hdecides
      rw [show x.phase = _ from hphase]
      rfl
    · exact ih hm
  | @resume past p x _ answer ih =>
    have hx := ih hm
    rw [Execution.resume.eq_def]
    split
    · next hphase =>
      rw [hphase] at hx
      cases hx
    · exact hx

/-- **What it had accepted by then it has run**, and nothing that is accepted later. -/
theorem Course.settled_steps (h : Course around p₀ x₀ past p x) (h₀ : Paced [] [] x₀)
    (hlived : Lived [] x₀) {later earlier : List Moment} {m : Moment}
    (hpast : past = later ++ m :: earlier) (hdecides : m.Decides) :
    executed past = executed earlier ∧ ∀ book, List.Forall₂ Moment.Accepts earlier book →
      (agenda earlier book).ran.Perm (List.range (agenda earlier book).accepted.length) := by
  induction h generalizing later with
  | start => simp at hpast
  | around _ _ ih => exact ih hpast
  | @turn past p x y hcourse _ hy ih =>
    have hidle : x.phase ≠ .stepping → executed (⟨p, x⟩ :: past) = executed past := fun hphase => by
      rw [executed, Moment.runs_eq_none hphase]
      exact List.append_nil _
    cases later with
    | nil =>
      obtain ⟨rfl, rfl⟩ := List.cons.inj hpast
      obtain ⟨handle, due, hphase⟩ := hdecides
      refine ⟨hidle (by rw [show x.phase = _ from hphase]; rintro ⟨⟩), fun book hbook => ?_⟩
      exact (hcourse.paced h₀ hbook).complete (hcourse.lived hlived) hphase
    | cons k later =>
      obtain ⟨-, rfl⟩ := List.cons.inj hpast
      obtain ⟨hsame, hall⟩ := ih rfl
      have hprepared := hcourse.prepared (List.mem_append_right _ List.mem_cons_self) hdecides
      refine ⟨(hidle fun hphase => ?_).trans hsame, hall⟩
      rw [hphase] at hprepared
      cases hprepared
  | resume _ _ ih => exact ih hpast

/-! ## What stops the steps -/

/-- A step begins only while the operation is not cancelled. -/
theorem uncancelled_of_runs (h : (Moment.mk p x).runs.isSome = true) :
    x.phase = .stepping ∧ (Moment.mk p x).cancelled = false := by
  have hphase : x.phase = .stepping := by
    by_contra hphase
    rw [Moment.runs_eq_none hphase] at h
    cases h
  refine ⟨hphase, Bool.eq_false_iff.mpr fun hcancelled => ?_⟩
  rw [Moment.cancelled] at hcancelled
  have hadvance : (Moment.mk p x).turn = pick p x := by rw [Moment.turn, advance, hphase]
  rw [Moment.runs, hphase, hadvance, pick] at h
  dsimp only at h hcancelled
  rw [hcancelled] at h
  split at h
  · next hy =>
    split at hy
    · obtain rfl := Option.some.inj hy
      cases h
    · split at hy
      · obtain rfl := Option.some.inj hy
        rw [hphase] at h
        cases h
      · obtain rfl := Option.some.inj hy
        cases h
  · cases h

theorem Course.uncancelled (h : Course around p₀ x₀ past p x) :
    ∀ m ∈ past, m.runs.isSome = true → m.cancelled = false := by
  induction h with
  | start => rintro m ⟨⟩
  | around _ _ ih => exact ih
  | turn _ _ _ ih => exact List.forall_mem_cons.mpr ⟨fun hruns => (uncancelled_of_runs hruns).2, ih⟩
  | resume _ _ ih => exact ih

/-- **Once a step went wrong or the operation was cancelled, no step begins.** -/
theorem Course.stops (h : Course Plane.Recalls p₀ x₀ past p x) (h₀ : x₀.Orderly)
    (hlived : Lived [] x₀) : past.Pairwise fun later m =>
      later.runs.isSome = true → m.Smooth ∧ m.cancelled = false := by
  induction h with
  | start => exact .nil
  | around _ _ ih => exact ih
  | @turn past p x y hcourse _ hy ih =>
    refine List.pairwise_cons.mpr ⟨fun m hm hruns => ?_, ih⟩
    obtain ⟨hphase, hcancelled⟩ := uncancelled_of_runs hruns
    have hnow := hcourse.lived hlived
    rw [Lived, hphase] at hnow
    refine ⟨hnow.1.smooth m hm, Bool.eq_false_iff.mpr fun hbefore => ?_⟩
    rw [Moment.cancelled, hcourse.input m hm] at hbefore
    exact Bool.eq_false_iff.mp hcancelled (hcourse.recalls h₀ m hm _ hbefore)
  | resume _ _ ih => exact ih

/-! ## The staged root -/

/-- The last step of the first stage returned with the operation as `z`. -/
def ModelLeft (past : List Moment) (z : Execution) : Prop :=
  ∃ later k earlier step out, past = later ++ k :: earlier ∧
    k.execution.context.stage = .model ∧ k.turn.next = .returned z step out ∧
    ∀ m ∈ later, m.execution.context.stage = .model →
      ∀ step w, m.execution.phase ≠ .handling step w

/-- The transaction is as the last step of the first stage left it, but for the lock. -/
def Staged (past : List Moment) (x : Execution) : Prop :=
  ∃ z, ModelLeft past z ∧ x.context.transaction.unlocked = z.context.transaction.unlocked

/-- Past the steps of the first stage the transaction is staged. -/
def Stages (past : List Moment) (x : Execution) : Prop :=
  match x.phase with
  | .locking _ => x.context.queues.get .model ≠ []
  | .stepping => x.context.stage = .model ∧ x.context.queues.get .model ≠ [] ∨ Staged past x
  | .handling .. => x.context.stage = .model ∨ Staged past x
  | .deciding .. => Staged past x
  | _ => True

theorem Staged.cons {m : Moment} (h : Staged past x)
    (hm : m.execution.context.stage = .model → ∀ step w, m.execution.phase ≠ .handling step w)
    (hy : y.context.transaction.unlocked = x.context.transaction.unlocked) :
    Staged (m :: past) y := by
  obtain ⟨z, ⟨later, k, earlier, step, out, rfl, hstage, hnext, hlater⟩, hz⟩ := h
  exact ⟨z, ⟨m :: later, k, earlier, step, out, rfl, hstage, hnext,
    List.forall_mem_cons.mpr ⟨hm, hlater⟩⟩, hy.trans hz⟩

theorem unlocked_unlocked (t : Transaction) : t.unlocked.unlocked = t.unlocked := by
  obtain ⟨writer, base, began, staging, lockTimeout⟩ := t
  cases staging <;> rfl

theorem unlocked_of_free {t : Transaction} (h : t.holdsLock = false) : t.unlocked = t := by
  have hreleased := t.releaseLock_snd { root := t.base }
  rw [← hreleased, Transaction.releaseLock]
  rw [Transaction.holdsLock] at h
  split
  · next s hs =>
    rw [hs] at h
    have hlocked : s.locked = false := h
    rw [if_neg (Bool.eq_false_iff.mp hlocked)]
  · rfl

/-- What a step of the first stage leaves is staged when it ends. -/
theorem stages_returned {z : Context} {step : Step} {out : Except OperationError Unit}
    (hmodel : x.context.stage = .model)
    (hnext : (x.advance p).next = .returned { x with context := z } step out) :
    Stages (⟨p, x⟩ :: past) ({ x with context := z }.afterStep step out) := by
  have hrested := rested_afterStep { x with context := z } step out
  have hstaged : Staged (⟨p, x⟩ :: past) ({ x with context := z }.afterStep step out) :=
    ⟨_, ⟨[], ⟨p, x⟩, past, step, out, rfl, hmodel, hnext, by rintro m ⟨⟩⟩,
      by rw [hrested.transaction]⟩
  rw [Stages]
  rcases phase_afterStep { x with context := z } step out with ⟨-, hafter⟩ | ⟨e, hafter, -⟩
  · rw [hafter]
    exact .inr hstaged
  · rw [hafter]
    trivial

/-- **A step of the first stage** goes on there, or is the last one there so far; later ones can
neither write nor take the lock. -/
theorem stages_work {step : Step} {w : Work} (h : Stages past x) (horderly : y.Orderly)
    (hphase : x.phase = .handling step w) (hy : (x.advance p).next.after? = some y) :
    Stages (⟨p, x⟩ :: past) y := by
  have hadvance : x.advance p = work p x step w := by rw [advance, hphase]
  have hcontinues := (keeping_work p x step w).continues
  rw [← hadvance] at hcontinues
  rw [Stages, hphase] at h
  by_cases hmodel : x.context.stage = .model
  · generalize hnext : (x.advance p).next = next at hcontinues hy
    cases hcontinues with
    | goes hz =>
      obtain rfl := Option.some.inj hy
      cases hz with
      | does hz => exact .inl (hz.clings.stage.trans hmodel)
      | stages hz => exact .inl (hz.clings.stage.trans hmodel)
    | forwards =>
      obtain rfl := Option.some.inj hy
      exact .inl hmodel
    | returns =>
      obtain rfl := Option.some.inj hy
      exact stages_returned hmodel hnext
    | concludes =>
      obtain rfl := Option.some.inj hy
      exact stages_returned hmodel hnext
    | blocks =>
      obtain rfl := Option.some.inj hy
      rw [Stages, hphase]
      exact .inl hmodel
    | nests hz =>
      obtain rfl := Option.some.inj hy
      exact .inl (hz.clings.stage.trans hmodel)
    | crashes => cases hy
  · have hqueued := queued_work (hadvance ▸ hy)
    have hsame : y.context.transaction = x.context.transaction := by
      rcases (hcontinues.carries hy).2 with h | h | hholds
      · exact absurd h hmodel
      · exact h
      · cases (horderly.later (hqueued.stage ▸ hmodel)).symm.trans hholds
    have hstaged : Staged (⟨p, x⟩ :: past) y :=
      (h.resolve_left hmodel).cons (fun h => absurd h hmodel) (by rw [hsame])
    rw [Stages]
    split
    · next hlocking =>
      have hwaits := horderly.waits (by rw [hlocking]; rfl)
      exact absurd (hqueued.stage.symm.trans hwaits.2) hmodel
    · exact .inr hstaged
    · exact .inr hstaged
    · exact hstaged
    · trivial

theorem stages_turn (h : Stages past x) (hx : x.Orderly)
    (hy : (x.advance p).next.after? = some y) : Stages (⟨p, x⟩ :: past) y := by
  have horderly := (grasps_advance hx hy).orderly
  by_cases hhandling : ∃ step w, x.phase = .handling step w
  · obtain ⟨step, w, hphase⟩ := hhandling
    exact stages_work h horderly hphase hy
  · have hnot : ∀ step w, x.phase ≠ .handling step w := fun step w hphase =>
      hhandling ⟨step, w, hphase⟩
    have hcons : ∀ {z : Execution}, Staged past x →
        z.context.transaction.unlocked = x.context.transaction.unlocked →
        Staged (⟨p, x⟩ :: past) z := fun hstaged => hstaged.cons fun _ => hnot
    have hgoes := goes_advance hy
    generalize (x.advance p).plane = q at hgoes
    cases hgoes with
    | @opens _ _ _ _ _ _ _ hphase _ _ _ hnext =>
      have hstage := (hx.opening hphase).2.1
      rcases hnext with rfl | ⟨due, rfl⟩
      · exact .inl ⟨hstage, List.cons_ne_nil _ _⟩
      · exact List.cons_ne_nil _ _
    | locks hphase =>
      rw [Stages, hphase] at h
      exact .inl ⟨(hx.waits (by rw [hphase]; rfl)).2, h⟩
    | picks hphase hstep =>
      rw [Stages, hphase] at h
      obtain ⟨rest, -, rfl⟩ := Context.nextStep?_eq_some hstep
      exact h.imp And.left fun hstaged => hcons hstaged rfl
    | passes hphase hempty =>
      rw [Stages, hphase] at h
      rw [Stages]
      dsimp only
      rw [hphase]
      refine .inr (hcons (h.resolve_left ?_) ?_)
      · rintro ⟨hmodel, hqueued⟩
        exact hqueued (hmodel ▸ hempty)
      · show (x.context.transaction.releaseLock _).2.unlocked = _
        rw [Transaction.releaseLock_snd, unlocked_unlocked]
    | prepares hphase _ hlast =>
      rw [Stages, hphase] at h
      refine hcons (h.resolve_left ?_) rfl
      rintro ⟨hmodel, -⟩
      cases hmodel.symm.trans (next?_eq_none hlast)
    | works hphase => exact absurd hphase (hnot _ _)
    | drains hphase hnext => rcases hnext with ⟨due, rfl⟩ | ⟨answer, rfl⟩ <;> trivial
    | tells hphase =>
      rw [Stages]
      dsimp only
      rw [hphase]
      trivial
    | blocks =>
      rw [Stages] at h ⊢
      split
      · next hphase =>
        rw [hphase] at h
        exact h
      · next hphase =>
        rw [hphase] at h
        exact h.imp_right fun hstaged => hcons hstaged rfl
      · next hphase => exact absurd hphase (hnot _ _)
      · next hphase =>
        rw [hphase] at h
        exact hcons h rfl
      · trivial
    | _ => trivial

theorem Stages.resume (h : Stages past x) (p : Plane) (answer : Answer) :
    Stages past (x.resume p answer).2 := by
  rw [Execution.resume.eq_def]
  split
  · next step frames hphase =>
    rw [Stages, hphase] at h
    exact h
  · exact h

theorem Course.stages (h : Course around p₀ x₀ past p x) (h₀ : x₀.Orderly)
    (hstages : Stages [] x₀) : Stages past x := by
  induction h with
  | start => exact hstages
  | around _ _ ih => exact ih
  | turn hcourse _ hy ih => exact stages_turn ih (hcourse.orderly h₀) hy
  | resume _ answer ih => exact ih.resume _ answer

/-- **What is committed is what the last step of the first stage left**, but for the lock. -/
theorem Course.committed (h : Course around p₀ x₀ past p x) (h₀ : x₀.Orderly)
    (hstages : Stages [] x₀) {later earlier : List Moment} {m : Moment}
    (hpast : past = later ++ m :: earlier) (hm : m.Commits) : ∃ z, ModelLeft earlier z ∧
      m.execution.context.transaction = z.context.transaction.unlocked := by
  induction h generalizing later with
  | start => simp at hpast
  | around _ _ ih => exact ih hpast
  | @turn past p x y hcourse _ hy ih =>
    cases later with
    | cons k later => exact ih (List.cons.inj hpast).2
    | nil =>
      obtain ⟨rfl, rfl⟩ := List.cons.inj hpast
      obtain ⟨handle, due, hphase, -⟩ := hm.decided
      have hstaged := hcourse.stages h₀ hstages
      rw [Stages, show x.phase = _ from hphase] at hstaged
      obtain ⟨z, hleft, hz⟩ := hstaged
      have horderly := hcourse.orderly h₀
      rw [unlocked_of_free (horderly.later (horderly.deciding handle due hphase))] at hz
      exact ⟨z, hleft, hz⟩
  | resume _ _ ih => exact ih hpast

/-! ## Discipline -/

/-- The turns of an operation keep to its stages. -/
structure Disciplined (turns : List Moment) (x : Execution) : Prop where
  /-- The stages of the steps that ran never decrease. -/
  rises : (executed turns).Pairwise fun s t => ¬ t.1 < s.1
  recorded : ∃ book, List.Forall₂ Moment.Accepts turns book
  /-- By every account of the steps that were accepted, they ran as they were queued. -/
  ordered : ∀ book, List.Forall₂ Moment.Accepts turns book →
    (agenda turns book).Orders (executed turns)
  /-- By every account, an operation that has prepared ran all that it accepted, and once. -/
  complete : ∀ book, List.Forall₂ Moment.Accepts turns book → ∀ handle due,
    x.phase = .deciding handle due →
      (agenda turns book).ran.Perm (List.range (agenda turns book).accepted.length)
  /-- And that is all that it ever runs: what its completions queue is accepted all the same. -/
  settled : ∀ later m earlier, turns = later ++ m :: earlier → m.Decides →
    executed turns = executed earlier ∧ ∀ book, List.Forall₂ Moment.Accepts earlier book →
      (agenda earlier book).ran.Perm (List.range (agenda earlier book).accepted.length)
  /-- No step is accepted for a stage that is over. -/
  timely : ∀ m ∈ turns, ∀ es, m.Accepts es → ∀ e ∈ es, ¬ e.stage < m.execution.context.stage
  /-- After a step that went wrong and after a cancellation no step runs. -/
  stops : turns.Pairwise fun later m => later.runs.isSome = true → m.Smooth ∧ m.cancelled = false
  uncancelled : ∀ m ∈ turns, m.runs.isSome = true → m.cancelled = false
  /-- What is committed is what the last step of the first stage left. -/
  committed : ∀ later m earlier, turns = later ++ m :: earlier → m.Commits →
    ∃ z, ModelLeft earlier z ∧
      m.execution.context.transaction = z.context.transaction.unlocked ∧
      (m.execution.controller < m.plane.controllers.length →
        m.turn.plane.tree m.execution.controller = (z.context.transaction.unlocked.commit
          (m.plane.tree m.execution.controller)).2.1)

/-- **Every operation keeps to its stages**, whatever its steps do, if no cancellation is taken
back. -/
theorem Course.disciplined {c : Nat} {operation : Value} {control : Control} {input : Input}
    {sink : Sink} (h : Course Plane.Recalls p₀ (Execution.new c operation control input sink)
      past p x) : Disciplined past x := by
  have horderly := orderly_new c operation control input sink
  have hlived := lived_new c operation control input sink
  have hpaced : ∀ book, List.Forall₂ Moment.Accepts past book → Paced past book x :=
    fun _ => h.paced (paced_new c operation control input sink)
  obtain ⟨book, hbook⟩ := h.recorded hlived fun _ => rfl
  constructor
  · exact (hpaced book hbook).rises
  · exact ⟨book, hbook⟩
  · exact fun book hbook => (hpaced book hbook).kept.orders (hpaced book hbook).lists
  · exact fun book hbook _ _ => (hpaced book hbook).complete (h.lived hlived)
  · exact fun _ _ _ => h.settled_steps (paced_new c operation control input sink) hlived
  · exact h.timely hlived fun _ => rfl
  · exact h.stops horderly hlived
  · exact h.uncancelled
  · rintro later ⟨q, k⟩ earlier hpast hm
    obtain ⟨z, hleft, hz⟩ := h.committed horderly trivial hpast hm
    refine ⟨z, hleft, hz, fun hc => ?_⟩
    obtain ⟨handle, published, t, hcommit, hplane⟩ := plane_of_commits hm
    dsimp only at hz
    rw [← hz, hcommit, Moment.turn, hplane]
    exact Plane.tree_setTree _ (by exact hc) published

end Execution

end ManagementPlane
