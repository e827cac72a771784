import ManagementPlane.Proofs.Machine.Heedless
import ManagementPlane.Proofs.Proxied.Locks
import ManagementPlane.Proofs.Proxied.Offers

/-!
# Proofs/Proxied/Lockstep — worlds that differ in a cancellation

Two worlds that are alike but for one cancellation (`World.Alike`) go the same way, as long as every
operation that has it is through with its pipeline: whatever happens in one of them can happen in
the other one too (`World.AloofStep.alike`), and so whatever comes of it (`World.AloofLeads.alike`).
-/

namespace ManagementPlane

open Plane Execution

variable {c : Nat} {p q : Plane}

/-! ## Tasks -/

/-- The moves come to the same, in planes that stay alike. -/
structure Move.Alike (c : Nat) (m n : Move) : Prop where
  plane : m.plane.Alike c n.plane
  spawned : n.spawned = m.spawned
  progress : n.progress = m.progress

theorem Origin.alike_tell (h : p.Alike c q) (o : Origin) (answer : Answer) :
    (o.tell p answer).Alike c (o.tell q answer) := by
  cases o with
  | ticket t => exact h.modifyTicket t _
  | link l => exact h.modifyLink l _
  | exchange e => exact h.modifyExchange e _

theorem Origin.alike_tellCrash (h : p.Alike c q) (o : Origin) (reason : String) :
    (o.tellCrash p reason).Alike c (o.tellCrash q reason) := by
  cases o with
  | ticket t => exact h.modifyTicket t _
  | link l => exact h.modifyLink l _
  | exchange e => exact h.modifyExchange e _

namespace Task

theorem alike_stack (h : p.Alike c q) (origin : Origin) (stack : List Execution)
    (hstack : ∀ x ∈ stack, x.Heedless c) :
    (advanceStack p origin stack).Alike c (advanceStack q origin stack) := by
  cases stack with
  | nil => exact ⟨h, rfl, rfl⟩
  | cons x rest =>
    rw [advanceStack, advanceStack]
    split
    · next answer _ =>
      cases rest with
      | nil => exact ⟨origin.alike_tell h answer, rfl, rfl⟩
      | cons y ys =>
        obtain ⟨hy, halike⟩ := Execution.alike_resume h y answer
        refine ⟨halike, rfl, ?_⟩
        dsimp only
        rw [hy]
    · have hturn := Execution.alike_advance h (hstack x List.mem_cons_self)
      have htop : q.top = p.top := h.read Plane.top fun _ _ => rfl
      dsimp only
      rw [hturn.next, hturn.spawned, htop]
      split
      · exact ⟨hturn.plane, rfl, rfl⟩
      · exact ⟨hturn.plane, rfl, rfl⟩
      · exact ⟨hturn.plane, rfl, rfl⟩
      · exact ⟨hturn.plane, rfl, rfl⟩
      · next reason _ =>
        have hleft := alike_foldl (fun h x => Execution.alike_discard h x) (x :: rest) hturn.plane
        exact ⟨origin.alike_tellCrash hleft reason, rfl, rfl⟩

theorem alike_follow (h : p.Alike c q) (a e f : Nat) (sink : Sink) (state : Follow) :
    (advanceFollow p a e f sink state).Alike c (advanceFollow q a e f sink state) := by
  have hfinish : ∀ {p q : Plane} (response : Value), p.Alike c q →
      (((p.completeForward f response).modifyExchange e Exchange.leave).modifyActor a
        fun k => { k with clients := k.clients - 1 }).Alike c
      (((q.completeForward f response).modifyExchange e Exchange.leave).modifyActor a
        fun k => { k with clients := k.clients - 1 }) :=
    fun response h => ((h.completeForward f response).modifyExchange e _).modifyActor a _
  rw [advanceFollow.eq_def, advanceFollow.eq_def]
  dsimp only
  cases state with
  | deciding i =>
    dsimp only
    rw [h.handle]
    split
    · exact ⟨h, rfl, rfl⟩
    · next d _ =>
      have hleft := h.modifyHandle i Prepared.leave
      rw [hleft.actor]
      split
      · have hreplies : (q.modifyHandle i Prepared.leave).newReply.1 =
            (p.modifyHandle i Prepared.leave).newReply.1 :=
          hleft.read (fun p => p.newReply.1) fun _ _ => rfl
        have hnew := hleft.map (fun p => p.newReply.2) fun _ _ => rfl
        rw [hreplies, hnew.exchange]
        obtain ⟨hticket, hsent⟩ := hnew.send a (.resolve
          ((p.modifyHandle i Prepared.leave).newReply.2.exchange e).number d
          (p.modifyHandle i Prepared.leave).newReply.1)
        rw [hticket]
        exact ⟨hsent, rfl, rfl⟩
      · exact ⟨hleft, rfl, rfl⟩
  | sending ticket r =>
    dsimp only
    rw [h.actor]
    split
    · exact ⟨h, rfl, rfl⟩
    · split <;> exact ⟨h, rfl, rfl⟩
  | replying r =>
    dsimp only
    rw [h.reply]
    split <;> exact ⟨h, rfl, rfl⟩
  | finishing =>
    have hseen := h.modifyExchange e fun _ => (p.exchange e).next.2
    dsimp only
    rw [h.exchange]
    split
    · exact ⟨hseen.report _ _, rfl, rfl⟩
    · exact ⟨hseen, rfl, rfl⟩
    · exact ⟨hfinish _ hseen, rfl, rfl⟩
    · exact ⟨hfinish _ hseen, rfl, rfl⟩
    · exact ⟨h, rfl, rfl⟩

theorem alike_serve (h : p.Alike c q) (a : Nat) :
    (advanceServe p a).Alike c (advanceServe q a) := by
  have hpolled := h.modifyActor a fun _ => (p.actor a).poll.2
  have hreply : ∀ {p q : Plane} (i : Nat) (r : Reply), p.Alike c q →
      (p.setReply i r).Alike c (q.setReply i r) :=
    fun i r h => h.map (Plane.setReply · i r) fun _ _ => rfl
  rw [advanceServe, advanceServe, h.actor]
  split
  · exact ⟨h, rfl, rfl⟩
  · dsimp only
    split
    · exact ⟨hpolled, rfl, rfl⟩
    · exact ⟨hpolled, rfl, rfl⟩
    · exact ⟨hreply _ _ (hpolled.decideAndDrop _ _), rfl, rfl⟩
    · exact ⟨hreply _ _ hpolled, rfl, rfl⟩
    · exact ⟨alike_foldl (fun h i => h.decideAndDrop i .rollback) _ hpolled, rfl, rfl⟩
    · exact ⟨hpolled, rfl, rfl⟩

/-- **A task whose operations do not look at the cancellation does the same with it and without
it.** -/
theorem alike_advance (h : p.Alike c q) {t : Task} (ht : ∀ x ∈ t.stack, x.Heedless c) :
    (t.advance p).Alike c (t.advance q) := by
  cases t with
  | operation stack origin => exact alike_stack h origin stack ht
  | relay l f =>
    rw [advance, advance]
    dsimp only
    rw [h.link]
    split
    · exact ⟨h.completeForward f _, rfl, rfl⟩
    · exact ⟨h.modifyForward f _, rfl, rfl⟩
    · exact ⟨h, rfl, rfl⟩
  | follow a e f sink state => exact alike_follow h a e f sink state
  | serve a => exact alike_serve h a
  | expect m i f result =>
    rw [advance, advance]
    dsimp only
    rw [h.handle]
    split
    · next d _ =>
      have hnoted := h.map (Plane.modifyMock · m fun k =>
        { k with decisions := k.decisions ++ [d] }) fun _ _ => rfl
      exact ⟨hnoted.completeForward f _, rfl, rfl⟩
    · exact ⟨h, rfl, rfl⟩
  | watch label i =>
    rw [advance, advance]
    dsimp only
    rw [h.handle]
    split
    · exact ⟨h, rfl, rfl⟩
    · exact ⟨h.writeLog _, rfl, rfl⟩
    · exact ⟨h.writeLog _, rfl, rfl⟩
  | prepareLate wake f response =>
    rw [advance, advance]
    dsimp only
    rw [h.now]
    split
    · obtain ⟨hnumber, hnew⟩ := h.newHandle {}
      rw [hnumber]
      exact ⟨(hnew.reportOutcome f (.prepared _ response)).modifyForward f _, rfl, rfl⟩
    · exact ⟨h, rfl, rfl⟩
  | completeTwice i f response =>
    rw [advance, advance]
    dsimp only
    rw [h.handle]
    split
    · exact ⟨(h.modifyForward f _).completeForward f response, rfl, rfl⟩
    · exact ⟨h, rfl, rfl⟩
  | cancelAt wake d =>
    rw [advance, advance]
    dsimp only
    rw [h.now]
    split
    · exact ⟨h.cancel d, rfl, rfl⟩
    · exact ⟨h, rfl, rfl⟩

end Task

/-! ## From outside -/

section Outside

variable (b : Bool)

theorem handlesAt_veil (k : Place) : (p.veil c b).handlesAt k = p.handlesAt k := by
  cases k <;> rfl

theorem Plane.Loose.veil {i : Nat} (h : p.Loose i) : (p.veil c b).Loose i := fun k hk =>
  h k (handlesAt_veil (p := p) b k ▸ hk)

theorem reportOutcome_veil (p : Plane) (f : Nat) (o : Outcome) :
    (p.veil c b).reportOutcome f o = (p.reportOutcome f o).veil c b := by
  rw [Plane.reportOutcome, Plane.reportOutcome]
  dsimp only
  cases o.handle? with
  | none => rfl
  | some i =>
    dsimp only
    show (if ((p.forward f).report o).1 then _ else _) = Plane.veil (if _ then _ else _) c b
    split <;> rfl

theorem dropActor_veil (p : Plane) (a : Nat) :
    (p.veil c b).dropActor a = (p.dropActor a).veil c b := by
  have hrequests : (p.actor a).requests.foldl Plane.dropRequest (p.veil c b) =
      ((p.actor a).requests.foldl Plane.dropRequest p).veil c b :=
    List.foldl_hom (Plane.veil · c b) fun q r => by cases r <;> rfl
  have hpending : ∀ q : Plane,
      (p.actor a).pending.foldl (fun q e => q.modifyHandle e.2 Prepared.drop) (q.veil c b) =
        ((p.actor a).pending.foldl (fun q e => q.modifyHandle e.2 Prepared.drop) q).veil c b :=
    fun q => List.foldl_hom (Plane.veil · c b) fun _ _ => rfl
  show Plane.modifyActor ((p.actor a).pending.foldl (fun q e => q.modifyHandle e.2 Prepared.drop)
    ((p.actor a).requests.foldl Plane.dropRequest (p.veil c b))) a _ = _
  rw [hrequests, hpending]
  rfl

/-- What happens from outside does not depend on a cancellation. -/
theorem Outside.veil {ss : List Stance} (h : Outside ss p q) :
    Outside ss (p.veil c b) (q.veil c b) := by
  cases h with
  | eases h =>
    exact .eases ⟨h.handles, h.forwards, h.decision, h.clones, h.forward, h.offer,
      h.ticket, h.actor⟩
  | decides hh d => exact .decides (hh.veil b) d
  | drops hh => exact .drops (hh.veil b)
  | stops a =>
    rw [← dropActor_veil]
    exact .stops _ a
  | prepares hf hr response =>
    rw [← reportOutcome_veil]
    exact .prepares (p.veil c b) hf hr response
  | fails hf response =>
    rw [← reportOutcome_veil]
    exact .fails _ hf response

end Outside

/-! ## Worlds -/

/-- Cancellations are only added, and the links within the process are left alone. -/
structure Plane.Extends (p q : Plane) : Prop where
  cancellations : p.cancellations.length ≤ q.cancellations.length
  links : q.links = p.links

/-- The operations of the task have neither the cancellation `c` nor a link, and answer to none. -/
structure Task.Withholds (c : Nat) (t : Task) : Prop where
  seats : ∀ x ∈ t.stack, x.seat c = none
  origin : ∀ stack l, t ≠ .operation stack (.link l)

/-- What respects the operations does so with another cancellation too. -/
theorem Plane.Respects.alike {xs : List Execution} {p' q' : Plane} (h : Respects xs p q)
    (hp : p.Alike c p') (hq : q.Alike c q')
    (hsame : q'.isCancelled (some c) = p'.isCancelled (some c)) : Respects xs p' q' where
  added x hx hlt := by
    have hcontrollers : ∀ {p q : Plane}, p.Alike c q → q.controllers = p.controllers :=
      fun h => h.read Plane.controllers fun _ _ => rfl
    rw [hcontrollers hq] at hlt
    rw [hcontrollers hp]
    exact h.added x hx hlt
  locks k := by rw [hp.tree, hq.tree, h.locks]
  writers := by rw [hp.writers, hq.writers, h.writers]
  recalls d hd := by
    by_cases hdc : d = some c
    · subst hdc
      exact hsame.trans hd
    · rw [hp.isCancelled hdc] at hd
      rw [hq.isCancelled hdc]
      exact h.recalls d hd

namespace World

variable {w w' w₁ : World}

/-- The cancellation is made. -/
def cancel (w : World) (c : Nat) : World := { w with plane := w.plane.cancel c }

/-- The worlds differ at most in the cancellation `c` and in what was before. -/
structure Alike (c : Nat) (w w' : World) : Prop where
  plane : w.plane.Alike c w'.plane
  tasks : w'.tasks = w.tasks

/-- A step on which no newcomer is given the cancellation `c`: an operation that has it was given it
before, or has it from the operation that forwarded to it. -/
inductive AloofStep (c : Nat) : World → World → Prop
  | orders {w : World} {tasks : List Task} (h : w.tasks.Perm tasks) : AloofStep c w { w with tasks }
  | runs (p : Plane) (t : Task) (tasks : List Task) (past : List Moment)
      (hs : t.stack = [] → ∀ s ∈ (t.advance p).spawned, s.Withholds c) :
    AloofStep c ⟨p, t :: tasks, past⟩
      { plane := (t.advance p).plane
        tasks := (t.advance p).spawned ++ ((t.advance p).progress.remains ++ tasks)
        past := t.moments p ++ past }
  | begins (w : World) {t : Task} (h : t.Begins fun _ => False) (ht : t.Withholds c) :
    AloofStep c w { w with tasks := t :: w.tasks }
  | outside {w : World} {q : Plane} (h : Outside w.stances w.plane q)
      (hq : Respects w.executions w.plane q) (hextends : w.plane.Extends q) :
    AloofStep c w { w with plane := q }

theorem AloofStep.fair (h : AloofStep c w w') : FairStep w w' := by
  cases h with
  | orders hperm => exact .around (.orders hperm) ((Fair.refl _).respects _)
  | runs p t tasks past hs => exact .runs p t tasks past
  | begins _ h ht => exact .around (.begins w h) ((Fair.refl _).respects _)
  | outside h hq => exact .around (.outside h) hq

/-- One world comes to be another, and no newcomer is given the cancellation `c`. -/
abbrev AloofLeads (c : Nat) : World → World → Prop := Relation.ReflTransGen (AloofStep c)

/-- No operation looks at the cancellation any more. -/
def Heedless (c : Nat) (w : World) : Prop := ∀ x ∈ w.executions, x.Heedless c

theorem alike_cancel (w : World) (c : Nat) : w.Alike c (w.cancel c) :=
  ⟨Plane.alike_cancel w.plane c, rfl⟩

theorem Alike.symm (h : w.Alike c w') : w'.Alike c w := ⟨h.plane.symm, h.tasks.symm⟩

theorem Alike.heedless (h : w.Alike c w') (hw : w.Heedless c) : w'.Heedless c := by
  rw [Heedless, executions, h.tasks]
  exact hw

/-- **Worlds in lockstep**: whatever happens in one of them happens in the other one too. -/
theorem AloofStep.alike (h : AloofStep c w w₁) (hw : w.Alike c w') (hheedless : w.Heedless c) :
    ∃ w₁', AloofStep c w' w₁' ∧ w₁.Alike c w₁' := by
  obtain ⟨q, tasks, past⟩ := w'
  obtain ⟨hplane, rfl⟩ : w.plane.Alike c q ∧ tasks = w.tasks := ⟨hw.plane, hw.tasks⟩
  cases h with
  | orders hperm => exact ⟨_, .orders hperm, hplane, rfl⟩
  | runs p t tasks past' hs =>
    have hmove := Task.alike_advance hplane (t := t) fun x hx =>
      hheedless x (List.mem_append_left _ hx)
    refine ⟨_, .runs q t tasks past fun ht => ?_, hmove.plane, ?_⟩
    · rw [hmove.spawned]
      exact hs ht
    · dsimp only
      rw [hmove.spawned, hmove.progress]
  | begins _ h ht => exact ⟨_, .begins _ h ht, hplane, rfl⟩
  | @outside _ r h hq hextends =>
    -- the cancellation stays as it is in the other world
    obtain ⟨b, hb⟩ : ∃ b, q.isCancelled (some c) = b := ⟨_, rfl⟩
    have hveil := hplane.eq_veil
    rw [hb] at hveil
    subst hveil
    have halike : r.Alike c (r.veil c b) := ⟨b, rfl⟩
    have hcount : (w.plane.veil c b).cancellations.length = w.plane.cancellations.length :=
      List.length_set
    have hcount' : (r.veil c b).cancellations.length = r.cancellations.length :=
      List.length_set
    have hsame : (r.veil c b).isCancelled (some c) =
        (w.plane.veil c b).isCancelled (some c) := by
      by_cases hlt : c < r.cancellations.length
      · rw [isCancelled_veil r b hlt, hb]
      · have hle := Nat.le_of_not_lt hlt
        rw [isCancelled_of_le (hcount'.trans_le hle),
          isCancelled_of_le ((hcount.trans_le hextends.cancellations).trans hle)]
    refine ⟨_, .outside (h.veil b) (hq.alike hplane halike hsame) ⟨?_, hextends.links⟩, halike,
      rfl⟩
    exact (hcount.trans_le hextends.cancellations).trans_eq hcount'.symm

/-- **And so does all that comes about**, as long as no operation looks at the cancellation. -/
theorem AloofLeads.alike (hleads : w.AloofLeads c w₁) (hw : w.Alike c w')
    (hheedless : ∀ w₁, w.AloofLeads c w₁ → w₁.Heedless c) :
    ∃ w₁', w'.AloofLeads c w₁' ∧ w₁.Alike c w₁' := by
  induction hleads with
  | refl => exact ⟨w', .refl, hw⟩
  | tail hsteps hstep ih =>
    obtain ⟨w₁', hsteps', halike⟩ := ih
    obtain ⟨w₂', hstep', halike'⟩ := hstep.alike halike (hheedless _ hsteps)
    exact ⟨w₂', hsteps'.tail hstep', halike'⟩

/-- The other way round, the first world is the one that tells who looks at the cancellation. -/
theorem AloofLeads.alike_symm {w₁' : World} (hleads : w'.AloofLeads c w₁') (hw : w.Alike c w')
    (hheedless : ∀ w₁, w.AloofLeads c w₁ → w₁.Heedless c) :
    ∃ w₁, w.AloofLeads c w₁ ∧ w₁.Alike c w₁' := by
  induction hleads with
  | refl => exact ⟨w, .refl, hw⟩
  | tail _ hstep ih =>
    obtain ⟨w₁, hsteps, halike⟩ := ih
    obtain ⟨w₂, hstep', halike'⟩ := hstep.alike halike.symm (halike.heedless (hheedless _ hsteps))
    exact ⟨w₂, hsteps.tail hstep', halike'.symm⟩

end World

end ManagementPlane
