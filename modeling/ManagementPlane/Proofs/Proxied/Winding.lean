import ManagementPlane.Proofs.Proxied.Asleep
import ManagementPlane.Proofs.Proxied.Pursued
import ManagementPlane.Proofs.Transport.Sound
import Mathlib.Algebra.Ring.Nat

/-!
# Proofs/Proxied/Winding — operations that have prepared, and what they leave to others

An operation that has prepared, or ended, is winding up (`Execution.Winding`): it waits for its
decision, tells its participants and waits for them in turn, and each of its turns brings it closer
to its end (`Winding.nears`).  What is reserved for others stays as it is (`Reserve.Kept`).
-/

namespace ManagementPlane

/-- What is left to others: whose ends they tell, what they read of a participant, and which
forwarded steps they report to. -/
structure Reserve where
  told : Origin → Prop
  read : Origin → Prop
  heard : Nat → Prop

/-- No report waits in the exchange. -/
def Exchange.Mute (x : Exchange) : Prop := ∀ m, .message m ∉ x.events

theorem Actor.isOpen_send (a : Actor) (ticket : Nat) (r : ActorRequest) :
    (a.send ticket r).isOpen = a.isOpen := by
  rw [send]
  split <;> rfl

theorem Plane.actor_send (p : Plane) (a b : Nat) (r : ActorRequest) :
    (p.send a r).2.actor b =
      if a = b ∧ b < p.actors.length then (p.actor b).send p.sends r else p.actor b :=
  actor_modifyActor { p with sends := p.sends + 1 } a b _

namespace Reserve

/-- Nothing is left to others. -/
def nothing : Reserve := ⟨fun _ => False, fun _ => False, fun _ => False⟩

variable {R R' : Reserve} {p q r : Plane}

/-- **What is reserved is kept**, and so is what nobody changes that winds up. -/
structure Kept (R : Reserve) (p q : Plane) : Prop where
  now : q.now = p.now
  opens : ∀ a, (p.actor a).isOpen = true → (q.actor a).isOpen = true
  decided : ∀ h d, (p.handle h).decision = some d → (q.handle h).decision = some d
  forwards : p.forwards.length ≤ q.forwards.length
  listens : ∀ f, R.heard f → (p.forward f).Listens → (q.forward f).Listens
  links : p.links.length ≤ q.links.length
  offer : ∀ l, R.read (.link l) → (q.link l).offer = (p.link l).offer
  link : ∀ l, R.told (.link l) → q.link l = p.link l
  exchanges : p.exchanges.length ≤ q.exchanges.length
  exchange : ∀ e, R.told (.exchange e) → q.exchange e = p.exchange e
  events : ∀ e, R.read (.exchange e) → (p.exchange e).events <+: (q.exchange e).events
  mute : ∀ e, (p.exchange e).Mute → (q.exchange e).Mute
  tickets : p.tickets.length ≤ q.tickets.length
  ticket : ∀ t, R.told (.ticket t) → q.ticket t = p.ticket t

theorem Kept.refl (R : Reserve) (p : Plane) : R.Kept p p where
  now := rfl
  opens _ := id
  decided _ _ := id
  forwards := le_rfl
  listens _ _ := id
  links := le_rfl
  offer _ _ := rfl
  link _ _ := rfl
  exchanges := le_rfl
  exchange _ _ := rfl
  events _ _ := List.prefix_rfl
  mute _ := id
  tickets := le_rfl
  ticket _ _ := rfl

theorem Kept.trans (h : R.Kept p q) (h' : R.Kept q r) : R.Kept p r where
  now := h'.now.trans h.now
  opens a := h'.opens a ∘ h.opens a
  decided i d := h'.decided i d ∘ h.decided i d
  forwards := h.forwards.trans h'.forwards
  listens f hf := h'.listens f hf ∘ h.listens f hf
  links := h.links.trans h'.links
  offer l hl := (h'.offer l hl).trans (h.offer l hl)
  link l hl := (h'.link l hl).trans (h.link l hl)
  exchanges := h.exchanges.trans h'.exchanges
  exchange e he := (h'.exchange e he).trans (h.exchange e he)
  events e he := (h.events e he).trans (h'.events e he)
  mute e := h'.mute e ∘ h.mute e
  tickets := h.tickets.trans h'.tickets
  ticket t ht := (h'.ticket t ht).trans (h.ticket t ht)

/-- The first reserves what the second reserves. -/
structure Covers (R R' : Reserve) : Prop where
  told : ∀ o, R'.told o → R.told o
  read : ∀ o, R'.read o → R.read o
  heard : ∀ f, R'.heard f → R.heard f

theorem covers_nothing (R : Reserve) : R.Covers nothing := ⟨nofun, nofun, nofun⟩

theorem Kept.mono (h : R.Kept p q) (hR : R.Covers R') : R'.Kept p q where
  now := h.now
  opens := h.opens
  decided := h.decided
  forwards := h.forwards
  listens f hf := h.listens f (hR.heard f hf)
  links := h.links
  offer l hl := h.offer l (hR.read _ hl)
  link l hl := h.link l (hR.told _ hl)
  exchanges := h.exchanges
  exchange e he := h.exchange e (hR.told _ he)
  events e he := h.events e (hR.read _ he)
  mute := h.mute
  tickets := h.tickets
  ticket t ht := h.ticket t (hR.told _ ht)

theorem kept_setTree (R : Reserve) (p : Plane) (c : Nat) (t : Tree) : R.Kept p (p.setTree c t) :=
  { Kept.refl R p with }

theorem kept_modifyHandle (R : Reserve) (p : Plane) (h : Nat) {g : Prepared → Prepared}
    (hg : ∀ x d, x.decision = some d → (g x).decision = some d) : R.Kept p (p.modifyHandle h g) :=
  { Kept.refl R p with
    decided := fun i d hd => by
      rw [Plane.handle_modifyHandle]
      split
      · exact hg _ _ hd
      · exact hd }

theorem kept_decideAndDrop (R : Reserve) (p : Plane) (h : Nat) (d : Decision) :
    R.Kept p (p.decideAndDrop h d) :=
  { Kept.refl R p with
    decided := fun i d' hd => by
      rw [Plane.handle_decideAndDrop]
      split
      · show ((p.handle i).resolve d).2.decision = some d'
        rw [Prepared.decision_resolve, hd]
        rfl
      · exact hd }

theorem kept_modifyForward {f : Nat} {g : Forward → Forward}
    (hg : R.heard f → ∀ x : Forward, x.Listens → (g x).Listens) : R.Kept p (p.modifyForward f g) :=
  { Kept.refl R p with
    forwards := (List.length_modify _ _ _).ge
    listens := fun i hi h => by
      rw [Plane.forward_modifyForward]
      split
      · next heq =>
        obtain ⟨rfl, -⟩ := heq
        exact hg hi _ h
      · exact h }

theorem kept_completeForward (R : Reserve) (p : Plane) (f : Nat) (response : Value) :
    R.Kept p (p.completeForward f response) :=
  kept_modifyForward fun _ _ h => ⟨h.silent, h.listening⟩

theorem kept_modifyActor (R : Reserve) (p : Plane) (a : Nat) {g : Actor → Actor}
    (hg : (p.actor a).isOpen = true → (g (p.actor a)).isOpen = true) :
    R.Kept p (p.modifyActor a g) :=
  { Kept.refl R p with
    opens := fun b hb => by
      rw [Plane.actor_modifyActor]
      split
      · next h =>
        obtain ⟨rfl, -⟩ := h
        exact hg hb
      · exact hb }

theorem kept_send (R : Reserve) (p : Plane) (a : Nat) (r : ActorRequest) :
    R.Kept p (p.send a r).2 :=
  { Kept.refl R p with
    opens := fun b hb => by
      rw [Plane.actor_send]
      split
      · rwa [Actor.isOpen_send]
      · exact hb }

/-- Who does not read an exchange may not tell on it, and may make it forget. -/
theorem kept_modifyExchange {e : Nat} (htold : ¬R.told (.exchange e))
    (hread : ¬R.read (.exchange e))
    (p : Plane) {g : Exchange → Exchange} (hg : ((p.exchange e).Mute → (g (p.exchange e)).Mute)) :
    R.Kept p (p.modifyExchange e g) := by
  have hother : ∀ i, (e = i → False) → (p.modifyExchange e g).exchange i = p.exchange i := by
    intro i hi
    rw [Plane.exchange_modifyExchange, if_neg fun h => hi h.1]
  exact { Kept.refl R p with
    exchanges := (List.length_modify _ _ _).ge
    exchange := fun i hi => hother i (by rintro rfl; exact htold hi)
    events := fun i hi => by
      rw [hother i (by rintro rfl; exact hread hi)]
    mute := fun i hi => by
      rw [Plane.exchange_modifyExchange]
      split
      · next h =>
        obtain ⟨rfl, -⟩ := h
        exact hg hi
      · exact hi }

theorem kept_modifyLink {l : Nat} (htold : ¬R.told (.link l)) (hread : ¬R.read (.link l))
    (p : Plane) (g : Link → Link) : R.Kept p (p.modifyLink l g) := by
  have hother : ∀ i, (l = i → False) → (p.modifyLink l g).link i = p.link i := by
    intro i hi
    rw [Plane.link_modifyLink, if_neg fun h => hi h.1]
  exact { Kept.refl R p with
    links := (List.length_modify _ _ _).ge
    offer := fun i hi => by rw [hother i (by rintro rfl; exact hread hi)]
    link := fun i hi => hother i (by rintro rfl; exact htold hi) }

theorem kept_newHandle (R : Reserve) (p : Plane) : R.Kept p (p.newHandle {}).2 :=
  { Kept.refl R p with
    decided := fun i d hd => by
      rw [Plane.handle_newHandle]
      split
      · next hi =>
        subst hi
        rw [Plane.handle, List.getElem?_eq_none le_rfl] at hd
        cases hd
      · exact hd }

theorem kept_newForward (R : Reserve) (p : Plane) : R.Kept p p.newForward.2 :=
  { Kept.refl R p with
    forwards := by
      rw [Plane.newForward, List.length_append]
      exact Nat.le_add_right _ _
    listens := fun f _ h => by rwa [Plane.forward_newForward] }

theorem kept_newLink (R : Reserve) (p : Plane) : R.Kept p p.newLink.2 := by
  have hlink : ∀ l, p.newLink.2.link l = p.link l := fun l => Plane.getD_append_default _ _ _
  exact { Kept.refl R p with
    links := by
      rw [Plane.newLink, List.length_append]
      exact Nat.le_add_right _ _
    offer := fun l _ => by rw [hlink]
    link := fun l _ => hlink l }

/-- A new exchange is empty, and nobody tells on it yet. -/
theorem kept_newExchange (htold : ¬R.told (.exchange p.exchanges.length)) (number : Nat) :
    R.Kept p (p.newExchange number).2 := by
  have hexchange : ∀ e, e ≠ p.exchanges.length →
      (p.newExchange number).2.exchange e = p.exchange e := by
    intro e he
    exact (Plane.getD_append _ _ _ _).trans (if_neg he)
  have hnew : (p.newExchange number).2.exchange p.exchanges.length = { number } :=
    (Plane.getD_append _ _ _ _).trans (if_pos rfl)
  have hnone : p.exchange p.exchanges.length = {} := by
    rw [Plane.exchange, List.getElem?_eq_none le_rfl]
    rfl
  exact { Kept.refl R p with
    exchanges := by
      rw [Plane.newExchange, List.length_append]
      exact Nat.le_add_right _ _
    exchange := fun e he => hexchange e (by rintro rfl; exact htold he)
    events := fun e _ => by
      by_cases he : e = p.exchanges.length
      · rw [he, hnone]
        exact List.nil_prefix
      · rw [hexchange e he]
    mute := fun e h => by
      by_cases he : e = p.exchanges.length
      · rw [he, hnew]
        rintro _ ⟨⟩
      · rwa [hexchange e he] }

/-- **Whoever tells its own end** keeps what is reserved. -/
theorem kept_tell {o : Origin} (ho : ¬R.told o) (p : Plane) (answer : Answer) :
    R.Kept p (o.tell p answer) := by
  cases o with
  | ticket t =>
    obtain ⟨g, htell⟩ : ∃ g, (Origin.ticket t).tell p answer = p.modifyTicket t g := ⟨_, rfl⟩
    rw [htell]
    exact { Kept.refl R p with
      tickets := (List.length_modify _ _ _).ge
      ticket := fun i hi => by
        rw [Plane.ticket_modifyTicket, if_neg]
        rintro ⟨rfl, -⟩
        exact ho hi }
  | link l =>
    obtain ⟨g, hg, htell⟩ : ∃ g, (∀ x : Link, (g x).offer = x.offer) ∧
        (Origin.link l).tell p answer = p.modifyLink l g := ⟨_, fun _ => rfl, rfl⟩
    rw [htell]
    exact { Kept.refl R p with
      links := (List.length_modify _ _ _).ge
      offer := fun i _ => by
        rw [Plane.link_modifyLink]
        split
        · exact hg _
        · rfl
      link := fun i hi => by
        rw [Plane.link_modifyLink, if_neg]
        rintro ⟨rfl, -⟩
        exact ho hi }
  | exchange e =>
    obtain ⟨response, htell⟩ : ∃ response, (Origin.exchange e).tell p answer =
        p.modifyExchange e fun x => (x.send (.completed response)).close := ⟨_, rfl⟩
    rw [htell]
    exact { Kept.refl R p with
      exchanges := (List.length_modify _ _ _).ge
      exchange := fun i hi => by
        rw [Plane.exchange_modifyExchange, if_neg]
        rintro ⟨rfl, -⟩
        exact ho hi
      events := fun i hi => by
        rw [Plane.exchange_modifyExchange]
        split
        · rw [Exchange.close, Exchange.send]
          split
          · exact List.prefix_append _ _
          · exact List.prefix_rfl
        · exact List.prefix_rfl
      mute := fun i hi => by
        rw [Plane.exchange_modifyExchange]
        split
        · intro m
          rw [Exchange.close, Exchange.send]
          split
          · simpa using hi m
          · exact hi m
        · exact hi }

end Reserve

/-! ## Operations that wind up -/

namespace Execution

variable {p : Plane} {x : Execution} {R : Reserve}

/-- The pipeline of the operation is through, with nothing staged, and the steps that completed have
only decisions to pass on. -/
structure Winding (x : Execution) : Prop where
  phase : (∃ h due, x.phase = .deciding h due) ∨ (∃ e, x.Closes e) ∨
    ∃ answer, x.phase = .ended answer
  unstaged : x.context.transaction.staging = none
  decisions : ∀ c ∈ x.context.completed, ∃ h, c = .decide h

/-- How many turns are left, with one more for the event that tells the end. -/
def remaining (x : Execution) : Nat :=
  match x.phase with
  | .deciding _ _ => x.context.completed.length + 2 * x.context.completions.length + 6
  | .unwinding _ => x.context.completed.length + 2 * x.context.completions.length + 5
  | .draining none _ => 2 * x.context.completions.length + 4
  | .draining (some _) _ => 2 * x.context.completions.length + 3
  | _ => 2

/-- **A turn that gets an operation closer to its end**, and leaves everything else alone. -/
structure Nears (R : Reserve) (p : Plane) (x : Execution) (q : Plane) (y : Execution) : Prop where
  turn : x.advance p = { plane := q, next := .going y }
  winding : y.Winding
  remaining : y.remaining < x.remaining
  kept : R.Kept p q
  actors : q.actors = p.actors
  exchanges : q.exchanges = p.exchanges
  tickets : q.tickets = p.tickets

theorem Winding.apply (h : x.Winding) {i : Nat} {due : Option Nat}
    (hphase : x.phase = .deciding i due) {d : Decision}
    (hturn : x.advance p = Execution.apply p x i d) : ∃ q y, x.Nears R p q y := by
  have hleft : R.Kept p (p.modifyHandle i Prepared.leave) :=
    Reserve.kept_modifyHandle R p i fun _ _ => id
  have hfinished : ∀ {e : Ending}, x.advance p =
      { plane := (p.modifyHandle i Prepared.leave).setTree x.controller
          (x.context.transaction.finish ((p.modifyHandle i Prepared.leave).tree x.controller)).1
        next := .going { x.withTransaction (x.context.transaction.finish
          ((p.modifyHandle i Prepared.leave).tree x.controller)).2 with phase := .unwinding e } } →
      ∃ q y, x.Nears R p q y := by
    intro e hturn
    refine ⟨_, _, hturn, ⟨.inr (.inl ⟨e, .inl rfl⟩), Transaction.staging_finish _ _,
      h.decisions⟩, ?_, hleft.trans (Reserve.kept_setTree R _ _ _), rfl, rfl, rfl⟩
    rw [remaining, remaining, hphase]
    exact Nat.lt_succ_self _
  rw [Execution.apply.eq_def] at hturn
  cases d with
  | keep =>
    dsimp only at hturn
    rw [Transaction.commit, h.unstaged] at hturn
    exact hfinished hturn
  | rollback => exact hfinished hturn

/-- **Winding up** is to sleep or to get closer to the end. -/
theorem Winding.nears (h : x.Winding) (hopen : ∀ answer, x.phase ≠ .ended answer) :
    (∃ y, (x.advance p).next = .blocked y) ∨ ∃ q y, x.Nears R p q y := by
  rcases h.phase with ⟨i, due, hphase⟩ | ⟨e, hphase | ⟨due, hphase⟩⟩ | ⟨answer, hphase⟩
  · have hadvance : x.advance p = decide p x i due := by rw [advance, hphase]
    rw [decide.eq_def] at hadvance
    split at hadvance
    · exact .inr (h.apply hphase hadvance)
    · split at hadvance
      · split at hadvance
        · exact .inr (h.apply hphase hadvance)
        · exact .inl ⟨x, by rw [hadvance]⟩
      · exact .inl ⟨x, by rw [hadvance]⟩
  · have hadvance : x.advance p = unwind p x e := by rw [advance, hphase]
    rw [unwind.eq_def] at hadvance
    right
    split at hadvance
    · next hcompleted =>
      have hdrained : ∀ {q : Plane} {t : Transaction}, t.staging = none → R.Kept p q →
          q.actors = p.actors → q.exchanges = p.exchanges → q.tickets = p.tickets →
          x.advance p = { plane := q
                          next := .going { x.withTransaction t with phase := .draining none e } } →
          ∃ q y, x.Nears R p q y := by
        intro q t ht hq hactors hexchanges htickets hadvance
        refine ⟨_, _, hadvance, ⟨.inr (.inl ⟨e, .inr ⟨none, rfl⟩⟩), ht, ?_⟩, ?_, hq, hactors,
          hexchanges, htickets⟩
        · exact h.decisions
        · rw [remaining, remaining, hphase]
          show 2 * x.context.completions.length + 4 < _
          dsimp only
          omega
      rw [unwound.eq_def] at hadvance
      cases e with
      | kept => exact hdrained h.unstaged (.refl R p) rfl rfl rfl hadvance
      | rolledBack failure => exact hdrained h.unstaged (.refl R p) rfl rfl rfl hadvance
      | failed =>
        exact hdrained (Transaction.staging_finish _ _) (Reserve.kept_setTree R p _ _) rfl rfl rfl
          hadvance
      | fatal reason =>
        have hreload : R.Kept p (p.changeProcess x.controller .reload) :=
          { Reserve.Kept.refl R p with }
        exact hdrained (Transaction.staging_finish _ _)
          (hreload.trans (Reserve.kept_setTree R _ _ _))
          rfl rfl rfl hadvance
    · next c rest hcompleted =>
      obtain ⟨⟨i, rfl⟩, hrest⟩ := List.forall_mem_cons.mp (hcompleted ▸ h.decisions)
      refine ⟨p.decideAndDrop i e.decision,
        { x with context := { x.context with completed := rest } },
        hadvance, ⟨.inr (.inl ⟨e, .inl hphase⟩), h.unstaged, hrest⟩, ?_,
        Reserve.kept_decideAndDrop R p _ _, rfl, rfl, rfl⟩
      rw [remaining, remaining, hphase, hcompleted]
      dsimp only [List.length_cons]
      omega
  · have hadvance : x.advance p = drain p x due e := by rw [advance, hphase]
    have hgone : ∀ {l : List Nat} {phase : Phase},
        ((∃ due, phase = .draining due e) ∨ ∃ answer, phase = .ended answer) →
        ({ x with context := { x.context with completions := l }, phase } : Execution).remaining <
          x.remaining →
        x.advance p = { plane := p
                        next := .going { x with
                          context := { x.context with completions := l }, phase } } →
        ∃ q y, x.Nears R p q y := by
      intro l phase hnext hremaining hadvance
      refine ⟨_, _, hadvance, ⟨?_, h.unstaged, h.decisions⟩, hremaining, .refl R p, rfl, rfl, rfl⟩
      rcases hnext with ⟨due, rfl⟩ | ⟨answer, rfl⟩
      · exact .inr (.inl ⟨e, .inr ⟨due, rfl⟩⟩)
      · exact .inr (.inr ⟨answer, rfl⟩)
    rw [drain] at hadvance
    dsimp only at hadvance
    split at hadvance
    · refine .inr (hgone (l := x.context.completions) (.inr ⟨_, rfl⟩) ?_ hadvance)
      rw [remaining, remaining, hphase]
      cases due <;> dsimp only <;> omega
    · next f rest hcompletions =>
      have hnone : ({ x with
          context := { x.context with completions := rest }
          phase := .draining none e } : Execution).remaining < x.remaining := by
        rw [remaining, remaining, hphase, hcompletions]
        cases due <;> dsimp only [List.length_cons] <;> omega
      split at hadvance
      · exact .inr (hgone (.inl ⟨none, rfl⟩) hnone hadvance)
      · split at hadvance
        · refine .inr (hgone (l := x.context.completions) (.inl ⟨_, rfl⟩) ?_ hadvance)
          rw [remaining, remaining, hphase]
          exact Nat.lt_succ_self _
        · split at hadvance
          · exact .inr (hgone (.inl ⟨none, rfl⟩) hnone hadvance)
          · exact .inl ⟨x, by rw [hadvance]⟩
  · exact absurd hphase (hopen answer)

end Execution

/-! ## Tasks that wind up -/

def Follow.remaining : Follow → Nat
  | .deciding _ => 5
  | .sending _ _ => 3
  | .replying _ => 2
  | .finishing => 1

/-- Whether the request is a decision. -/
def ActorRequest.decides : ActorRequest → Bool
  | .resolve .. => true
  | .execute .. => false

namespace Task

variable {R R' : Reserve} {p q : Plane} {t : Task}

def weight : Task → Nat
  | operation stack _ => (stack.map Execution.remaining).sum
  | relay _ _ => 1
  | follow _ _ _ _ state => state.remaining
  | _ => 0

/-- Whether the task follows an exchange of the actor. -/
def follows (a : Nat) : Task → Bool
  | follow b _ _ _ _ => b = a
  | _ => false

/-- **A task that winds up**, and keeps off what is reserved. -/
inductive Winding (R : Reserve) (p : Plane) : Task → Prop
  | operation {x : Execution} {o : Origin} (hx : x.Winding) (ho : ¬R.told o) :
    Winding R p (.operation [x] o)
  | relay (l f : Nat) : Winding R p (.relay l f)
  | follow {a e f : Nat} {sink : Sink} {state : Follow} (htold : ¬R.told (.exchange e))
      (hread : ¬R.read (.exchange e)) (hmute : (p.exchange e).Mute) :
      Winding R p (.follow a e f sink state)
  | serve (a : Nat) : Winding R p (.serve a)

theorem Winding.around (h : t.Winding R p)
    (hmute : ∀ e, (p.exchange e).Mute → (q.exchange e).Mute) : t.Winding R q := by
  cases h with
  | operation hx ho => exact .operation hx ho
  | relay l f => exact .relay l f
  | follow htold hread h => exact .follow htold hread (hmute _ h)
  | serve a => exact .serve a

theorem Winding.mono (h : t.Winding R p) (hR : R.Covers R') : t.Winding R' p := by
  cases h with
  | operation hx ho => exact .operation hx fun h => ho (hR.told _ h)
  | relay l f => exact .relay l f
  | follow htold hread hmute =>
    exact .follow (fun h => htold (hR.told _ h)) (fun h => hread (hR.read _ h)) hmute
  | serve a => exact .serve a

end Task

end ManagementPlane
