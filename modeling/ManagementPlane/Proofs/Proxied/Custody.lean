import ManagementPlane.Proofs.Machine.Turns

/-!
# Proofs/Proxied/Custody — where the handles of prepared operations lie

A handle that was created lies in one place at most: it was reported to a forwarded step, is offered
over a link, or is kept by a caller or an actor (`Plane.handlesAt`).  In a `Plane.Tidy` plane a
report is either the outcome of its step or was rolled back when it came.

`Plane.Moves heard p q` is what everything but a parent that tells its own participants does to a
tidy plane: it stays tidy, decisions are final, a handle that some step has accepted is left alone,
and only a step in `heard` that still listens gets an outcome.
-/

namespace ManagementPlane

/-- A place where handles lie. -/
inductive Place
  | reports (forward : Nat)
  | offer (link : Nat)
  | ticket (id : Nat)
  | actor (id : Nat)
  deriving DecidableEq

/-- Whether what lies there has been handed to nobody who forwards an operation. -/
def Place.isPrivate : Place → Bool
  | ticket _ | actor _ => true
  | _ => false

/-- The handle that an enrollment brings. -/
def Enrollment.handle? : Enrollment → Option Nat
  | prepared _ handle => some handle
  | withdrawn _ => none

/-- The handles that an actor was given and has not decided. -/
def Actor.handles (a : Actor) : List Nat :=
  a.enrollments.filterMap Enrollment.handle? ++ a.pending.map Prod.snd

/-- Nobody has decided, and nobody but its holder can. -/
structure Prepared.Untouched (h : Prepared) : Prop where
  undecided : h.decision = none
  single : h.clones ≤ 1

/-- The next outcome that is reported will be heard. -/
structure Forward.Listens (f : Forward) : Prop where
  silent : f.reports = []
  listening : f.listening = true

/-- The second forward is the first one, but may have stopped to listen. -/
structure Forward.Eases (f g : Forward) : Prop where
  reports : g.reports = f.reports
  outcome : g.outcome = f.outcome
  listening : g.listening = true → f.listening = true

/-- The first decision stands. -/
@[simp] theorem Prepared.decision_resolve (h : Prepared) (d : Decision) :
    (h.resolve d).2.decision = some (h.decision.getD d) := by
  rw [resolve]
  split
  · rename_i e he
    rw [he]
    rfl
  · rename_i he
    rw [he]
    rfl

@[simp] theorem Prepared.clones_resolve (h : Prepared) (d : Decision) :
    (h.resolve d).2.clones = h.clones := by
  rw [resolve]
  split <;> rfl

theorem Forward.Eases.refl (f : Forward) : f.Eases f := ⟨rfl, rfl, id⟩

theorem Forward.Eases.trans {f g k : Forward} (h : f.Eases g) (h' : g.Eases k) : f.Eases k :=
  ⟨h'.reports.trans h.reports, h'.outcome.trans h.outcome, h.listening ∘ h'.listening⟩

/-- To abandon a forwarded step gives its claim to an outcome up. -/
theorem Forward.eases_abandon (f : Forward) : f.Eases f.abandon := ⟨rfl, rfl, by rintro ⟨⟩⟩

theorem Forward.eases_release (f : Forward) : f.Eases f.release := ⟨rfl, rfl, id⟩

/-- A response comes behind the outcome. -/
theorem Forward.eases_complete (f : Forward) (response : Value) : f.Eases (f.complete response) :=
  ⟨rfl, rfl, id⟩

namespace Plane

/-- The handles that lie in a place. -/
def handlesAt (p : Plane) : Place → List Nat
  | .reports f => (p.forward f).reports.filterMap Outcome.handle?
  | .offer l => ((p.link l).offer.map Prod.fst).toList
  | .ticket t => ((p.ticket t).prepared.map Prod.fst).toList
  | .actor a => (p.actor a).handles

/-- The step is there, and the next outcome that is reported to it will be heard. -/
def Listens (p : Plane) (f : Nat) : Prop := f < p.forwards.length ∧ (p.forward f).Listens

/-- The step took the handle for its outcome. -/
def Accepts (p : Plane) (f h : Nat) : Prop := ∃ r, (p.forward f).outcome = some (.prepared h r)

/-- Every handle that is kept somewhere belongs to the plane, and is kept in one place only. -/
structure Tidy (p : Plane) : Prop where
  bounded : ∀ {k h}, h ∈ p.handlesAt k → h < p.handles.length
  apart : ∀ {k k' h}, h ∈ p.handlesAt k → h ∈ p.handlesAt k' → k = k'
  nodup : ∀ f, (p.handlesAt (.reports f)).Nodup
  /-- The outcome of a step is the first report. -/
  first : ∀ {f o}, (p.forward f).outcome = some o → (p.forward f).reports.head? = some o
  /-- A handle that was reported and not accepted is rolled back. -/
  refused : ∀ {f h r}, .prepared h r ∈ (p.forward f).reports →
    (p.forward f).outcome ≠ some (.prepared h r) → (p.handle h).decision = some .rollback
  offered : ∀ {l h}, h ∈ p.handlesAt (.offer l) → (p.handle h).Untouched

/-- What happens to forwarded steps and to handles, unless a step tells a participant of its own;
only the steps in `heard` get outcomes. -/
structure Leads (heard : Nat → Prop) (p q : Plane) : Prop where
  count : p.forwards.length ≤ q.forwards.length
  firm : ∀ {h d}, (p.handle h).decision = some d → (q.handle h).decision = some d
  /-- No handle is cloned. -/
  uncloned : ∀ h, (q.handle h).clones ≤ (p.handle h).clones
  reports : ∀ f, (p.forward f).reports <+: (q.forward f).reports
  outcome : ∀ {f o}, (p.forward f).outcome = some o → (q.forward f).outcome = some o
  unheard : ∀ {f}, ¬ heard f → (q.forward f).outcome = (p.forward f).outcome
  /-- A handle that a step has accepted is left alone. -/
  still : ∀ {f h}, p.Accepts f h → (q.handle h).decision = (p.handle h).decision ∧
    (q.handle h).clones = (p.handle h).clones
  /-- A handle is accepted only by a step that listens, and it comes untouched. -/
  accepted : ∀ {f h}, q.Accepts f h → p.Accepts f h ∨
    heard f ∧ p.Listens f ∧ (q.handle h).Untouched
  /-- A step that does not listen will not listen again. -/
  closed : ∀ {f}, q.Listens f → p.Listens f

/-- **A move of the machine** that tells no participant what its step has decided. -/
def Moves (heard : Nat → Prop) (p q : Plane) : Prop := p.Tidy → q.Tidy ∧ Leads heard p q

variable {heard : Nat → Prop} {p q r : Plane}

/-! ## Moves compose -/

theorem Leads.refl (p : Plane) : Leads heard p p where
  count := le_rfl
  firm := id
  uncloned _ := le_rfl
  reports _ := List.prefix_rfl
  outcome := id
  unheard _ := rfl
  still _ := ⟨rfl, rfl⟩
  accepted := Or.inl
  closed := id

/-- A forwarded step goes on accepting a handle that it may hear of. -/
theorem Leads.accepts {f h : Nat} (hl : Leads heard p q) (ha : p.Accepts f h) : q.Accepts f h := by
  obtain ⟨r, hr⟩ := ha
  exact ⟨r, hl.outcome hr⟩

/-- A handle that only a forwarded step knows stays untouched until it is heard. -/
theorem Leads.untouched {f h : Nat} (hl : Leads heard p q) (ha : p.Accepts f h)
    (hh : (p.handle h).Untouched) : (q.handle h).Untouched := by
  obtain ⟨hdecision, hclones⟩ := hl.still ha
  exact ⟨hdecision.trans hh.undecided, hclones ▸ hh.single⟩

/-- One way after another. -/
theorem Leads.trans (h : Leads heard p q) (h' : Leads heard q r) : Leads heard p r where
  count := h.count.trans h'.count
  firm hd := h'.firm (h.firm hd)
  uncloned i := (h'.uncloned i).trans (h.uncloned i)
  reports f := (h.reports f).trans (h'.reports f)
  outcome ho := h'.outcome (h.outcome ho)
  unheard hf := (h'.unheard hf).trans (h.unheard hf)
  still ha := by
    obtain ⟨hdecision, hclones⟩ := h.still ha
    obtain ⟨hdecision', hclones'⟩ := h'.still (h.accepts ha)
    exact ⟨hdecision'.trans hdecision, hclones'.trans hclones⟩
  accepted ha := by
    rcases h'.accepted ha with hq | ⟨hf, hlistens, hfresh⟩
    · rcases h.accepted hq with hp | ⟨hf, hlistens, hfresh⟩
      · exact .inl hp
      · exact .inr ⟨hf, hlistens, h'.untouched hq hfresh⟩
    · exact .inr ⟨hf, h.closed hlistens, hfresh⟩
  closed hl := h.closed (h'.closed hl)

theorem Leads.mono {heard' : Nat → Prop} (h : Leads heard p q) (hf : ∀ f, heard f → heard' f) :
    Leads heard' p q where
  count := h.count
  firm := h.firm
  uncloned := h.uncloned
  reports := h.reports
  outcome := h.outcome
  unheard hn := h.unheard fun hh => hn (hf _ hh)
  still := h.still
  accepted ha := (h.accepted ha).imp_right fun ⟨hh, hrest⟩ => ⟨hf _ hh, hrest⟩
  closed := h.closed

theorem Moves.refl (p : Plane) : Moves heard p p := fun hp => ⟨hp, .refl p⟩

/-- The second move may assume what the first one has left tidy. -/
theorem Moves.bind (h : Moves heard p q) (h' : p.Tidy → Moves heard q r) : Moves heard p r := by
  intro hp
  obtain ⟨hq, hleads⟩ := h hp
  obtain ⟨hr, hleads'⟩ := h' hp hq
  exact ⟨hr, hleads.trans hleads'⟩

theorem Moves.trans (h : Moves heard p q) (h' : Moves heard q r) : Moves heard p r :=
  h.bind fun _ => h'

theorem Moves.mono {heard' : Nat → Prop} (h : Moves heard p q) (hf : ∀ f, heard f → heard' f) :
    Moves heard' p q := fun hp => ⟨(h hp).1, (h hp).2.mono hf⟩

/-! ## Entries after a change -/

theorem getD_append {α : Type} (l : List α) (a d : α) (j : Nat) :
    ((l ++ [a])[j]?).getD d = if j = l.length then a else l[j]?.getD d := by
  rcases Nat.lt_trichotomy j l.length with hj | rfl | hj
  · rw [List.getElem?_append_left hj, if_neg hj.ne]
  · simp
  · rw [List.getElem?_eq_none (by simp; omega), List.getElem?_eq_none hj.le, if_neg hj.ne']

/-- Entries that are not there yet count as if they had just been added. -/
theorem getD_append_default {α : Type} (l : List α) (d : α) (j : Nat) :
    ((l ++ [d])[j]?).getD d = l[j]?.getD d := by
  rw [getD_append]
  split
  · rename_i hj
    simp [hj]
  · rfl

theorem forward_newForward (p : Plane) (f : Nat) : p.newForward.2.forward f = p.forward f :=
  getD_append_default ..

/-- A change of one handle spares the others. -/
theorem handle_modifyHandle (p : Plane) (h i : Nat) (g : Prepared → Prepared) :
    (p.modifyHandle h g).handle i =
      if h = i ∧ i < p.handles.length then g (p.handle i) else p.handle i := getD_modify ..

theorem forward_modifyForward (p : Plane) (f i : Nat) (g : Forward → Forward) :
    (p.modifyForward f g).forward i =
      if f = i ∧ i < p.forwards.length then g (p.forward i) else p.forward i := getD_modify ..

theorem link_modifyLink (p : Plane) (l i : Nat) (g : Link → Link) :
    (p.modifyLink l g).link i = if l = i ∧ i < p.links.length then g (p.link i) else p.link i :=
  getD_modify ..

theorem ticket_modifyTicket (p : Plane) (t i : Nat) (g : Ticket → Ticket) :
    (p.modifyTicket t g).ticket i =
      if t = i ∧ i < p.tickets.length then g (p.ticket i) else p.ticket i := getD_modify ..

theorem actor_modifyActor (p : Plane) (a i : Nat) (g : Actor → Actor) :
    (p.modifyActor a g).actor i =
      if a = i ∧ i < p.actors.length then g (p.actor i) else p.actor i :=
  getD_modify ..

/-- A new handle comes behind all others. -/
theorem handle_newHandle (p : Plane) (record : Prepared) (i : Nat) :
    (p.newHandle record).2.handle i = if i = p.handles.length then record else p.handle i :=
  getD_append ..

/-! ## Changes that touch no handle -/

/-- Handles stay as they are and where they are, or are lost; nothing is reported. -/
structure Eases (p q : Plane) : Prop where
  handles : q.handles.length = p.handles.length
  forwards : q.forwards.length = p.forwards.length
  decision : ∀ h, (q.handle h).decision = (p.handle h).decision
  clones : ∀ h, (q.handle h).clones = (p.handle h).clones
  forward : ∀ f, (p.forward f).Eases (q.forward f)
  offer : ∀ l, (q.link l).offer = (p.link l).offer ∨ (q.link l).offer = none
  ticket : ∀ t, (q.ticket t).prepared = (p.ticket t).prepared ∨ (q.ticket t).prepared = none
  actor : ∀ a, (q.actor a).handles ⊆ (p.actor a).handles

/-- A change of something else. -/
theorem eases_of_same {p q : Plane} (hhandles : q.handles = p.handles)
    (hforwards : q.forwards = p.forwards) (hlinks : q.links = p.links)
    (htickets : q.tickets = p.tickets) (hactors : q.actors = p.actors) : p.Eases q where
  handles := congrArg List.length hhandles
  forwards := congrArg List.length hforwards
  decision h := by rw [handle, hhandles, handle]
  clones h := by rw [handle, hhandles, handle]
  forward f := by
    rw [Plane.forward, Plane.forward, hforwards]
    exact .refl _
  offer l := .inl (by rw [link, hlinks, link])
  ticket t := .inl (by rw [Plane.ticket, htickets, Plane.ticket])
  actor a := by
    rw [Plane.actor, hactors]
    exact List.Subset.refl _

theorem Retains.eases (h : p.Retains q) : p.Eases q :=
  eases_of_same h.handles h.forwards h.links h.tickets h.actors

theorem Eases.refl (p : Plane) : p.Eases p := (Retains.refl p).eases

/-- One change after another. -/
theorem Eases.trans (h : p.Eases q) (h' : q.Eases r) : p.Eases r where
  handles := h'.handles.trans h.handles
  forwards := h'.forwards.trans h.forwards
  decision i := (h'.decision i).trans (h.decision i)
  clones i := (h'.clones i).trans (h.clones i)
  forward f := (h.forward f).trans (h'.forward f)
  offer l := (h'.offer l).elim (fun hl => hl ▸ h.offer l) .inr
  ticket t := (h'.ticket t).elim (fun ht => ht ▸ h.ticket t) .inr
  actor a := List.Subset.trans (h'.actor a) (h.actor a)

section Eases

variable (h : p.Eases q)

include h

theorem Eases.same (hhandles : r.handles = q.handles) (hforwards : r.forwards = q.forwards)
    (hlinks : r.links = q.links) (htickets : r.tickets = q.tickets)
    (hactors : r.actors = q.actors) : p.Eases r :=
  h.trans (eases_of_same hhandles hforwards hlinks htickets hactors)

/-- A handle may change, but for its decision and its clones. -/
theorem Eases.modifyHandle (i : Nat) {g : Prepared → Prepared}
    (hdecision : ∀ x, (g x).decision = x.decision) (hclones : ∀ x, (g x).clones = x.clones) :
    p.Eases (q.modifyHandle i g) := by
  refine h.trans { eases_of_same (p := q) rfl rfl rfl rfl rfl with
    handles := List.length_modify _ _ _
    decision := fun j => ?_
    clones := fun j => ?_ }
  · rw [handle_modifyHandle]
    split
    · exact hdecision _
    · rfl
  · rw [handle_modifyHandle]
    split
    · exact hclones _
    · rfl

/-- A forwarded step may be given up. -/
theorem Eases.modifyForward (i : Nat) {g : Forward → Forward} (hg : ∀ x : Forward, x.Eases (g x)) :
    p.Eases (q.modifyForward i g) := by
  refine h.trans { eases_of_same (p := q) rfl rfl rfl rfl rfl with
    forwards := List.length_modify _ _ _
    forward := fun f => ?_ }
  rw [forward_modifyForward]
  split
  · exact hg _
  · exact .refl _

/-- A link may lose its offer. -/
theorem Eases.modifyLink (i : Nat) {g : Link → Link}
    (hg : ∀ x, (g x).offer = x.offer ∨ (g x).offer = none) : p.Eases (q.modifyLink i g) := by
  refine h.trans { eases_of_same (p := q) rfl rfl rfl rfl rfl with offer := fun l => ?_ }
  rw [link_modifyLink]
  split
  · exact hg _
  · exact .inl rfl

/-- A ticket may change, but for what it holds. -/
theorem Eases.modifyTicket (i : Nat) {g : Ticket → Ticket}
    (hg : ∀ x, (g x).prepared = x.prepared) : p.Eases (q.modifyTicket i g) := by
  refine h.trans { eases_of_same (p := q) rfl rfl rfl rfl rfl with ticket := fun t => .inl ?_ }
  rw [ticket_modifyTicket]
  split
  · exact hg _
  · rfl

/-- An actor may lose handles. -/
theorem Eases.modifyActor (i : Nat) {g : Actor → Actor}
    (hg : (g (q.actor i)).handles ⊆ (q.actor i).handles) : p.Eases (q.modifyActor i g) := by
  refine h.trans { eases_of_same (p := q) rfl rfl rfl rfl rfl with actor := fun a => ?_ }
  rw [actor_modifyActor]
  split
  · rename_i ha
    obtain ⟨rfl, -⟩ := ha
    exact hg
  · exact List.Subset.refl _

theorem Eases.newLink : p.Eases q.newLink.2 :=
  h.trans { eases_of_same (p := q) rfl rfl rfl rfl rfl with
    offer := fun _ => .inl (congrArg Link.offer (getD_append_default ..)) }

end Eases

/-- Nobody gets a handle that was not there. -/
theorem Eases.handlesAt (h : p.Eases q) (k : Place) : q.handlesAt k ⊆ p.handlesAt k := by
  cases k with
  | reports f =>
    rw [Plane.handlesAt, (h.forward f).reports]
    exact List.Subset.refl _
  | offer l => rcases h.offer l with hl | hl <;> simp [Plane.handlesAt, hl]
  | ticket t => rcases h.ticket t with ht | ht <;> simp [Plane.handlesAt, ht]
  | actor a => exact h.actor a

/-- **What touches no handle is a move.** -/
theorem Eases.moves (h : p.Eases q) : Moves heard p q := by
  intro hp
  constructor
  · constructor
    · intro k i hi
      exact h.handles ▸ hp.bounded (h.handlesAt k hi)
    · intro k k' i hi hi'
      exact hp.apart (h.handlesAt k hi) (h.handlesAt k' hi')
    · intro f
      rw [Plane.handlesAt, (h.forward f).reports]
      exact hp.nodup f
    · intro f o ho
      rw [(h.forward f).outcome] at ho
      rw [(h.forward f).reports]
      exact hp.first ho
    · intro f i r hi ho
      rw [(h.forward f).reports] at hi
      rw [(h.forward f).outcome] at ho
      exact (h.decision i).trans (hp.refused hi ho)
    · intro l i hi
      obtain ⟨hdecision, hclones⟩ := hp.offered (h.handlesAt _ hi)
      exact ⟨(h.decision i).trans hdecision, h.clones i ▸ hclones⟩
  · constructor
    · exact h.forwards.ge
    · intro i d hd
      exact (h.decision i).trans hd
    · exact fun i => (h.clones i).le
    · intro f
      rw [(h.forward f).reports]
    · intro f o ho
      exact (h.forward f).outcome.trans ho
    · intro f _
      exact (h.forward f).outcome
    · intro f i _
      exact ⟨h.decision i, h.clones i⟩
    · rintro f i ⟨r, hr⟩
      exact .inl ⟨r, (h.forward f).outcome.symm.trans hr⟩
    · rintro f ⟨hf, hsilent, hlistening⟩
      exact ⟨h.forwards ▸ hf, (h.forward f).reports.symm.trans hsilent,
        (h.forward f).listening hlistening⟩

theorem Moves.same (h : Moves heard p q) (hhandles : r.handles = q.handles)
    (hforwards : r.forwards = q.forwards) (hlinks : r.links = q.links)
    (htickets : r.tickets = q.tickets) (hactors : r.actors = q.actors) : Moves heard p r :=
  h.trans (eases_of_same hhandles hforwards hlinks htickets hactors).moves

end Plane

end ManagementPlane
