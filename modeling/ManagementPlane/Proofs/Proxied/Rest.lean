import ManagementPlane.Proofs.Proxied.Company

/-!
# Proofs/Proxied/Rest — tasks that wind up come to rest

A machine whose tasks wind up runs until nothing is left to do, if need be past the time for which
an operation waits for its participants.  An operation that was decided to be kept has answered by
then, with a success (`Machine.rests`).
-/

namespace ManagementPlane

namespace Execution

variable {R : Reserve} {p q : Plane} {x y : Execution}

/-- The operation ends with a success: it was decided to be kept, and nothing has failed. -/
inductive Assured (p : Plane) (x : Execution) : Prop
  | deciding {handle : Nat} {due : Option Nat} (hphase : x.phase = .deciding handle due)
    (hkeep : (p.handle handle).decision = some .keep)
    (hroot : (x.context.slot Context.rootSlot).failure = none) : Assured p x
  | closing (hcloses : x.Closes .kept)
    (hroot : (x.context.slot Context.rootSlot).failure = none) : Assured p x
  | ended {answer : Answer} (hphase : x.phase = .ended answer) (h : Succeeds answer) : Assured p x

theorem Assured.around (h : x.Assured p) (hq : R.Kept p q) : x.Assured q := by
  cases h with
  | deciding hphase hkeep hroot => exact .deciding hphase (hq.decided _ _ hkeep) hroot
  | closing hcloses hroot => exact .closing hcloses hroot
  | ended hphase h => exact .ended hphase h

theorem effect?_of_decision {h : Prepared} {d : Decision} (hd : h.decision = some d) :
    h.outlook.effect? = some d := by
  rw [Prepared.outlook, hd]
  rfl

theorem Assured.succeeds (h : x.Assured p) {answer : Answer} (hphase : x.phase = .ended answer) :
    Succeeds answer := by
  cases h with
  | deciding hphase' _ _ => cases hphase.symm.trans hphase'
  | closing hcloses _ =>
      rcases hcloses with hcloses | ⟨_, hcloses⟩ <;> cases hphase.symm.trans hcloses
  | ended hphase' h =>
    cases hphase.symm.trans hphase'
    exact h

/-- Every turn on the way keeps to it. -/
theorem Assured.nears (h : x.Assured p) (hx : x.Winding) (hnears : x.Nears R p q y) :
    y.Assured q := by
  cases h with
  | deciding hphase hkeep hroot =>
    have hturn := hnears.turn
    rw [advance, hphase] at hturn
    dsimp only at hturn
    rw [decide.eq_def, effect?_of_decision hkeep] at hturn
    dsimp only at hturn
    rw [apply.eq_def] at hturn
    dsimp only at hturn
    rw [Transaction.commit, hx.unstaged] at hturn
    cases hturn
    exact .closing (.inl rfl) hroot
  | closing hcloses hroot =>
    have hafter : (x.advance p).next.after? = some y := by rw [hnears.turn]; rfl
    obtain ⟨-, hsettles, hy⟩ := closing_of_closes hcloses hx.decisions hafter
    rcases hy with hy | hy
    · refine .closing hy ?_
      rw [Context.slot, hsettles.slots]
      exact hroot
    · refine .ended hy ⟨_, _, rfl, ?_⟩
      rw [Response.isSuccess_finish, Response.isSuccess_toValue, hroot]
      rfl
  | ended hphase h =>
    have hturn := hnears.turn
    rw [advance, hphase] at hturn
    cases hturn

theorem blocked_of_sleeps {o : Origin} (h : (Task.operation [x] o).Sleeps p) :
    (x.advance p).next = .blocked x ∧ ∀ answer, x.phase ≠ .ended answer := by
  have hprogress := congrArg Move.progress h
  rw [Task.advance, Task.advanceStack.eq_def] at hprogress
  dsimp only at hprogress
  split at hprogress
  · cases hprogress
  · next hopen =>
    refine ⟨?_, hopen⟩
    split at hprogress
    all_goals try cases hprogress
    assumption

/-- **Who sleeps on the way** waits for a participant, and not for ever. -/
theorem Assured.due {o : Origin} (h : x.Assured p)
    (hwaiting : (Task.operation [x] o).canGo p = false)
    (hslept : (Task.operation [x] o).Sleeps q) :
    ∃ due, (Task.operation [x] o).due? = some due := by
  obtain ⟨hblocked, hopen⟩ := blocked_of_sleeps hslept
  cases h with
  | deciding hphase hkeep hroot =>
    have hholds : (Task.operation [x] o).canGo p = true := by
      rw [Task.canGo, Task.waits, waits, hphase]
      dsimp only
      rw [List.any_cons, Wait.holds, effect?_of_decision hkeep]
      rfl
    rw [hwaiting] at hholds
    cases hholds
  | closing hcloses hroot =>
    rcases hcloses with hphase | ⟨due, hphase⟩
    · rw [advance, hphase] at hblocked
      dsimp only at hblocked
      rw [unwind.eq_def] at hblocked
      split at hblocked
      · obtain ⟨t, ht⟩ := unwound_next q x .kept
        rw [ht] at hblocked
        cases hblocked
      · cases hblocked
    · rw [advance, hphase] at hblocked
      dsimp only at hblocked
      cases due with
      | none =>
        rw [drain] at hblocked
        dsimp only at hblocked
        split at hblocked
        · cases hblocked
        · split at hblocked <;> cases hblocked
      | some due =>
        refine ⟨due, ?_⟩
        rw [Task.due?, Task.waits, waits, hphase]
        cases x.context.completions <;> rfl
  | ended hphase h => exact absurd hphase (hopen _)

end Execution

/-! ## A caller who waits -/

/-- The caller has the answer. -/
def Ticket.Has (G : Answer → Prop) (t : Ticket) : Prop :=
  ∃ answer, t.final = some (.answered answer) ∧ G answer

/-- The caller of an operation that ends with a success will have such an answer, or has it. -/
structure Answering (G : Answer → Prop) (n : Nat) (p : Plane) (ts : List Task) : Prop where
  known : n < p.tickets.length
  assured : ∀ x, .operation [x] (.ticket n) ∈ ts →
    x.Assured p ∧ ∀ answer, Execution.Succeeds answer → G answer
  answered : ((p.ticket n).final = none ∧ ∃ x, .operation [x] (.ticket n) ∈ ts) ∨
    (p.ticket n).Has G

namespace Answering

variable {G : Answer → Prop} {R : Reserve} {n : Nat} {p q : Plane} {t : Task} {ts us : List Task}
  {x : Execution} {o : Origin} {answer : Answer}

theorem perm (h : Answering G n p ts) (hperm : ts.Perm us) : Answering G n p us where
  known := h.known
  assured x hx := h.assured x (hperm.symm.subset hx)
  answered := h.answered.imp_left fun ⟨hnone, x, hx⟩ => ⟨hnone, x, hperm.subset hx⟩

theorem elapse (h : Answering G n p ts) (time : Nat) : Answering G n { p with now := time } ts where
  known := h.known
  assured x hx := (h.assured x hx).imp_left fun hassured => by
    cases hassured with
    | deciding hphase hkeep hroot => exact .deciding hphase hkeep hroot
    | closing hcloses hroot => exact .closing hcloses hroot
    | ended hphase hsucceeds => exact .ended hphase hsucceeds
  answered := h.answered

theorem final_tell (hn : n < p.tickets.length) :
    (((Origin.ticket n).tell p answer).ticket n).final = some (.answered answer) := by
  obtain ⟨g, hg, htell⟩ : ∃ g, (∀ t, (g t).final = some (.answered answer)) ∧
      (Origin.ticket n).tell p answer = p.modifyTicket n g := ⟨_, fun _ => rfl, rfl⟩
  rw [htell, Plane.ticket_modifyTicket, if_pos ⟨rfl, hn⟩, hg]

theorem ticket_tell (ho : o ≠ .ticket n) : (o.tell p answer).ticket n = p.ticket n := by
  have hkept := Reserve.kept_tell
    (R := ⟨(· = .ticket n), fun _ => False, fun _ => False⟩) ho p answer
  exact hkept.ticket n rfl

theorem of_tickets (h : Answering G n p (t :: ts)) (hq : R.Kept p q)
    (htickets : q.tickets = p.tickets)
    (hassured : ∀ x, .operation [x] (.ticket n) ∈ us →
      x.Assured q ∧ ∀ answer, Execution.Succeeds answer → G answer)
    (hlasts : ∀ x, t = .operation [x] (.ticket n) → ∃ y, .operation [y] (.ticket n) ∈ us) :
    Answering G n q (us ++ ts) where
  known := htickets ▸ h.known
  assured x hx := (List.mem_append.mp hx).elim (hassured x) fun hx =>
    (h.assured x (List.mem_cons_of_mem _ hx)).imp_left fun h => h.around hq
  answered := by
    rw [Plane.ticket, htickets]
    rcases h.answered with ⟨hnone, x, hx⟩ | hanswered
    · refine .inl ⟨hnone, ?_⟩
      rcases List.mem_cons.mp hx with ht | hx
      · obtain ⟨y, hy⟩ := hlasts x ht.symm
        exact ⟨y, List.mem_append_left _ hy⟩
      · exact ⟨x, List.mem_append_right _ hx⟩
    · exact .inr hanswered

/-- **A turn keeps the caller waiting or answers.** -/
theorem turn (h : Answering G n p (t :: ts)) (hwinding : t.Winding R p)
    (hturned : Company.Turned R p t ts (t.advance p)) :
    Answering G n (t.advance p).plane ((t.advance p).progress.remains ++ ts) := by
  by_cases hoperation : ∃ x o, t = .operation [x] o
  · obtain ⟨x, o, rfl⟩ := hoperation
    cases hwinding with
    | operation hx ho =>
      rcases hturned.operation x o rfl with ⟨y, hprogress, hnears⟩ | ⟨answer, hphase, hmove⟩
      · rw [hprogress]
        refine h.of_tickets hturned.kept hnears.tickets (fun z hz => ?_) (fun z hz => ?_)
        · obtain ⟨⟨rfl⟩, rfl⟩ := Task.operation.inj (List.mem_singleton.mp hz)
          exact (h.assured x List.mem_cons_self).imp_left fun h => h.nears hx hnears
        · obtain ⟨-, rfl⟩ := Task.operation.inj hz
          exact ⟨y, List.mem_cons_self⟩
      · have hkept := hturned.kept
        rw [hmove] at hkept ⊢
        refine ⟨h.known.trans_le hkept.tickets, fun z hz => ?_, ?_⟩
        · exact (h.assured z (List.mem_cons_of_mem _ hz)).imp_left fun h => h.around hkept
        · by_cases hn : o = .ticket n
          · subst hn
            obtain ⟨hassured, hG⟩ := h.assured x List.mem_cons_self
            exact .inr ⟨answer, final_tell h.known, hG _ (hassured.succeeds hphase)⟩
          · rw [ticket_tell hn]
            refine h.answered.imp_left fun ⟨hnone, z, hz⟩ =>
              ⟨hnone, z, (List.mem_cons.mp hz).resolve_left ?_⟩
            rintro ⟨-, rfl⟩
            exact hn rfl
  · have hno : ∀ x o, t ≠ .operation [x] o := fun x o ht => hoperation ⟨x, o, ht⟩
    obtain ⟨htickets, hremains⟩ := hturned.other hno
    exact h.of_tickets hturned.kept htickets (fun x hx => absurd hx (hremains x _))
      (fun x ht => absurd ht (hno x _))

end Answering

namespace Machine

/-- Nothing that is ready can go on. -/
def idle (m : Machine) : Nat := if m.ready.any (·.canGo m.plane) then 0 else 1

/-- The machine runs until nothing is left to do, and by then the caller has the answer. -/
def Delivers (m : Machine) (n : Nat) (G : Answer → Prop) : Prop :=
  ∃ (k : Nat) (m' : Machine), (∀ fuel, m.run (fun p => (p.ticket n).final.isSome) none (fuel + k) =
      m'.run (fun p => (p.ticket n).final.isSome) none fuel) ∧
    m'.ready = [] ∧ (m'.plane.ticket n).Has G

variable {m m' : Machine} {n : Nat} {G : Answer → Prop}

theorem Delivers.of_run (k : Nat) (h : m'.Delivers n G)
    (hrun : ∀ fuel, m.run (fun p => (p.ticket n).final.isSome) none (fuel + k) =
      m'.run (fun p => (p.ticket n).final.isSome) none fuel) : m.Delivers n G := by
  obtain ⟨l, m₁, hrest, hend⟩ := h
  refine ⟨l + k, m₁, fun fuel => ?_, hend⟩
  rw [← Nat.add_assoc, hrun, hrest]

theorem Delivers.of_step (hstep : m.step? = some m') (h : m'.Delivers n G) : m.Delivers n G :=
  h.of_run 1 fun fuel => run_of_step hstep fuel

theorem Delivers.of_leads (hleads : m.Leads m') (h : m'.Delivers n G) : m.Delivers n G := by
  obtain ⟨k, hrun⟩ := hleads.run (fun p => (p.ticket n).final.isSome) none
  exact h.of_run k hrun

end Machine

namespace Company

variable {R : Reserve} {n : Nat} {G : Answer → Prop}

/-- **Tasks that wind up come to rest**, and by then the caller has the answer. -/
theorem rests {m : Machine} {p : Plane} {ts : List Task} (hm : m.Holds p ts)
    (hcompany : Company R p ts) (hanswering : Answering G n p ts) : m.Delivers n G := by
  cases hready : m.ready with
  | nil =>
    by_cases hanswered : (p.ticket n).Has G
    · exact ⟨0, m, fun _ => rfl, hready, hm.plane ▸ hanswered⟩
    · obtain ⟨hnone, x, hx⟩ := hanswering.answered.resolve_right hanswered
      have hblocked : .operation [x] (.ticket n) ∈ m.blocked := by
        simpa [Machine.tasks, hready] using hm.tasks.symm.subset hx
      obtain ⟨q, hslept⟩ := hm.dormant.slept _ hblocked
      obtain ⟨_, hdue⟩ := (hanswering.assured x hx).1.due
        (hm.plane ▸ hm.dormant.waiting _ hblocked) hslept
      obtain ⟨due, hdue⟩ := Machine.due?_of_mem hblocked hdue
      have hunanswered : (m.plane.ticket n).final.isSome = false := by rw [hm.plane, hnone]; rfl
      have hidle : (m.elapse due).idle < m.idle := by
        obtain ⟨t, ht, hgo⟩ := Machine.exists_canGo_of_due hdue
        rw [Machine.idle, if_pos (List.any_eq_true.mpr ⟨t, ht, hgo⟩), Machine.idle, hready]
        exact Nat.zero_lt_one
      refine .of_run 1 (rests (hm.elapse due) ?_ ?_) (Machine.run_of_due hready hunanswered hdue)
      · exact hcompany.around (fun _ => id) fun _ _ => id
      · exact hanswering.elapse _
  | cons t rest =>
    obtain ⟨others, hperm⟩ : ∃ others, ts.Perm (t :: others) := by
      have hmem : t ∈ ts := hm.tasks.subset (List.mem_append_left _ (hready ▸ List.mem_cons_self))
      obtain ⟨before, behind, rfl⟩ := List.append_of_mem hmem
      exact ⟨_, List.perm_middle⟩
    by_cases hsleeps : t.Sleeps p
    · obtain ⟨hstep, hm'⟩ := hm.sleeping hready hsleeps
      have hidle : (⟨p, rest, m.blocked ++ [t]⟩ : Machine).idle = m.idle := by
        rw [Machine.idle, Machine.idle, hready, List.any_cons, hm.plane, hsleeps.canGo,
          Bool.false_or]
      exact .of_step hstep (rests hm' hcompany hanswering)
    · have hturns : m.Turns p t ([] ++ others) := ⟨hm.perm hperm, rest, hready⟩
      obtain ⟨m₁, q, us, hstep, hm₁, hkept, hcompany', hlighter, rfl, rfl⟩ :=
        (hcompany.perm hperm).turns hturns hsleeps
      have hanswering' := (hanswering.perm hperm).turn
        (hcompany.winding t (hperm.symm.subset List.mem_cons_self))
        ((hcompany.perm hperm).turn.resolve_left hsleeps)
      have hweight : weight (t.advance p).plane ((t.advance p).progress.remains ++ others) <
        weight p ts := hlighter.trans_eq (weight_perm hperm.symm)
      exact .of_step hstep (rests hm₁ hcompany' hanswering')
termination_by (weight p ts, m.idle, m.ready.length)
decreasing_by
  · exact .right _ (.left _ _ hidle)
  · rw [hidle, hready]
    exact .right _ (.right _ (Nat.lt_succ_self _))
  · exact .left _ _ hweight

end Company

end ManagementPlane
