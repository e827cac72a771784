import ManagementPlane.Proofs.Machine.Discipline
import ManagementPlane.Proofs.Proxied.World

/-!
# Proofs/Proxied/Offers — what happens to links

A turn leaves a link alone, takes its offer or abandons it, if the operation waits there, or offers
the handle of the operation, if that prepares and the link is its own (`Link.Turned`,
`Execution.relinks_advance`).  Whatever is no turn offers and takes nothing.
-/

namespace ManagementPlane

open Plane

/-! ## Links -/

namespace Plane

variable {R : Nat → Link → Link → Prop} {p q r : Plane}

/-- Links are only added, and each goes as `R` says. -/
structure Relinks (R : Nat → Link → Link → Prop) (p q : Plane) : Prop where
  count : p.links.length ≤ q.links.length
  link : ∀ l, R l (p.link l) (q.link l)

theorem Relinks.mono {R' : Nat → Link → Link → Prop} (h : p.Relinks R q)
    (hR : ∀ l a b, R l a b → R' l a b) : p.Relinks R' q := ⟨h.count, fun l => hR _ _ _ (h.link l)⟩

/-- One change after another. -/
theorem Relinks.trans (h : p.Relinks R q) (h' : q.Relinks R r)
    (hR : ∀ l a b d, R l a b → R l b d → R l a d) : p.Relinks R r :=
  ⟨h.count.trans h'.count, fun l => hR _ _ _ _ (h.link l) (h'.link l)⟩

theorem link_congr (h : q.links = p.links) (l : Nat) : q.link l = p.link l := by
  rw [Plane.link, h, Plane.link]

/-- The same links, before and after. -/
theorem Relinks.same (h : p.Relinks R q) (hlinks : r.links = q.links) : p.Relinks R r where
  count := h.count.trans_eq (congrArg List.length hlinks).symm
  link l := link_congr hlinks l ▸ h.link l

theorem Relinks.of_same (h : q.Relinks R r) (hlinks : q.links = p.links) : p.Relinks R r where
  count := (congrArg List.length hlinks).symm.trans_le h.count
  link l := link_congr hlinks l ▸ h.link l

section Relinks

variable (hR : ∀ l a, R l a a)

include hR

/-- A change of something else. -/
theorem relinks_of_links (h : q.links = p.links) : p.Relinks R q where
  count := (congrArg List.length h).symm.le
  link l := link_congr h l ▸ hR l _

/-- A change of one link. -/
theorem relinks_modifyLink (p : Plane) (i : Nat) {g : Link → Link}
    (hg : R i (p.link i) (g (p.link i))) : p.Relinks R (p.modifyLink i g) := by
  refine ⟨(List.length_modify _ _ _).symm.le, fun l => ?_⟩
  rw [link_modifyLink]
  split
  · next hl => exact hl.1 ▸ hg
  · exact hR l _

/-- A new link comes behind all others. -/
theorem relinks_newLink (p : Plane) : p.Relinks R p.newLink.2 := by
  refine ⟨?_, fun l => ?_⟩
  · rw [Plane.newLink, List.length_append]
    exact Nat.le_add_right _ _
  · have hsame : p.newLink.2.link l = p.link l := getD_append_default _ _ _
    rw [hsame]
    exact hR l _

end Relinks

/-- An outcome is reported to its forwarded step. -/
theorem links_reportOutcome (p : Plane) (f : Nat) (o : Outcome) :
    (p.reportOutcome f o).links = p.links := by
  rw [reportOutcome]
  dsimp only
  split
  · split <;> rfl
  · rfl

theorem links_failForward (p : Plane) (f : Nat) (response : Value) :
    (p.failForward f response).links = p.links := links_reportOutcome p f _

/-- An operation offers its handle over its own link, if it has one and that is free. -/
theorem relinks_announcePrepared (hR : ∀ l a, R l a a) (p : Plane) (control : Control) (i : Nat)
    (tentative : Value) (hoffers : ∀ l, control = .relay l → ∀ a : Link, a.listening = true →
      a.offer = none → R l a { a with offer := some (i, tentative) }) :
    p.Relinks R (p.announcePrepared control i tentative) := by
  have hsame : ∀ {q : Plane}, q.links = p.links → p.Relinks R q := relinks_of_links hR
  cases control with
  | announce decisions =>
    exact hsame (List.foldlRecOn (motive := fun q : Plane => q.links = p.links) decisions _ rfl
      fun q hq d _ => hq)
  | relay l =>
    rw [announcePrepared, Link.propose]
    dsimp only
    split
    · next hfree =>
      obtain ⟨hlistening, hnone⟩ := Bool.and_eq_true_iff.mp hfree
      rw [if_pos rfl]
      exact relinks_modifyLink hR p l
        (hoffers l rfl _ hlistening (Option.isNone_iff_eq_none.mp hnone))
    · exact hsame rfl
  | exchange e a =>
    rw [announcePrepared]
    dsimp only
    split
    · split <;> exact hsame rfl
    · exact hsame rfl
  | _ => exact hsame rfl

end Plane

/-! ## Forwarding -/

namespace Forwarding

variable {R : Nat → Link → Link → Prop} {p : Plane} {x : Execution} {step : Step}

theorem links_unruly (p : Plane) (f : Nat) (name : String) (conduct : Misconduct) :
    (unruly p f name conduct).2.links = p.links := by
  have hreported : ∀ (q : Plane) (o : Outcome), (q.reportOutcome f o).links = q.links :=
    fun q o => links_reportOutcome q f o
  cases conduct with
  | preparesTwice => exact (hreported _ _).trans (hreported _ _)
  | failsAfterPreparing => exact (links_failForward _ f _).trans (hreported _ _)
  | preparesAfterFailing => exact (hreported _ _).trans (hreported _ _)
  | neverCompletes => exact hreported _ _
  | completesTwice => exact hreported _ _
  | preparesDeaf => exact hreported _ _
  | failsBare => exact links_failForward _ f _
  | failsStructured => exact links_failForward _ f _
  | _ => rfl

theorem links_mock (p : Plane) (m f : Nat) (operation : Value) :
    (mock p m f operation).2.links = p.links := by
  rw [mock]
  dsimp only
  split
  · rfl
  · exact links_reportOutcome _ f _
  · exact links_failForward _ f _
  · rfl

section Relinks

variable (hR : ∀ l a, R l a a)

include hR

/-- An operation that goes to a controller of the process gets a new link. -/
theorem relinks_dispatch (p : Plane) (x : Execution) (proxy : Proxy) (operation : Value) (f : Nat) :
    p.Relinks R (dispatch p x proxy operation f).2.2 := by
  have hsame : ∀ {q : Plane}, q.links = p.links → p.Relinks R q := relinks_of_links hR
  rw [dispatch]
  split
  · exact relinks_newLink hR p
  · dsimp only
    split
    · exact hsame rfl
    · exact hsame (links_failForward _ f _)
  · next m _ =>
    have hmock := links_mock p m f operation
    split <;> next h => rw [h] at hmock; exact hsame hmock
  · exact hsame (links_unruly p f _ _)

theorem relinks_start (proxy : Proxy) : p.Relinks R (start p x step proxy).plane := by
  rw [start]
  dsimp only
  split
  · exact relinks_of_links hR rfl
  split
  · exact relinks_of_links hR rfl
  · have hdispatch := relinks_dispatch hR p.newForward.2 x proxy
      (step.operation.set Key.address (Address.toValue (step.address.drop proxy.node.length)))
      p.newForward.1
    have hforwarded : p.Relinks R _ := hdispatch.of_same rfl
    split <;> next h => rw [h] at hforwarded; exact hforwarded.same rfl

/-- On its way a forwarded step may take what its link offers. -/
theorem Approaches.relinks {sink : Sink} {f : Nat} {d d' : Delivery} {q : Plane}
    {spawned : List Task} (h : Approaches p sink f d d' q spawned)
    (htake : ∀ l, d = .linked l → ∀ a : Link, R l a a.take) : p.Relinks R q := by
  have hsame : ∀ {q : Plane}, q.links = p.links → p.Relinks R q := relinks_of_links hR
  cases h with
  | sent => exact hsame rfl
  | refused | ends | breaks => exact hsame (links_failForward _ f _)
  | @takes l =>
    have htaken : p.Relinks R (p.modifyLink l Link.take) :=
      relinks_modifyLink hR p l (htake l rfl _)
    exact htaken.same (links_reportOutcome _ f _)
  | hears =>
    refine hsame ?_
    cases sink <;> rfl
  | stands _ hq =>
    subst hq
    exact hsame (links_reportOutcome _ f _)
  | fails | closes => exact hsame (links_failForward _ f _)

/-- A step takes the offer of the link at which it waits, or abandons that link. -/
theorem relinks_advance (f due : Nat) (d : Delivery)
    (hd : ∀ l, d = .linked l → ∀ a : Link, R l a a.take ∧ R l a a.abandon) :
    p.Relinks R (advance p x step f due d).plane := by
  have hsame : ∀ {q : Plane}, q.links = p.links → p.Relinks R q := relinks_of_links hR
  have hadvances := advances p x step f due d
  generalize advance p x step f due d = t at hadvances ⊢
  cases hadvances with
  | goes h => exact h.relinks hR fun l hl a => (hd l hl a).1
  | concludes | waits => exact hsame rfl
  | stops =>
    rw [stop, abandon, Plane.letGo_eq]
    cases d with
    | linked l => exact (relinks_modifyLink hR p l (hd l rfl _).2).same rfl
    | _ => exact hsame rfl

end Relinks

end Forwarding

/-! ## Turns -/

namespace Execution

/-- The link over which an operation offers its handle. -/
def link? (x : Execution) : Option Nat :=
  match x.control with
  | .relay l => some l
  | _ => none

/-- The place of an operation among those that have the cancellation `c`: its link, or none if it
was given the cancellation from outside. -/
def seat (c : Nat) (x : Execution) : Option (Option Nat) :=
  match x.link? with
  | some l => some (some l)
  | none => if x.context.input.cancellation = some c then some none else none

end Execution

namespace Moment

/-- The pipeline is through on this turn, and whoever decides is asked. -/
def Prepares (m : Moment) : Prop :=
  m.execution.phase = .stepping ∧
    ∃ y h due, m.turn.next.after? = some y ∧ y.phase = .deciding h due

/-- The handle with which the operation prepares, if it prepares on this turn. -/
def handle (m : Moment) : Nat := m.plane.handles.length

/-- When all stages are through, the operation checks once more whether it is cancelled. -/
theorem turn_of_uncancelled {m : Moment} (hphase : m.execution.phase = .stepping)
    (hempty : m.execution.context.nextStep? = none)
    (hlast : m.execution.context.stage.next? = none)
    (hcancelled : m.plane.isCancelled m.execution.context.input.cancellation = false) :
    m.turn = Execution.prepare m.plane m.execution := by
  rw [turn, Execution.advance, hphase]
  dsimp only
  rw [Execution.pick]
  dsimp only
  rw [hempty]
  dsimp only
  rw [hlast]
  dsimp only
  rw [hcancelled, if_neg Bool.false_ne_true]

/-- **An operation prepares** if no step of any stage is left and it is not cancelled. -/
theorem prepares_iff {m : Moment} : m.Prepares ↔ m.execution.phase = .stepping ∧
    m.execution.context.nextStep? = none ∧ m.execution.context.stage.next? = none ∧
      m.plane.isCancelled m.execution.context.input.cancellation = false := by
  constructor
  · rintro ⟨hphase, y, h, due, hy, hdeciding⟩
    refine ⟨hphase, ?_⟩
    rw [turn, Execution.advance, hphase] at hy
    dsimp only at hy
    rw [Execution.pick] at hy
    dsimp only at hy
    -- on every other turn of the pipeline nobody decides
    split at hy
    · split at hy <;>
      · obtain rfl := Option.some.inj hy
        cases hdeciding
    · next hempty =>
      split at hy
      · obtain rfl := Option.some.inj hy
        cases hphase.symm.trans hdeciding
      · next hlast =>
        split at hy
        · obtain rfl := Option.some.inj hy
          cases hdeciding
        · next hcancelled => exact ⟨hempty, hlast, Bool.eq_false_iff.mpr hcancelled⟩
  · rintro ⟨hphase, hempty, hlast, hcancelled⟩
    rw [Prepares, turn_of_uncancelled hphase hempty hlast hcancelled]
    exact ⟨hphase, _, _, _, rfl, rfl⟩

instance (m : Moment) : Decidable m.Prepares :=
  decidable_of_iff ((match m.execution.phase with
    | .stepping => m.execution.context.nextStep?.isNone && m.execution.context.stage.next?.isNone &&
      !m.plane.isCancelled m.execution.context.input.cancellation
    | _ => false) = true) <| by
    rw [prepares_iff]
    cases hphase : m.execution.phase with
    | stepping => simp [and_assoc]
    | _ => simp

/-- The turn on which an operation prepares. -/
theorem Prepares.turn {m : Moment} (h : m.Prepares) :
    m.turn = Execution.prepare m.plane m.execution := by
  obtain ⟨hphase, hempty, hlast, hcancelled⟩ := prepares_iff.mp h
  exact turn_of_uncancelled hphase hempty hlast hcancelled

end Moment

/-- What a turn makes of a link. -/
inductive Link.Turned (m : Moment) (l : Nat) (a : Link) : Link → Prop
  | stays : Turned m l a a
  | takes {f : Nat} (hawaits : m.execution.awaits? = some (f, .linked l)) : Turned m l a a.take
  | abandons {f : Nat} (hawaits : m.execution.awaits? = some (f, .linked l)) :
    Turned m l a a.abandon
  | offers {response : Value} (hprepares : m.Prepares) (hlink : m.execution.link? = some l)
      (hlistening : a.listening = true) (hnone : a.offer = none) :
    Turned m l a { a with offer := some (m.plane.handles.length, response) }

namespace Execution

variable {p q : Plane} {x y : Execution} {f l : Nat}

theorem control_afterStep (x : Execution) (step : Step) (out : Except OperationError Unit) :
    (x.afterStep step out).control = x.control := by
  rw [afterStep]
  split <;> rfl

/-- An operation keeps its control. -/
theorem control_turn (hy : (x.advance p).next.after? = some y) : y.control = x.control := by
  have hgoes := goes_advance hy
  generalize (x.advance p).plane = q at hgoes
  cases hgoes with
  | @works step w _ hphase hwork =>
    have hcontinues := (keeping_work p x step w).continues
    generalize (work p x step w).next = next at hcontinues hwork
    cases hcontinues with
    | returns | concludes =>
      obtain rfl := Option.some.inj hwork
      exact control_afterStep _ step _
    | crashes => cases hwork
    | _ =>
      obtain rfl := Option.some.inj hwork
      rfl
  | _ => rfl

/-- An operation keeps its link. -/
theorem link?_turn (hy : (x.advance p).next.after? = some y) : y.link? = x.link? := by
  rw [link?, control_turn hy, link?]

theorem link?_resume (p : Plane) (x : Execution) (answer : Answer) :
    (x.resume p answer).2.link? = x.link? := by
  rw [resume.eq_def]
  split <;> rfl

/-! ### What is offered -/

theorem links_begin (p : Plane) (x : Execution) : (begin p x).plane.links = p.links := by
  rw [begin]
  split
  · rfl
  · dsimp only
    split
    · rfl
    · split
      · rfl
      · split
        · next htake => exact (takeLock?_eq_some htake).2.2.2.links
        · rfl

theorem links_awaitLock (p : Plane) (x : Execution) (due : Nat) :
    (awaitLock p x due).plane.links = p.links := by
  rw [awaitLock]
  dsimp only
  split
  · next htake => exact (takeLock?_eq_some htake).2.2.2.links
  · split <;> rfl

theorem links_decide (p : Plane) (x : Execution) (i : Nat) (due : Option Nat) :
    (decide p x i due).plane.links = p.links := by
  have happly : ∀ d, (apply p x i d).plane.links = p.links := by
    intro d
    rw [apply.eq_def]
    dsimp only
    split
    · split <;> rfl
    · rfl
  rw [decide.eq_def]
  split
  · exact happly _
  · split
    · split
      · exact happly _
      · rfl
    · rfl

theorem links_unwind (p : Plane) (x : Execution) (e : Ending) :
    (unwind p x e).plane.links = p.links := by
  rw [unwind]
  split
  · cases e <;> rfl
  · next c rest _ =>
    cases hc : c.handle? with
    | none => exact (Completion.retains_run hc e.decision _).links
    | some i =>
      obtain rfl := Completion.eq_decide hc
      rfl

/-- To pick a step may prepare, and that may offer the handle to the link. -/
theorem relinks_pick (hphase : x.phase = .stepping) :
    p.Relinks (Link.Turned ⟨p, x⟩) (pick p x).plane := by
  have hsame : ∀ {q : Plane}, q.links = p.links → p.Relinks (Link.Turned ⟨p, x⟩) q :=
    relinks_of_links fun _ _ => .stays
  rw [pick]
  dsimp only
  split
  · split <;> exact hsame rfl
  · next hempty =>
    split
    · exact hsame rfl
    · next hlast =>
      split
      · exact hsame rfl
      · next hcancelled =>
        have hprepares : (Moment.mk p x).Prepares :=
          Moment.prepares_iff.mpr ⟨hphase, hempty, hlast, Bool.eq_false_iff.mpr hcancelled⟩
        refine (relinks_announcePrepared (fun _ _ => .stays) (p.newHandle {}).2 x.control _ _
          fun l hl a hlistening hnone => ?_).of_same rfl
        exact .offers hprepares (by rw [link?, hl]) hlistening hnone

/-- **What a turn makes of the links.** -/
theorem relinks_advance (p : Plane) (x : Execution) :
    p.Relinks (Link.Turned ⟨p, x⟩) (x.advance p).plane := by
  have hsame : ∀ {q : Plane}, q.links = p.links → p.Relinks (Link.Turned ⟨p, x⟩) q :=
    relinks_of_links fun _ _ => .stays
  rw [advance]
  split
  · exact hsame (links_begin p x)
  · exact hsame (links_awaitLock p x _)
  · exact relinks_pick ‹_›
  · next step w hphase =>
    cases hw : w.isFresh with
    | false => exact hsame ((keeping_work p x step w).retains hw).1.links
    | true =>
      cases w with
      | begin =>
        rw [work]
        split
        · exact hsame rfl
        · exact Forwarding.relinks_start (fun _ _ => .stays) _
        · split
          · next deed hdeed =>
            have hscene := Handler.deed?_made hdeed ⟨p, x.controller, x.context⟩
            exact hsame hscene.beside.2.retains.links
          · exact hsame rfl
      | forwarding f due d =>
        refine Forwarding.relinks_advance (fun _ _ => .stays) f due d ?_
        rintro l rfl a
        have hawaits : x.awaits? = some (f, .linked l) := by rw [awaits?, hphase]
        exact ⟨.takes hawaits, .abandons hawaits⟩
      | _ => cases hw
  · exact hsame (links_decide p x _ _)
  · exact hsame (links_unwind p x _)
  · exact hsame (by rw [plane_drain])
  · exact hsame rfl

end Execution

/-! ## The other tasks -/

namespace Plane

theorem links_foldl {α : Type} {g : Plane → α → Plane} (hg : ∀ q a, (g q a).links = q.links)
    (l : List α) (p : Plane) : (l.foldl g p).links = p.links := by
  induction l generalizing p with
  | nil => rfl
  | cons a l ih => exact (ih (g p a)).trans (hg p a)

end Plane

theorem Execution.links_discard (p : Plane) (x : Execution) : (x.discard p).links = p.links :=
  links_foldl (g := fun q i => q.modifyHandle i Prepared.drop) (fun _ _ => rfl) _ _

/-- What becomes of a link when nobody offers or takes anything: those in `done` may come to an
end. -/
structure Link.Rests (done : Nat → Prop) (l : Nat) (a b : Link) : Prop where
  offer : b.offer = a.offer
  listening : b.listening = a.listening
  final : b.final = a.final ∨ done l ∧ b.final ≠ none

theorem Link.Rests.refl (done : Nat → Prop) (l : Nat) (a : Link) : Rests done l a a :=
  ⟨rfl, rfl, .inl rfl⟩

/-- One change after another. -/
theorem Link.Rests.trans {done : Nat → Prop} {l : Nat} {a b d : Link} (h : Rests done l a b)
    (h' : Rests done l b d) : Rests done l a d where
  offer := h'.offer.trans h.offer
  listening := h'.listening.trans h.listening
  final := by
    rcases h'.final with hsame | hdone
    · rw [hsame]
      exact h.final
    · exact .inr hdone

/-- Whoever is told of the end leaves the offers alone. -/
theorem Origin.relinks_tell (o : Origin) (p : Plane) (answer : Answer) :
    p.Relinks (Link.Rests fun l => o = .link l) (o.tell p answer) := by
  cases o with
  | link l =>
    exact relinks_modifyLink (Link.Rests.refl _) p l ⟨rfl, rfl, .inr ⟨rfl, Option.some_ne_none _⟩⟩
  | _ => exact relinks_of_links (Link.Rests.refl _) rfl

theorem Origin.relinks_tellCrash (o : Origin) (p : Plane) (reason : String) :
    p.Relinks (Link.Rests fun l => o = .link l) (o.tellCrash p reason) := by
  cases o with
  | link l =>
    exact relinks_modifyLink (Link.Rests.refl _) p l ⟨rfl, rfl, .inr ⟨rfl, Option.some_ne_none _⟩⟩
  | _ => exact relinks_of_links (Link.Rests.refl _) rfl

namespace Task

/-- A task that follows an exchange has no link. -/
theorem links_follow (p : Plane) (a e f : Nat) (sink : Sink) (state : Follow) :
    (advanceFollow p a e f sink state).plane.links = p.links := by
  rw [advanceFollow.eq_def]
  dsimp only
  cases state with
  | deciding h =>
    dsimp only
    split
    · rfl
    · split <;> rfl
  | sending ticket r =>
    dsimp only
    split
    · rfl
    · split <;> rfl
  | replying r =>
    dsimp only
    split <;> rfl
  | finishing =>
    dsimp only
    split
    · cases sink <;> rfl
    all_goals rfl

/-- Nor has an actor. -/
theorem links_serve (p : Plane) (a : Nat) : (advanceServe p a).plane.links = p.links := by
  rw [advanceServe]
  split
  · rfl
  · dsimp only
    split
    case h_5 => exact links_foldl (g := fun q i => q.decideAndDrop i .rollback) (fun _ _ => rfl) _ _
    all_goals rfl

/-- A task that is no operation has nothing to offer. -/
theorem links_advance {t : Task} (p : Plane) (ht : ∀ stack origin, t ≠ .operation stack origin) :
    (t.advance p).plane.links = p.links := by
  cases t with
  | operation stack origin => exact absurd rfl (ht stack origin)
  | relay l f =>
    rw [advance]
    dsimp only
    split <;> rfl
  | follow a e f sink state => exact links_follow p a e f sink state
  | serve a => exact links_serve p a
  | expect m h f result =>
    rw [advance]
    dsimp only
    split <;> rfl
  | watch label h =>
    rw [advance]
    dsimp only
    split <;> rfl
  | prepareLate wake f response =>
    rw [advance]
    dsimp only
    split
    · exact links_reportOutcome _ f _
    · rfl
  | completeTwice h f response =>
    rw [advance]
    dsimp only
    split <;> rfl
  | cancelAt wake c =>
    rw [advance]
    dsimp only
    split <;> rfl

end Task

end ManagementPlane
