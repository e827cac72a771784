import ManagementPlane.Proofs.Proxied.Linked
import ManagementPlane.Proofs.Proxied.Locks

/-!
# Proofs/Proxied/Stable — what lasts through the steps of a world

As its operations see it, a world changes in a few ways only: something happens around them, one of
them begins, takes its turn, goes on after another one, returns or breaks down.  A property that
survives each of these (`World.Stable`) survives whatever task runs (`World.Stable.runs`).

A link comes to an end only with the operation that has it: the task that tells the link is the one
at whose bottom this operation stands (`Task.Moored`).
-/

namespace ManagementPlane

open Plane Execution

/-- What happens around operations: what was decided and reported stays, no cancellation is taken
back, nothing is offered or taken, and only the links in `done` come to an end. -/
structure Plane.Aside (done : Nat → Prop) (p q : Plane) : Prop where
  persists : Persists p q
  recalls : p.Recalls q
  relinks : p.Relinks (Link.Rests done) q

theorem Plane.Aside.refl (done : Nat → Prop) (p : Plane) : p.Aside done p :=
  ⟨.refl p, fun _ h => h, relinks_of_links (Link.Rests.refl _) rfl⟩

/-! ## Who tells a link -/

/-- Whoever tells a link that an operation has ended runs the operation that has it. -/
def Task.Moored : Task → Prop
  | operation stack (.link l) => ∀ x ∈ stack.getLast?, x.link? = some l
  | _ => True

namespace Task

variable {p : Plane} {x y : Execution} {rest : List Execution} {origin : Origin} {t : Task}

theorem moored_of_stack (ht : t.stack = []) : t.Moored := by
  cases t with
  | operation stack origin =>
    obtain rfl : stack = [] := ht
    cases origin with
    | link l => exact fun x hx => nomatch hx
    | _ => trivial
  | _ => trivial

theorem Moored.link? (h : (operation (x :: rest) origin).Moored) {l : Nat} (hl : origin = .link l) :
    ∃ z ∈ x :: rest, z.link? = some l := by
  subst hl
  have hlast := List.getLast?_eq_some_getLast (List.cons_ne_nil x rest)
  exact ⟨_, List.getLast_mem _, h _ hlast⟩

/-- The operation at the bottom keeps its link. -/
theorem Moored.replace (h : (operation (x :: rest) origin).Moored) (hlink : y.link? = x.link?) :
    (operation (y :: rest) origin).Moored := by
  cases origin with
  | link l =>
    cases rest with
    | nil =>
      rintro z hz
      obtain rfl := Option.some.inj hz
      exact hlink.trans (h x rfl)
    | cons b rest => exact h
  | _ => trivial

theorem Moored.push (h : (operation (x :: rest) origin).Moored) (y : Execution) :
    (operation (y :: x :: rest) origin).Moored := by
  cases origin with
  | link l => exact h
  | _ => trivial

theorem Moored.pop (h : (operation (x :: y :: rest) origin).Moored) :
    (operation (y :: rest) origin).Moored := by
  cases origin with
  | link l => exact h
  | _ => trivial

/-- A participant that is started on a link has that link. -/
theorem moored_spawned (p : Plane) (x : Execution) : ∀ s ∈ (x.advance p).spawned, s.Moored := by
  intro s hs
  rcases spawned_turn p x with ⟨hstack, -⟩ | ⟨d, operation, hspawned, -⟩
  · exact moored_of_stack (hstack s hs)
  · rw [hspawned] at hs
    obtain rfl := List.mem_singleton.mp hs
    rintro z hz
    obtain rfl := Option.some.inj hz
    rfl

/-- **Whatever runs, links are told by the tasks of their operations.** -/
theorem moored_advance (ht : t.Moored)
    (hspawned : t.stack = [] → ∀ s ∈ (t.advance p).spawned, s.Moored) :
    ∀ s ∈ (t.advance p).spawned ++ (t.advance p).progress.remains, s.Moored := by
  cases t.proceeds p with
  | rests => rintro s ⟨⟩
  | tells _ hadvance =>
    rw [hadvance]
    rintro s ⟨⟩
  | @resumes x y ys origin answer _ hadvance =>
    rw [hadvance]
    refine List.forall_mem_singleton.mpr (ht.pop.replace ?_)
    exact link?_resume p y answer
  | @turns x y rest origin hopen hy =>
    obtain ⟨-, hstarted⟩ := advanceStack_of_open (p := p) rest origin hopen
    obtain ⟨-, hremains⟩ := advanceStack_of_after rest origin hopen hy
    have hturned := ht.replace (link?_turn hy)
    rw [hstarted]
    refine List.forall_mem_append.mpr ⟨moored_spawned p x, ?_⟩
    rcases hremains with hremains | ⟨-, c, value, hremains⟩
    · rw [hremains]
      exact List.forall_mem_singleton.mpr hturned
    · rw [hremains]
      exact List.forall_mem_singleton.mpr (hturned.push _)
  | @crashes x rest origin reason hopen hnext =>
    obtain ⟨-, hstarted⟩ := advanceStack_of_open (p := p) rest origin hopen
    obtain ⟨-, hremains⟩ := advanceStack_of_crashed rest origin hopen hnext
    rw [hstarted, hremains, List.append_nil]
    exact moored_spawned p x
  | other hother hstack =>
    refine List.forall_mem_append.mpr ⟨hspawned hstack, fun s hs => ?_⟩
    exact moored_of_stack ((moved_advance p hother).remains s hs).1

end Task

namespace World

/-- A property of the operations that run in a plane and of the turns of the past is kept in every
change that they see, when all that begin are in `new`. -/
structure Stable (new : Execution → Prop) (I : Plane → List Execution → List Moment → Prop) :
    Prop where
  perm : ∀ {p xs ys past}, I p xs past → xs.Perm ys → I p ys past
  around : ∀ {p q xs past}, I p xs past → p.Aside (fun _ => False) q → I q xs past
  begins : ∀ {p xs past}, I p xs past → ∀ c operation control input sink,
    new (Execution.new c operation control input sink) →
      I p (Execution.new c operation control input sink :: xs) past
  /-- Whoever takes its turn may start others in the same process. -/
  turn : ∀ {p x y xs late past}, I p (x :: xs) past → p.Accounts (x :: xs) late past →
    (∀ answer, x.phase ≠ .ended answer) → (x.advance p).next.after? = some y →
    Persists p (x.advance p).plane →
      I (x.advance p).plane ((x.advance p).spawned.flatMap Task.stack ++ y :: xs) (⟨p, x⟩ :: past)
  resumes : ∀ {p x xs past}, I p (x :: xs) past → ∀ answer,
    I (x.resume p answer).1 ((x.resume p answer).2 :: xs) past
  /-- Whoever returns may bring its link to an end. -/
  ends : ∀ {p q x xs past}, I p (x :: xs) past → x.awaits? = none →
    p.Aside (fun l => x.link? = some l) q → I q xs past
  /-- Whoever breaks down does so with all that wait for it. -/
  breaks : ∀ {p q x ys xs past}, I p (x :: ys ++ xs) past → (∀ z ∈ x :: ys, z.awaits? = none) →
    (x.advance p).next.after? = none → p.Aside (fun l => ∃ z ∈ x :: ys, z.link? = some l) q →
      I q xs (⟨p, x⟩ :: past)

variable {new : Execution → Prop} {I : Plane → List Execution → List Moment → Prop} {p q : Plane}
  {x y : Execution} {rest xs : List Execution} {past : List Moment} {origin : Origin}
  {late : List Nat}

/-- Tasks that did nothing yet join. -/
theorem Stable.joins (h : Stable new I) (ts : List Task)
    (hts : ∀ t ∈ ts, (∃ late, t.Begins late) ∧ ∀ x ∈ t.stack, new x) (hI : I p xs past) :
    I p (ts.flatMap Task.stack ++ xs) past := by
  induction ts with
  | nil => exact hI
  | cons t ts ih =>
    obtain ⟨⟨⟨late, ht⟩, hnew⟩, hts⟩ := List.forall_mem_cons.mp hts
    have hrest := ih hts
    cases t with
    | operation stack origin =>
      obtain ⟨c, operation, control, input, sink, rfl⟩ := ht
      exact h.begins hrest c operation control input sink (hnew _ (List.mem_singleton_self _))
    | _ => exact hrest

/-- Only a step that has just begun can break its operation down. -/
theorem awaits?_of_crash (hafter : (x.advance p).next.after? = none) : x.awaits? = none := by
  by_contra hawaits
  obtain ⟨⟨f, d⟩, hx⟩ := Option.ne_none_iff_exists'.mp hawaits
  obtain ⟨step, due, hphase⟩ := phase_of_awaits hx
  have hcontinues := (keeping_work p x step (.forwarding f due d)).continues
  rw [advance, hphase] at hafter
  dsimp only at hafter
  generalize (work p x step (.forwarding f due d)).next = next at hcontinues hafter
  cases hcontinues with
  | crashes hw => cases hw
  | _ => cases hafter

theorem recalls_discards (xs : List Execution) (p : Plane) :
    p.Recalls (xs.foldl (fun q x => x.discard q) p) := by
  have hdiscard : ∀ (x : Execution) (p : Plane), p.Recalls (x.discard p) := by
    intro x p c hc
    have hdrops : ∀ (hs : List Nat) (q : Plane),
        (hs.foldl (fun q i => q.modifyHandle i Prepared.drop) q).cancellations =
          q.cancellations := by
      intro hs
      induction hs with
      | nil => exact fun _ => rfl
      | cons i hs ih => exact fun q => ih _
    have hsame : (x.discard p).cancellations = p.cancellations := hdrops _ _
    rw [isCancelled.eq_def, hsame]
    exact hc
  induction xs generalizing p with
  | nil => exact fun _ h => h
  | cons x xs ih => exact (hdiscard x p).trans (ih _)

theorem links_discards (xs : List Execution) (p : Plane) :
    (xs.foldl (fun q x => x.discard q) p).links = p.links :=
  links_foldl (g := fun (q : Plane) (x : Execution) => x.discard q) links_discard _ _

/-- On the turn on which an operation breaks down nothing becomes of the links. -/
theorem relinks_of_crash (done : Nat → Prop) (hafter : (x.advance p).next.after? = none) :
    p.Relinks (Link.Rests done) (x.advance p).plane := by
  have hidle := awaits?_of_crash hafter
  refine (relinks_advance p x).mono fun l a b hturned => ?_
  cases hturned with
  | stays => exact .refl done l a
  | takes hawaits | abandons hawaits => cases hidle.symm.trans hawaits
  | offers hprepares =>
    obtain ⟨-, y, i, due, hy, -⟩ := hprepares
    cases hafter.symm.trans hy

section Runs

variable (h : Stable new I)

include h

/-- Whoever breaks down tells nobody but its origin. -/
theorem Stable.crashed (hI : I p (x :: rest ++ xs) past)
    (hmoored : (Task.operation (x :: rest) origin).Moored)
    (hopen : ∀ answer, x.phase ≠ .ended answer) (hafter : (x.advance p).next.after? = none)
    (hnested : ∀ z ∈ rest, z.awaits? = none)
    (hpersists : Persists p ((Task.operation (x :: rest) origin).advance p).plane) :
    I ((Task.operation (x :: rest) origin).advance p).plane
      (((Task.operation (x :: rest) origin).advance p).progress.remains.flatMap Task.stack ++ xs)
      (⟨p, x⟩ :: past) := by
  obtain ⟨hfair, -⟩ := fair_of_crash hafter
  obtain ⟨reason, hnext⟩ := Next.eq_crashed hafter
  obtain ⟨hplane, hremains⟩ := Task.advanceStack_of_crashed rest origin hopen hnext
  have hleft : p.Relinks (Link.Rests fun l => ∃ z ∈ x :: rest, z.link? = some l)
      ((x :: rest).foldl (fun q y => y.discard q) (x.advance p).plane) :=
    (relinks_of_crash _ hafter).same (links_discards (x :: rest) _)
  have hrelinks := hleft.trans ((origin.relinks_tellCrash _ reason).mono fun l a b hrests =>
    ⟨hrests.offer, hrests.listening, hrests.final.imp_right fun ⟨hl, hfinal⟩ =>
      ⟨hmoored.link? hl, hfinal⟩⟩) fun _ _ _ _ => Link.Rests.trans
  have hrecalls := (hfair.recalls.trans (recalls_discards (x :: rest) _)).trans
    (origin.fair_tellCrash _ reason).recalls
  rw [hplane] at hpersists
  rw [hplane, hremains]
  exact h.breaks hI (List.forall_mem_cons.mpr ⟨awaits?_of_crash hafter, hnested⟩) hafter
    ⟨hpersists, hrecalls, hrelinks⟩

theorem Stable.after (hnested : ∀ c value, new (Execution.new c value (.decide .keep) {} .discard))
    (hI : I p (x :: rest ++ xs) past) (hp : p.Accounts (x :: rest ++ xs) late past)
    (hopen : ∀ answer, x.phase ≠ .ended answer) (hy : (x.advance p).next.after? = some y)
    (hpersists : Persists p ((Task.operation (x :: rest) origin).advance p).plane) :
    I ((Task.operation (x :: rest) origin).advance p).plane
      (((Task.operation (x :: rest) origin).advance p).spawned.flatMap Task.stack ++
        (((Task.operation (x :: rest) origin).advance p).progress.remains.flatMap Task.stack ++ xs))
      (⟨p, x⟩ :: past) := by
  obtain ⟨-, hspawned⟩ := Task.advanceStack_of_open (p := p) rest origin hopen
  obtain ⟨hplane, hremains⟩ := Task.advanceStack_of_after rest origin hopen hy
  rw [hplane] at hpersists
  have hturn := h.turn hI hp hopen hy hpersists
  rw [hplane, hspawned]
  rcases hremains with hremains | ⟨-, c, value, hremains⟩
  · rw [hremains]
    simpa [Task.stack] using hturn
  · have hjoined := h.begins hturn c value (.decide .keep) {} .discard (hnested c value)
    rw [hremains]
    refine h.perm hjoined ?_
    simpa [Task.stack] using List.perm_middle.symm

/-- **What is stable survives whatever task runs.** -/
theorem Stable.runs {t : Task} {tasks : List Task}
    (hnested : ∀ c value, new (Execution.new c value (.decide .keep) {} .discard))
    (hw : Inv ⟨p, t :: tasks, past⟩) (hmoored : t.Moored)
    (hspawned : t.stack = [] → ∀ s ∈ (t.advance p).spawned, ∀ x ∈ s.stack, new x)
    (hI : I p (executions ⟨p, t :: tasks, past⟩) past) :
    I (t.advance p).plane (((t.advance p).spawned ++
      ((t.advance p).progress.remains ++ tasks)).flatMap Task.stack) (t.moments p ++ past) := by
  have hpersists : Persists p (t.advance p).plane := (hw.step (.runs p t tasks past)).2
  have hidle := hw.nested _ List.mem_cons_self
  rw [List.flatMap_append, List.flatMap_append]
  cases t.proceeds p with
  | rests => exact hI
  | @tells x origin answer hphase hadvance hmoments =>
    rw [hmoments]
    rw [hadvance] at hpersists ⊢
    refine h.ends hI (by rw [awaits?, hphase]) ⟨hpersists, (origin.fair_tell p answer).recalls, ?_⟩
    refine (origin.relinks_tell p answer).mono fun l a b hrests =>
      ⟨hrests.offer, hrests.listening, hrests.final.imp_right fun hbound => ⟨?_, hbound.2⟩⟩
    obtain ⟨z, hz, hlink⟩ := hmoored.link? hbound.1
    obtain rfl := List.mem_singleton.mp hz
    exact hlink
  | @resumes x y ys origin answer hphase hadvance hmoments =>
    have hrest : I p (y :: ys ++ tasks.flatMap Task.stack) past :=
      h.ends hI (by rw [awaits?, hphase]) (.refl _ p)
    rw [hmoments, hadvance]
    simpa [Progress.remains, Task.stack] using h.resumes hrest answer
  | turns hopen hy =>
    rw [(Task.advanceStack_of_open (p := p) _ _ hopen).1]
    exact h.after hnested hI hw.accounts hopen hy hpersists
  | @crashes x rest origin reason hopen hnext =>
    have hafter : (x.advance p).next.after? = none := by rw [hnext]; rfl
    obtain ⟨hmoments, hstarted⟩ := Task.advanceStack_of_open (p := p) rest origin hopen
    have hnobody : (x.advance p).spawned.flatMap Task.stack = [] := by
      rcases spawned_turn p x with ⟨hstack, -⟩ | ⟨-, -, -, ⟨-, y, hy, -⟩, -⟩
      · exact List.flatMap_eq_nil_iff.mpr hstack
      · cases hafter.symm.trans hy
    rw [hmoments, hstarted, hnobody]
    exact h.crashed hI hmoored hopen hafter hidle hpersists
  | other hother hstack hmoments =>
    have hmoved := Task.moved_advance p hother
    have hremains : (t.advance p).progress.remains.flatMap Task.stack = [] :=
      List.flatMap_eq_nil_iff.mpr fun s hs => (hmoved.remains s hs).1
    rw [executions, List.flatMap_cons, hstack] at hI
    rw [hmoments, hremains]
    have hq := h.around hI ⟨hpersists, (Task.fair_advance p hother).recalls,
      relinks_of_links (Link.Rests.refl _) (Task.links_advance p hother)⟩
    exact h.joins _ (fun s hs => ⟨⟨_, hmoved.spawned s hs⟩, hspawned hstack s hs⟩) hq

end Runs

end World

end ManagementPlane
