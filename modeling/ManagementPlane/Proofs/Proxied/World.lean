import ManagementPlane.Proofs.Proxied.Ledger

/-!
# Proofs/Proxied/World — all operations, and everybody else

A `World` is a plane with the tasks that run in it and the turns that its operations have taken.  On
a step any of the tasks runs, whatever the others wait for, or something happens from outside: an
operation begins, a caller decides one that it was given, an actor is taken away, a participant of
whatever kind reports (`Outside`).

`Task.Proceeds` lists what a task does when it runs.  `Inv.step` is the step lemma and
`Reachable.inv` the run lemma: in every world that is reached the plane accounts for all operations.
-/

namespace ManagementPlane

open Plane Execution

/-- The turn that an operation takes when its task runs. -/
def Task.moments (p : Plane) : Task → List Moment
  | operation (x :: _) _ =>
    match x.phase with
    | .ended _ => []
    | _ => [⟨p, x⟩]
  | _ => []

/-- What happens to a plane from outside, as long as operations wait as `ss` says. -/
inductive Outside (ss : List Stance) : Plane → Plane → Prop
  /-- The clock, the models, the logs, channels, cancellations: whatever is no handle and no
  report. -/
  | eases {p q : Plane} (h : p.Eases q) : Outside ss p q
  /-- A caller decides a handle, or an actor one that was sent to it. -/
  | decides {p : Plane} {h : Nat} (hh : p.Loose h) (d : Decision) : Outside ss p (p.decide h d).2
  | drops {p : Plane} {h : Nat} (hh : p.Loose h) : Outside ss p (p.modifyHandle h Prepared.drop)
  | stops (p : Plane) (a : Nat) : Outside ss p (p.dropActor a)
  /-- A participant prepares, be it the first time, once more, or too late. -/
  | prepares (p : Plane) {f : Nat} {record : Prepared} (hf : Stance.Hearing ss f)
      (hr : record.Untouched) (response : Value) :
    Outside ss p ((p.newHandle record).2.reportOutcome f (.prepared p.handles.length response))
  | fails (p : Plane) {f : Nat} (hf : Stance.Hearing ss f) (response : Value) :
    Outside ss p (p.reportOutcome f (.failed response))

structure World where
  plane : Plane
  tasks : List Task := []
  /-- The turns of all operations, the latest first. -/
  past : List Moment := []

namespace World

def executions (w : World) : List Execution := w.tasks.flatMap Task.stack

def stances (w : World) : List Stance := w.executions.map stance

/-- The steps that tasks will report to on their own. -/
def late (w : World) : List Nat := w.tasks.filterMap Task.late?

inductive Step : World → World → Prop
  /-- It does not matter which task comes next. -/
  | orders {w : World} {tasks : List Task} (h : w.tasks.Perm tasks) : Step w { w with tasks }
  | runs (p : Plane) (t : Task) (tasks : List Task) (past : List Moment) :
    Step ⟨p, t :: tasks, past⟩
      { plane := (t.advance p).plane
        tasks := (t.advance p).spawned ++ ((t.advance p).progress.remains ++ tasks)
        past := t.moments p ++ past }
  | begins (w : World) {t : Task} (h : t.Begins fun _ => False) :
    Step w { w with tasks := t :: w.tasks }
  | outside {w : World} {q : Plane} (h : Outside w.stances w.plane q) :
    Step w { w with plane := q }

/-- One world comes to be another. -/
abbrev Leads : World → World → Prop := Relation.ReflTransGen Step

/-- Nothing was forwarded yet, and nothing is prepared. -/
structure Fresh (w : World) : Prop where
  handles : w.plane.handles = []
  forwards : w.plane.forwards = []
  places : ∀ k, w.plane.handlesAt k = []
  tasks : w.tasks = []
  past : w.past = []

def Reachable (w : World) : Prop := ∃ w₀ : World, w₀.Fresh ∧ w₀.Leads w

/-- The plane accounts for everything, and an operation with another one on top waits for no
participant. -/
structure Inv (w : World) : Prop where
  accounts : w.plane.Accounts w.executions w.late w.past
  nested : ∀ t ∈ w.tasks, ∀ x ∈ t.stack.tail, x.awaits? = none

end World

/-! ## From outside -/

namespace Plane

variable {p : Plane}

theorem moves_dropActor {heard : Nat → Prop} (p : Plane) (a : Nat) :
    Moves heard p (p.dropActor a) := by
  have hrequests : ∀ (rs : List ActorRequest) (q : Plane), p.Eases q →
      p.Eases (rs.foldl dropRequest q) := by
    intro rs
    induction rs with
    | nil => exact fun q hq => hq
    | cons r rs ih =>
      intro q hq
      refine ih _ ?_
      cases r <;> exact hq.same rfl rfl rfl rfl rfl
  have hdropped := hrequests (p.actor a).requests p (.refl p)
  refine hdropped.moves.bind fun hp => ?_
  have hpending : Moves heard ((p.actor a).requests.foldl dropRequest p)
      ((p.actor a).pending.foldl (fun q entry => q.modifyHandle entry.2 Prepared.drop)
        ((p.actor a).requests.foldl dropRequest p)) := by
    refine (moves_foldl (I := fun q => ∀ i ∈ (p.actor a).handles, q.Loose i) _ ?_ _ ?_).1
    · intro q entry hentry hq
      have hmem : entry.2 ∈ (p.actor a).handles :=
        List.mem_append_right _ (List.mem_map_of_mem hentry)
      exact ⟨moves_drop (hq _ hmem), fun i hi => hq i hi⟩
    · exact fun i hi => hdropped.loose (hp.loose hi)
  refine hpending.trans ((Eases.refl _).modifyActor a ?_).moves
  exact List.append_subset.mpr ⟨List.subset_append_left _ _, List.nil_subset _⟩

end Plane

theorem Outside.moves {ss : List Stance} {p q : Plane} (h : Outside ss p q) :
    Moves (Stance.Hearing ss) p q := by
  cases h with
  | eases h => exact h.moves
  | decides hh d => exact moves_decide hh d
  | drops hh => exact moves_drop hh
  | stops a => exact moves_dropActor p a
  | prepares hf hr response =>
    refine (moves_prepare p _ hr response).mono ?_
    rintro g rfl
    exact hf
  | fails hf response =>
    refine (moves_reportOutcome ?_).mono ?_
    · rintro h ⟨⟩
    · rintro g rfl
      exact hf

/-! ## The task of an operation -/

namespace Execution

variable {p : Plane} {x y z : Execution}

/-- Only running steps start anything, and only they do anything else than to go on or to wait. -/
theorem idle_advance (p : Plane) (hidle : ∀ step w, x.phase ≠ .handling step w) :
    (x.advance p).spawned = [] ∧
      ((∃ y, (x.advance p).next = .going y) ∨ ∃ y, (x.advance p).next = .blocked y) := by
  have hgoing : ∀ {q : Plane} {y : Execution} {t : Turn}, t = { plane := q, next := .going y } →
      t.spawned = [] ∧ ((∃ y, t.next = .going y) ∨ ∃ y, t.next = .blocked y) := by
    rintro q y t rfl
    exact ⟨rfl, .inl ⟨y, rfl⟩⟩
  have hblocked : ∀ {q : Plane} {y : Execution} {t : Turn}, t = { plane := q, next := .blocked y } →
      t.spawned = [] ∧ ((∃ y, t.next = .going y) ∨ ∃ y, t.next = .blocked y) := by
    rintro q y t rfl
    exact ⟨rfl, .inr ⟨y, rfl⟩⟩
  rw [advance]
  split
  · rw [begin]
    split
    · exact hgoing rfl
    · dsimp only
      split
      · exact hgoing rfl
      · split
        · exact hgoing rfl
        · split <;> exact hgoing rfl
  · rw [awaitLock]
    dsimp only
    split
    · exact hgoing rfl
    · split
      · exact hgoing rfl
      · exact hblocked rfl
  · rw [pick]
    dsimp only
    split
    · split <;> exact hgoing rfl
    · split
      · exact hgoing rfl
      · split <;> exact hgoing rfl
  · exact absurd ‹_› (hidle _ _)
  · next i due _ =>
    have happly : ∀ d, (apply p x i d).spawned = [] ∧
        ((∃ y, (apply p x i d).next = .going y) ∨ ∃ y, (apply p x i d).next = .blocked y) := by
      intro d
      rw [apply.eq_def]
      dsimp only
      split
      · split <;> exact hgoing rfl
      · exact hgoing rfl
    rw [decide.eq_def]
    split
    · exact happly _
    · split
      · split
        · exact happly _
        · exact hblocked rfl
      · exact hblocked rfl
  · next e _ =>
    rw [unwind]
    split
    · cases e <;> exact hgoing rfl
    · exact hgoing rfl
  · rw [drain]
    dsimp only
    split
    · exact hgoing rfl
    · split
      · exact hgoing rfl
      · split
        · exact hgoing rfl
        · split
          · exact hgoing rfl
          · exact hblocked rfl
  · exact hblocked rfl

/-- Whoever lets another operation run waits for that one then. -/
theorem phase_of_nesting {v : Value} (h : (x.advance p).next = .nesting z v) :
    ∃ step frames, z.phase = .handling step (.nesting frames) := by
  by_cases hhandling : ∃ step w, x.phase = .handling step w
  · obtain ⟨step, w, hphase⟩ := hhandling
    have hcontinues := (keeping_work p x step w).continues
    rw [advance, hphase] at h
    dsimp only at h
    rw [h] at hcontinues
    cases hcontinues
    exact ⟨step, _, rfl⟩
  · rcases (idle_advance p fun step w hphase => hhandling ⟨step, w, hphase⟩).2 with
      ⟨y, hnext⟩ | ⟨y, hnext⟩ <;> cases hnext.symm.trans h

end Execution

/-- An operation that does not go on broke down. -/
theorem Next.eq_crashed {next : Next} (h : next.after? = none) :
    ∃ reason, next = .crashed reason := by
  cases next with
  | crashed reason => exact ⟨reason, rfl⟩
  | _ => cases h

namespace Task

variable {p : Plane} {x y : Execution} (rest : List Execution) (origin : Origin)

theorem advanceStack_of_open (hopen : ∀ answer, x.phase ≠ .ended answer) :
    (operation (x :: rest) origin).moments p = [⟨p, x⟩] ∧
      ((operation (x :: rest) origin).advance p).spawned = (x.advance p).spawned := by
  constructor
  · rw [moments]
    split
    · exact absurd ‹_› (hopen _)
    · rfl
  · rw [advance, advanceStack]
    split
    · exact absurd ‹_› (hopen _)
    · dsimp only
      split <;> rfl

/-- An operation that goes on stays on its stack, and perhaps another one begins on top of it. -/
theorem advanceStack_of_after (hopen : ∀ answer, x.phase ≠ .ended answer)
    (hy : (x.advance p).next.after? = some y) :
    ((operation (x :: rest) origin).advance p).plane = (x.advance p).plane ∧
      (((operation (x :: rest) origin).advance p).progress.remains =
          [operation (y :: rest) origin] ∨
        (∃ step frames, y.phase = .handling step (.nesting frames)) ∧ ∃ c value,
          ((operation (x :: rest) origin).advance p).progress.remains =
            [operation (Execution.new c value (.decide .keep) {} .discard :: y :: rest)
              origin]) := by
  rw [advance, advanceStack]
  split
  · exact absurd ‹_› (hopen _)
  · dsimp only
    split <;> rename_i hnext <;> rw [hnext] at hy
    · cases hy
      exact ⟨rfl, .inl rfl⟩
    · cases hy
      exact ⟨rfl, .inl rfl⟩
    · cases hy
      exact ⟨rfl, .inl rfl⟩
    · cases hy
      exact ⟨rfl, .inr ⟨phase_of_nesting hnext, _, _, rfl⟩⟩
    · cases hy

theorem advanceStack_of_crashed (hopen : ∀ answer, x.phase ≠ .ended answer) {reason : String}
    (hnext : (x.advance p).next = .crashed reason) :
    ((operation (x :: rest) origin).advance p).plane =
        origin.tellCrash ((x :: rest).foldl (fun q y => y.discard q) (x.advance p).plane) reason ∧
      ((operation (x :: rest) origin).advance p).progress.remains = [] := by
  rw [advance, advanceStack]
  split
  · exact absurd ‹_› (hopen _)
  · dsimp only
    rw [hnext]
    exact ⟨rfl, rfl⟩

/-- What a task does on its step. -/
inductive Proceeds (p : Plane) : Task → Prop
  | rests (origin : Origin) : Proceeds p (operation [] origin)
  /-- The last operation has returned. -/
  | tells {x : Execution} {origin : Origin} {answer : Answer} (hphase : x.phase = .ended answer)
      (hadvance : (operation [x] origin).advance p =
        { plane := origin.tell p answer, progress := .finished })
      (hmoments : (operation [x] origin).moments p = []) : Proceeds p (operation [x] origin)
  /-- An operation has returned to the one below it. -/
  | resumes {x y : Execution} {ys : List Execution} {origin : Origin} {answer : Answer}
      (hphase : x.phase = .ended answer)
      (hadvance : (operation (x :: y :: ys) origin).advance p =
        { plane := (y.resume p answer).1
          progress := .going (operation ((y.resume p answer).2 :: ys) origin) })
      (hmoments : (operation (x :: y :: ys) origin).moments p = []) :
    Proceeds p (operation (x :: y :: ys) origin)
  | turns {x y : Execution} {rest : List Execution} {origin : Origin}
      (hopen : ∀ answer, x.phase ≠ .ended answer) (hy : (x.advance p).next.after? = some y) :
    Proceeds p (operation (x :: rest) origin)
  | crashes {x : Execution} {rest : List Execution} {origin : Origin} {reason : String}
      (hopen : ∀ answer, x.phase ≠ .ended answer)
      (hnext : (x.advance p).next = .crashed reason) : Proceeds p (operation (x :: rest) origin)
  | other {t : Task} (ht : ∀ stack origin, t ≠ .operation stack origin) (hstack : t.stack = [])
      (hmoments : t.moments p = []) : Proceeds p t

/-- **A task proceeds in one of the listed ways.** -/
theorem proceeds (p : Plane) (t : Task) : t.Proceeds p := by
  by_cases ht : ∃ stack origin, t = .operation stack origin
  · obtain ⟨ops, origin, rfl⟩ := ht
    cases ops with
    | nil => exact .rests origin
    | cons x rest =>
      by_cases hended : ∃ answer, x.phase = .ended answer
      · obtain ⟨answer, hphase⟩ := hended
        cases rest with
        | nil =>
          refine .tells hphase ?_ ?_
          · rw [advance, advanceStack, hphase]
          · rw [moments, hphase]
        | cons y ys =>
          refine .resumes hphase ?_ ?_
          · rw [advance, advanceStack, hphase]
          · rw [moments, hphase]
      · have hopen : ∀ answer, x.phase ≠ .ended answer := fun answer h => hended ⟨answer, h⟩
        cases hafter : (x.advance p).next.after? with
        | some y => exact .turns hopen hafter
        | none =>
          obtain ⟨reason, hnext⟩ := Next.eq_crashed hafter
          exact .crashes hopen hnext
  · have hother : ∀ stack origin, t ≠ .operation stack origin :=
      fun stack origin heq => ht ⟨stack, origin, heq⟩
    cases t with
    | operation stack origin => exact absurd rfl (hother stack origin)
    | _ => exact .other hother rfl rfl

/-- What the step of a task makes of the accounts; the other operations are `xs`. -/
structure Runs (t : Task) (p : Plane) (xs : List Execution) (late : List Nat)
    (past : List Moment) : Prop where
  accounts : (t.advance p).plane.Accounts ((t.advance p).progress.remains.flatMap stack ++ xs)
    late (t.moments p ++ past)
  persists : Persists p (t.advance p).plane
  spawned : ∀ s ∈ (t.advance p).spawned, s.Begins fun f =>
    ∃ x ∈ (t.advance p).progress.remains.flatMap stack, x.stance.Hears f
  late : ∀ s ∈ (t.advance p).progress.remains, ∀ f, s.late? = some f → t.late? = some f
  nested : ∀ s ∈ (t.advance p).progress.remains, ∀ y ∈ s.stack.tail, y.awaits? = none

variable {rest : List Execution} {origin : Origin} {xs : List Execution} {late : List Nat}
  {past : List Moment}

/-- An operation takes a turn and goes on. -/
theorem runs_after (hopen : ∀ answer, x.phase ≠ .ended answer)
    (hy : (x.advance p).next.after? = some y)
    (hq : (x.advance p).plane.Accounts (y :: rest ++ xs) late (⟨p, x⟩ :: past) ∧
      Persists p (x.advance p).plane)
    (hspawned : ∀ s ∈ (x.advance p).spawned, s.Begins y.stance.Hears)
    (hnested : ∀ z ∈ rest, z.awaits? = none) :
    (operation (x :: rest) origin).Runs p xs late past := by
  obtain ⟨hmoments, hspawned'⟩ := advanceStack_of_open (p := p) rest origin hopen
  obtain ⟨hplane, hremains⟩ := advanceStack_of_after rest origin hopen hy
  have hmem : y ∈ ((operation (x :: rest) origin).advance p).progress.remains.flatMap stack := by
    rcases hremains with hremains | ⟨-, c, value, hremains⟩ <;>
      simp [hremains, stack]
  constructor
  · rw [hplane, hmoments]
    rcases hremains with hremains | ⟨-, c, value, hremains⟩
    · simpa [hremains, stack] using hq.1
    · simpa [hremains, stack] using hq.1.begins c value (.decide .keep) {} .discard
  · rw [hplane]
    exact hq.2
  · rw [hspawned']
    exact fun s hs => (hspawned s hs).mono fun f hf => ⟨y, hmem, hf⟩
  · rcases hremains with hremains | ⟨-, c, value, hremains⟩
    all_goals
      rw [hremains]
      rintro s (_ | ⟨_, ⟨⟩⟩) f ⟨⟩
  · rcases hremains with hremains |
      ⟨⟨step, frames, hphase⟩, c, value, hremains⟩
    · rw [hremains]
      rintro s (_ | ⟨_, ⟨⟩⟩) z hz
      exact hnested z hz
    · have hidle : y.awaits? = none := by rw [awaits?, hphase]
      rw [hremains]
      rintro s (_ | ⟨_, ⟨⟩⟩)
      exact List.forall_mem_cons.mpr ⟨hidle, hnested⟩

/-- An operation breaks down, with those below it. -/
theorem runs_crashed (hp : p.Accounts (x :: rest ++ xs) late past)
    (hopen : ∀ answer, x.phase ≠ .ended answer) (hnot : ∀ h d, ¬ x.Tells h d) {reason : String}
    (hnext : (x.advance p).next = .crashed reason)
    (hdeals : Deals (p, x.stance) ((x.advance p).plane, x.stance)) (hidle : x.awaits? = none)
    (hspawned : (x.advance p).spawned = []) (hnested : ∀ y ∈ rest, y.awaits? = none) :
    (operation (x :: rest) origin).Runs p xs late past := by
  obtain ⟨hmoments, hspawned'⟩ := advanceStack_of_open (p := p) rest origin hopen
  obtain ⟨hplane, hremains⟩ := advanceStack_of_crashed rest origin hopen hnext
  obtain ⟨hq, hpersists⟩ := hp.crashes hnot hdeals (List.forall_mem_cons.mpr ⟨hidle, hnested⟩)
  obtain ⟨hr, hpersists'⟩ := hq.eases (origin.eases_tellCrash _ reason)
  constructor
  · rw [hplane, hmoments, hremains]
    exact hr
  · rw [hplane]
    exact hpersists.trans hpersists'
  · rw [hspawned', hspawned]
    rintro s ⟨⟩
  all_goals
    rw [hremains]
    rintro s ⟨⟩

/-- An operation that has not returned takes a turn. -/
theorem runs_open (hp : p.Accounts (x :: rest ++ xs) late past)
    (hopen : ∀ answer, x.phase ≠ .ended answer) (hnested : ∀ y ∈ rest, y.awaits? = none) :
    (operation (x :: rest) origin).Runs p xs late past := by
  obtain ⟨⟨turns, hstory, -⟩, -⟩ := List.forall_mem_cons.mp hp.storied
  by_cases htells : ∃ h d, x.Tells h d
  · obtain ⟨h, d, htells⟩ := htells
    obtain ⟨y, held, hnext, -, -, -, hspawned⟩ := tells_advance (p := p) hstory.lived htells
    have hy : (x.advance p).next.after? = some y := by rw [hnext]; rfl
    exact runs_after hopen hy (hp.tells hopen htells hy) (by simp [hspawned]) hnested
  · have hnot : ∀ h d, ¬ x.Tells h d := fun h d hd => htells ⟨h, d, hd⟩
    cases turned_advance (p := p) hstory.lived hopen hnot with
    | deals hy hdeals _ hspawned =>
      exact runs_after hopen hy (hp.deals hopen hnot hy hdeals) hspawned hnested
    | crashes hnext hdeals hidle hspawned =>
      exact runs_crashed hp hopen hnot hnext hdeals hidle hspawned hnested

/-- **The step of a task keeps the accounts.** -/
theorem runs {t : Task} (hp : p.Accounts (t.stack ++ xs) late past)
    (hnested : ∀ y ∈ t.stack.tail, y.awaits? = none)
    (hlate : ∀ f, t.late? = some f → Stance.Hearing ((t.stack ++ xs).map stance) f) :
    t.Runs p xs late past := by
  cases t.proceeds p with
  | rests => exact ⟨hp, .refl p, by rintro s ⟨⟩, by rintro s ⟨⟩, by rintro s ⟨⟩⟩
  | @tells x origin answer hphase hadvance hmoments =>
    obtain ⟨hq, hpersists⟩ := (hp.ends hphase).eases (origin.eases_tell p answer)
    constructor
    · rw [hadvance, hmoments]
      exact hq
    · rw [hadvance]
      exact hpersists
    all_goals
      rw [hadvance]
      rintro s ⟨⟩
  | @resumes x y ys origin answer hphase hadvance hmoments =>
    have hrest : p.Accounts (y :: ys ++ xs) late past := hp.ends hphase
    obtain ⟨hq, hpersists⟩ := Accounts.resumes hrest answer
    constructor
    · rw [hadvance, hmoments]
      simpa [Progress.remains, stack] using hq
    · rw [hadvance]
      exact hpersists
    · rw [hadvance]
      rintro s ⟨⟩
    · rw [hadvance]
      rintro s (_ | ⟨_, ⟨⟩⟩) f ⟨⟩
    · rw [hadvance]
      rintro s (_ | ⟨_, ⟨⟩⟩) z hz
      exact hnested z (List.mem_cons_of_mem y hz)
  | turns hopen hy => exact runs_open hp hopen hnested
  | crashes hopen => exact runs_open hp hopen hnested
  | other ht hstack hmoments =>
    rw [hstack] at hp hlate
    have hmoved := moved_advance p ht
    have hstacks : (t.advance p).progress.remains.flatMap stack = [] :=
      List.flatMap_eq_nil_iff.mpr fun s hs => (hmoved.remains s hs).1
    obtain ⟨hq, hpersists⟩ := Accounts.moves hp hmoved.moves hlate
    constructor
    · rw [hstacks, hmoments]
      exact hq
    · exact hpersists
    · exact fun s hs => (hmoved.spawned s hs).mono fun _ h => h.elim
    · exact fun s hs => (hmoved.remains s hs).2
    · intro s hs y hy
      rw [(hmoved.remains s hs).1] at hy
      cases hy

end Task

/-! ## All together -/

namespace World

variable {w w' : World} {p : Plane} {xs : List Execution} {late : List Nat} {past : List Moment}

/-- Tasks that did nothing yet join. -/
theorem accounts_spawned (ts : List Task) (hp : p.Accounts xs late past)
    (hts : ∀ t ∈ ts, t.Begins fun f => ∃ x ∈ xs, x.stance.Hears f) :
    p.Accounts (ts.flatMap Task.stack ++ xs) (ts.filterMap Task.late? ++ late) past := by
  induction ts with
  | nil => exact hp
  | cons t ts ih =>
    obtain ⟨ht, hts⟩ := List.forall_mem_cons.mp hts
    have hrest := ih hts
    cases t with
    | operation stack origin =>
      obtain ⟨c, operation, control, input, sink, rfl⟩ := ht
      exact hrest.begins c operation control input sink
    | prepareLate wake f response =>
      obtain ⟨x, hx, hf⟩ := ht
      exact hrest.awaits ⟨x, List.mem_append_right _ hx, hf⟩
    | _ => exact hrest

/-- A task that did nothing yet has nothing on top of anything. -/
theorem nested_of_begins {late : Nat → Prop} {t : Task} (ht : t.Begins late) :
    ∀ y ∈ t.stack.tail, y.awaits? = none := by
  cases t with
  | operation stack origin =>
    obtain ⟨c, operation, control, input, sink, rfl⟩ := ht
    rintro y ⟨⟩
  | _ => rintro y ⟨⟩

theorem Inv.fresh (hw : w.Fresh) : w.Inv := by
  have hforward : ∀ f, w.plane.forward f = {} := fun f => by
    rw [Plane.forward, hw.forwards]
    rfl
  have htidy : w.plane.Tidy := by
    constructor
    · exact fun hk => by simp [hw.places] at hk
    · exact fun hk => by simp [hw.places] at hk
    · exact fun f => by simp [hw.places]
    · exact fun ho => by simp [hforward] at ho
    · exact fun hr => by simp [hforward] at hr
    · exact fun hl => by simp [hw.places] at hl
  have hnone : ∀ {f h}, ¬ w.plane.Accepts f h := by simp [Accepts, hforward]
  refine ⟨⟨⟨htidy, ?_, ?_, ?_, ?_, ?_, ?_, ?_, ?_, ?_⟩, ⟨?_, ?_, ?_, ?_⟩, ?_⟩, ?_⟩
  all_goals simp only [executions, World.late, hw.tasks, hw.past, List.flatMap_nil, List.map_nil,
    List.filterMap_nil]
  · rintro f ⟨s, ⟨⟩, -⟩
  · exact List.nodup_nil
  · exact fun _ => by rw [hforward]
  · rintro f ⟨hf, -⟩
    rw [hw.forwards] at hf
    cases hf
  · exact List.nodup_nil
  · rintro h ⟨s, ⟨⟩, -⟩
  · rintro f h ⟨s, ⟨⟩, -⟩
  · exact fun ha => absurd ha hnone
  · rintro f ⟨⟩
  · rintro m ⟨⟩
  · exact fun ha => absurd ha hnone
  · rintro m ⟨⟩
  · exact List.nodup_nil
  · rintro x ⟨⟩
  · rintro t ⟨⟩

/-- **Every step keeps the accounts**, and leaves what was decided as it is. -/
theorem Inv.step (hw : w.Inv) (h : Step w w') : w'.Inv ∧ Persists w.plane w'.plane := by
  obtain ⟨haccounts, hnested⟩ := hw
  cases h with
  | orders hperm =>
    refine ⟨⟨(haccounts.perm (hperm.flatMap_right _)).mono ?_, ?_⟩, .refl _⟩
    · exact (hperm.filterMap _).symm.subset
    · exact fun t ht => hnested t (hperm.mem_iff.mpr ht)
  | runs p t tasks past =>
    obtain ⟨hhead, htail⟩ := List.forall_mem_cons.mp hnested
    have hruns : t.Runs p (tasks.flatMap Task.stack) (World.late ⟨p, t :: tasks, past⟩) past :=
      Task.runs haccounts hhead fun f hf =>
        (haccounts.sound.late (List.mem_filterMap.mpr ⟨t, List.mem_cons_self, hf⟩)).2
    refine ⟨⟨?_, ?_⟩, hruns.persists⟩
    · have hjoined := accounts_spawned (t.advance p).spawned hruns.accounts fun s hs =>
        (hruns.spawned s hs).mono fun f ⟨x, hx, hf⟩ => ⟨x, List.mem_append_left _ hx, hf⟩
      refine (hjoined.perm (.of_eq ?_)).mono ?_
      · simp [executions]
      · intro f hf
        simp only [World.late, List.filterMap_append, List.mem_append] at hf ⊢
        rcases hf with hf | hf | hf
        · exact .inl hf
        · obtain ⟨s, hs, hf⟩ := List.mem_filterMap.mp hf
          exact .inr (List.mem_filterMap.mpr ⟨t, List.mem_cons_self, hruns.late s hs f hf⟩)
        · obtain ⟨s, hs, hf⟩ := List.mem_filterMap.mp hf
          exact .inr (List.mem_filterMap.mpr ⟨s, List.mem_cons_of_mem t hs, hf⟩)
    · intro s hs
      rcases List.mem_append.mp hs with hs | hs
      · exact nested_of_begins (hruns.spawned s hs)
      · rcases List.mem_append.mp hs with hs | hs
        · exact hruns.nested s hs
        · exact htail s hs
  | @begins w t ht =>
    have hjoined := accounts_spawned [t] haccounts
      (List.forall_mem_singleton.mpr (ht.mono fun _ h => h.elim))
    refine ⟨⟨?_, List.forall_mem_cons.mpr ⟨nested_of_begins ht, hnested⟩⟩, .refl _⟩
    refine (hjoined.perm (.of_eq ?_)).mono ?_
    · simp [executions]
    · simp [World.late, List.filterMap_cons]
      split <;> simp
  | outside hq =>
    obtain ⟨hq', hpersists⟩ := haccounts.moves hq.moves fun _ hf => hf
    exact ⟨⟨hq', hnested⟩, hpersists⟩

theorem Inv.leads (hw : w.Inv) (h : w.Leads w') : w'.Inv ∧ Persists w.plane w'.plane := by
  induction h with
  | refl => exact ⟨hw, .refl _⟩
  | tail _ hstep ih =>
    obtain ⟨hinv, hpersists⟩ := ih
    obtain ⟨hinv', hpersists'⟩ := hinv.step hstep
    exact ⟨hinv', hpersists.trans hpersists'⟩

/-- **The plane accounts for all operations, in every world that is reached.** -/
theorem Reachable.inv (h : w.Reachable) : w.Inv := by
  obtain ⟨w₀, hfresh, hleads⟩ := h
  exact ((Inv.fresh hfresh).leads hleads).1

end World

end ManagementPlane
