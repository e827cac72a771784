import ManagementPlane.Proofs.Proxied.Lockstep
import ManagementPlane.Proofs.Proxied.Stable

/-!
# Proofs/Proxied/Kinship — operations that share a cancellation

The cancellation that an operation was given is passed on to the participants of its steps in the
same process, and from them to theirs.  Every one of these operations has a place of its own
(`Execution.seat`), and all the turns that were taken in this place are its own (`Kin.storied`).

When the first of them prepares, all of them have: the participant of a step cannot be accepted
before it has prepared (`Kin.engaged`), and its link is younger than that of its parent, so the
induction is on the number of the link.  From then on none of them looks at the cancellation
(`Kin.heedless`).
-/

namespace ManagementPlane

open Plane Execution

/-- The turns that were taken in the place `s`. -/
def seated (c : Nat) (s : Option Nat) (past : List Moment) : List Moment :=
  past.filter fun m => m.execution.seat c = some s

/-- The operation with the link has prepared. -/
def Engaged (past : List Moment) (l : Nat) : Prop :=
  ∃ m ∈ past, m.Prepares ∧ m.execution.link? = some l

/-- The operation runs, or has taken a turn. -/
def Known (xs : List Execution) (past : List Moment) (x : Execution) : Prop :=
  x ∈ xs ∨ ∃ m ∈ past, m.execution = x

/-- The operations with links or the cancellation `c`, and what became of their participants. -/
structure Kin (c : Nat) (p : Plane) (xs : List Execution) (past : List Moment) : Prop where
  /-- No two of them have the same place. -/
  seats : (xs.filterMap (seat c)).Nodup
  storied : ∀ x ∈ xs, ∀ s, x.seat c = some s → Story (seated c s past) p x
  /-- All that went before a turn in the same place led to it. -/
  behind : ∀ later m earlier, past = later ++ m :: earlier → ∀ s, m.execution.seat c = some s →
    Story (seated c s earlier) m.plane m.execution
  numbered : ∀ x, Known xs past x → ∀ l, x.link? = some l → l < p.links.length
  /-- Whoever has a link was forwarded to over it, and has the input of its parent. -/
  linked : ∀ x, Known xs past x → ∀ l, x.link? = some l →
    ∃ m ∈ past, ∃ f, m.Links f l ∧ m.execution.context.input = x.context.input
  offered : ∀ l, (p.link l).offer ≠ none → Engaged past l
  /-- Links of participants are younger than those of their parents. -/
  younger : ∀ m ∈ past, ∀ f l, m.Links f l → ∀ k, m.execution.link? = some k → k < l
  /-- As long as its participant has not prepared, a step waits for it, or is over without it. -/
  pending : ∀ m ∈ past, ∀ f l, m.Links f l → f < p.forwards.length ∧
    (Engaged past l ∨ p.Shut f ∨ ∃ x ∈ xs, x.awaits? = some (f, .linked l))

variable {c : Nat} {p q : Plane} {done : Nat → Prop} {x y z : Execution}
  {xs ys : List Execution} {past : List Moment}
  {m : Moment} {s : Option Nat} {f l : Nat} {late : List Nat}

/-! ## Places -/

theorem seated_cons_of_eq (hm : m.execution.seat c = some s) :
    seated c s (m :: past) = m :: seated c s past := List.filter_cons_of_pos (by simpa using hm)

theorem seated_cons_of_ne (hm : m.execution.seat c ≠ some s) :
    seated c s (m :: past) = seated c s past := List.filter_cons_of_neg (by simpa using hm)

theorem mem_seated : m ∈ seated c s past ↔ m ∈ past ∧ m.execution.seat c = some s := by
  simp [seated]

theorem seat_of_link? (h : x.link? = some l) : x.seat c = some (some l) := by
  rw [seat, h]

theorem link?_of_seat (h : x.seat c = some (some l)) : x.link? = some l := by
  rw [seat] at h
  split at h
  · next hl => rw [hl, Option.some.inj h]
  · split at h <;> cases h

theorem seat_congr (hlink : y.link? = x.link?) (hinput : y.context.input = x.context.input) :
    y.seat c = x.seat c := by
  rw [seat, seat, hlink, hinput]

/-- Whoever has the cancellation has a place. -/
theorem exists_seat (h : x.context.input.cancellation = some c) : ∃ s, x.seat c = some s := by
  rw [seat, h]
  split
  · exact ⟨_, rfl⟩
  · exact ⟨none, if_pos rfl⟩

theorem seat_turn (hy : (x.advance p).next.after? = some y) : y.seat c = x.seat c :=
  seat_congr (link?_turn hy) (input_turn hy)

/-- All turns of an operation were taken in its place. -/
theorem Execution.Story.seat {turns : List Moment} (h : Story turns p x) :
    ∀ m ∈ turns, m.execution.seat c = x.seat c := by
  obtain ⟨p₀, d, operation, control, input, sink, hcourse⟩ := h
  induction hcourse with
  | start => rintro m ⟨⟩
  | around _ _ ih => exact ih
  | turn _ _ hy ih =>
    rw [seat_turn hy]
    exact List.forall_mem_cons.mpr ⟨rfl, ih⟩
  | @resume _ p x _ answer ih =>
    rw [seat_congr (link?_resume p x answer) (congrArg Context.input (context_resume p x answer))]
    exact ih

theorem Engaged.cons (h : Engaged past l) (m : Moment) : Engaged (m :: past) l := by
  obtain ⟨k, hk, hl⟩ := h
  exact ⟨k, List.mem_cons_of_mem m hk, hl⟩

namespace Kin

/-- Whoever runs beside an operation has another place. -/
theorem seat_ne (h : Kin c p (x :: xs) past) (hz : z ∈ xs) (hs : z.seat c = some s) :
    x.seat c ≠ some s := by
  intro hx
  have hseats := h.seats
  rw [List.filterMap_cons_some hx] at hseats
  exact (List.nodup_cons.mp hseats).1 (List.mem_filterMap.mpr ⟨z, hz, hs⟩)

/-- What led to a turn of the past. -/
theorem before (h : Kin c p xs past) (hm : m ∈ past) (hs : m.execution.seat c = some s) :
    ∃ earlier, earlier ⊆ past ∧ Story (seated c s earlier) m.plane m.execution := by
  obtain ⟨later, earlier, rfl⟩ := List.append_of_mem hm
  refine ⟨earlier, fun k hk => ?_, h.behind later m earlier rfl s hs⟩
  exact List.mem_append_right _ (List.mem_cons_of_mem m hk)

/-! ## Between the turns -/

/-- The operations are others now, but those with a place were there before, and nobody stopped to
wait at a link. -/
theorem shifts (h : Kin c p xs past) (hq : p.Aside done q) (hseats : (ys.filterMap (seat c)).Nodup)
    (hstoried : ∀ y ∈ ys, ∀ s, y.seat c = some s → Story (seated c s past) q y)
    (hknown : ∀ y ∈ ys, ∀ l, y.link? = some l →
      ∃ x ∈ xs, x.link? = some l ∧ x.context.input = y.context.input)
    (hawaits : ∀ x ∈ xs, ∀ f l, x.awaits? = some (f, .linked l) →
      ∃ y ∈ ys, y.awaits? = some (f, .linked l)) : Kin c q ys past where
  seats := hseats
  storied := hstoried
  behind := h.behind
  numbered := by
    rintro y (hy | hy) l hl
    · obtain ⟨x, hx, hxl, -⟩ := hknown y hy l hl
      exact (h.numbered x (.inl hx) l hxl).trans_le hq.relinks.count
    · exact (h.numbered y (.inr hy) l hl).trans_le hq.relinks.count
  linked := by
    rintro y (hy | hy) l hl
    · obtain ⟨x, hx, hxl, hinput⟩ := hknown y hy l hl
      rw [← hinput]
      exact h.linked x (.inl hx) l hxl
    · exact h.linked y (.inr hy) l hl
  offered l hl := h.offered l ((hq.relinks.link l).offer ▸ hl)
  younger := h.younger
  pending m hm f l hl := by
    obtain ⟨hf, hnow⟩ := h.pending m hm f l hl
    refine ⟨hf.trans_le hq.persists.count,
      hnow.imp_right (.imp (hq.persists.shut hf) ?_)⟩
    rintro ⟨x, hx, hawaiting⟩
    exact hawaits x hx f l hawaiting

theorem perm (h : Kin c p xs past) (hperm : xs.Perm ys) : Kin c p ys past :=
  h.shifts (.refl (fun _ => False) p) ((hperm.filterMap _).nodup_iff.mp h.seats)
    (fun y hy => h.storied y (hperm.mem_iff.mpr hy))
    (fun y hy _ hl => ⟨y, hperm.mem_iff.mpr hy, hl, rfl⟩)
    fun x hx _ _ hawaits => ⟨x, hperm.mem_iff.mp hx, hawaits⟩

theorem around (h : Kin c p xs past) (hq : p.Aside done q) : Kin c q xs past :=
  h.shifts hq h.seats (fun x hx s hs => (h.storied x hx s hs).around q)
    (fun x hx _ hl => ⟨x, hx, hl, rfl⟩) fun x hx _ _ hawaits => ⟨x, hx, hawaits⟩

/-- An operation begins in a place that nobody had before, if it has one. -/
theorem joins (h : Kin c p xs past) (hx : Story [] p x)
    (hplace : ∀ z, Known xs past z → ∀ s, x.seat c = some s → z.seat c ≠ some s)
    (hlink : ∀ l, x.link? = some l → l < p.links.length ∧
      ∃ m ∈ past, ∃ f, m.Links f l ∧ m.execution.context.input = x.context.input) :
    Kin c p (x :: xs) past where
  seats := by
    cases hs : x.seat c with
    | none =>
      rw [List.filterMap_cons_none hs]
      exact h.seats
    | some s =>
      rw [List.filterMap_cons_some hs]
      refine List.nodup_cons.mpr ⟨fun hmem => ?_, h.seats⟩
      obtain ⟨z, hz, hseat⟩ := List.mem_filterMap.mp hmem
      exact hplace z (.inl hz) s hs hseat
  storied := by
    refine List.forall_mem_cons.mpr ⟨fun s hs => ?_, h.storied⟩
    have hnone : seated c s past = [] := by
      refine List.filter_eq_nil_iff.mpr fun m hm => ?_
      simpa using hplace m.execution (.inr ⟨m, hm, rfl⟩) s hs
    rw [hnone]
    exact hx
  behind := h.behind
  numbered := by
    rintro z (hz | hz) l hl
    · rcases List.mem_cons.mp hz with rfl | hz
      · exact (hlink l hl).1
      · exact h.numbered z (.inl hz) l hl
    · exact h.numbered z (.inr hz) l hl
  linked := by
    rintro z (hz | hz) l hl
    · rcases List.mem_cons.mp hz with rfl | hz
      · exact (hlink l hl).2
      · exact h.linked z (.inl hz) l hl
    · exact h.linked z (.inr hz) l hl
  offered := h.offered
  younger := h.younger
  pending m hm f l hl := by
    obtain ⟨hf, hnow⟩ := h.pending m hm f l hl
    refine ⟨hf, hnow.imp_right (.imp_right ?_)⟩
    rintro ⟨z, hz, hawaits⟩
    exact ⟨z, List.mem_cons_of_mem x hz, hawaits⟩

/-- An operation without a place begins. -/
theorem begins (h : Kin c p xs past) (hx : Story [] p x) (hseat : x.seat c = none) :
    Kin c p (x :: xs) past := by
  refine h.joins hx (fun z _ s hs => ?_) fun l hl => ?_
  · cases hseat.symm.trans hs
  · cases hseat.symm.trans (seat_of_link? hl)

/-- Operations leave that wait for no step. -/
theorem leaves (h : Kin c p (ys ++ xs) past) (hidle : ∀ y ∈ ys, y.awaits? = none)
    (hq : p.Aside done q) : Kin c q xs past := by
  refine h.shifts hq (h.seats.sublist ((List.sublist_append_right ys xs).filterMap _))
    (fun x hx s hs => (h.storied x (List.mem_append_right _ hx) s hs).around q)
    (fun x hx _ hl => ⟨x, List.mem_append_right _ hx, hl, rfl⟩) fun x hx _ _ hawaits => ?_
  rcases List.mem_append.mp hx with hx | hx
  · cases (hidle x hx).symm.trans hawaits
  · exact ⟨x, hx, hawaits⟩

theorem aside_resume (p : Plane) (x : Execution) (answer : Answer) :
    p.Aside (fun _ => False) (x.resume p answer).1 := by
  refine ⟨?_, recalls_resume p x answer, ?_⟩ <;> rw [resume.eq_def] <;> split
  · exact persists_of_forwards rfl id fun _ => le_rfl
  · exact .refl p
  · exact relinks_of_links (Link.Rests.refl _) rfl
  · exact relinks_of_links (Link.Rests.refl _) rfl

theorem resumes (h : Kin c p (x :: xs) past) (answer : Answer) :
    Kin c (x.resume p answer).1 ((x.resume p answer).2 :: xs) past := by
  have hinput : (x.resume p answer).2.context.input = x.context.input :=
    congrArg Context.input (context_resume p x answer)
  have hlink := link?_resume p x answer
  have hseat := seat_congr (c := c) hlink hinput
  have hawaits : (x.resume p answer).2.awaits? = x.awaits? :=
    congrArg Stance.awaits (stance_resume p x answer)
  have hseats := h.seats
  obtain ⟨hx, hxs⟩ := List.forall_mem_cons.mp h.storied
  refine h.shifts (aside_resume p x answer) ?_ ?_ ?_ ?_
  · simpa only [List.filterMap_cons, hseat] using hseats
  · exact List.forall_mem_cons.mpr ⟨fun s hs => (hx s (hseat ▸ hs)).resume answer,
      fun z hz s hs => (hxs z hz s hs).around _⟩
  · exact List.forall_mem_cons.mpr
      ⟨fun l hl => ⟨x, List.mem_cons_self, hlink ▸ hl, hinput.symm⟩,
        fun z hz _ hl => ⟨z, List.mem_cons_of_mem x hz, hl, rfl⟩⟩
  · refine List.forall_mem_cons.mpr
      ⟨fun f l hf => ⟨_, List.mem_cons_self, hawaits.trans hf⟩,
        fun z hz _ _ hf => ⟨z, List.mem_cons_of_mem _ hz, hf⟩⟩

/-! ## Turns -/

/-- A turn of `x` belongs to the past now. -/
theorem notes (h : Kin c p (x :: xs) past)
    (hcount : p.links.length ≤ q.links.length)
    (hoffers : ∀ l, (q.link l).offer = (p.link l).offer ∨ (q.link l).offer = none ∨
      (Moment.mk p x).Prepares ∧ x.link? = some l)
    (hseats : (ys.filterMap (seat c)).Nodup)
    (hstoried : ∀ y ∈ ys, ∀ s, y.seat c = some s → Story (seated c s (⟨p, x⟩ :: past)) q y)
    (hknown : ∀ y ∈ ys, ∀ l, y.link? = some l →
      ∃ z ∈ x :: xs, z.link? = some l ∧ z.context.input = y.context.input)
    (hpending : ∀ m ∈ (⟨p, x⟩ : Moment) :: past, ∀ f l, m.Links f l → f < q.forwards.length ∧
      (Engaged (⟨p, x⟩ :: past) l ∨ q.Shut f ∨ ∃ y ∈ ys, y.awaits? = some (f, .linked l))) :
    Kin c q ys (⟨p, x⟩ :: past) := by
  -- whoever is known now has the link and the input of somebody who was known before
  have hbefore : ∀ y, Known ys (⟨p, x⟩ :: past) y → ∀ l, y.link? = some l →
      ∃ z, Known (x :: xs) past z ∧ z.link? = some l ∧ z.context.input = y.context.input := by
    rintro y (hy | ⟨m, hm, rfl⟩) l hl
    · obtain ⟨z, hz, hzl, hinput⟩ := hknown y hy l hl
      exact ⟨z, .inl hz, hzl, hinput⟩
    · rcases List.mem_cons.mp hm with rfl | hm
      · exact ⟨x, .inl List.mem_cons_self, hl, rfl⟩
      · exact ⟨m.execution, .inr ⟨m, hm, rfl⟩, hl, rfl⟩
  constructor
  · exact hseats
  · exact hstoried
  · rintro (_ | ⟨k, later⟩) m earlier hpast s hs
    · cases hpast
      exact h.storied x List.mem_cons_self s hs
    · cases hpast
      exact h.behind later m earlier rfl s hs
  · intro y hy l hl
    obtain ⟨z, hz, hzl, -⟩ := hbefore y hy l hl
    exact (h.numbered z hz l hzl).trans_le hcount
  · intro y hy l hl
    obtain ⟨z, hz, hzl, hinput⟩ := hbefore y hy l hl
    obtain ⟨m, hm, f, hlinks, hm'⟩ := h.linked z hz l hzl
    exact ⟨m, List.mem_cons_of_mem _ hm, f, hlinks, hm'.trans hinput⟩
  · intro l hl
    rcases hoffers l with hsame | hnone | hprepares
    · exact (h.offered l (hsame ▸ hl)).cons _
    · exact absurd hnone hl
    · exact ⟨⟨p, x⟩, List.mem_cons_self, hprepares⟩
  · refine List.forall_mem_cons.mpr ⟨fun f l hl k hk => ?_, h.younger⟩
    rcases spawned_turn p x with ⟨-, hnot⟩ | ⟨-, -, -, hlinks, -⟩
    · exact absurd hl (hnot f l)
    · obtain ⟨rfl, rfl⟩ := hl.unique hlinks
      exact h.numbered x (.inl List.mem_cons_self) k hk
  · exact hpending

/-- An offer stands until it is taken, and is made when an operation prepares. -/
theorem offers_advance (p : Plane) (x : Execution) (l : Nat) :
    ((x.advance p).plane.link l).offer = (p.link l).offer ∨
      ((x.advance p).plane.link l).offer = none ∨
      (Moment.mk p x).Prepares ∧ x.link? = some l := by
  have hturned := (relinks_advance p x).link l
  generalize (x.advance p).plane.link l = b at hturned
  cases hturned with
  | stays => exact .inl rfl
  | takes => exact .inr (.inl rfl)
  | abandons => exact .inl rfl
  | offers hprepares hlink => exact .inr (.inr ⟨hprepares, hlink⟩)

/-- An operation takes its turn, whomever it starts. -/
theorem advances (h : Kin c p (x :: xs) past) (hp : p.Accounts (x :: xs) late past)
    (hopen : ∀ answer, x.phase ≠ .ended answer) (hy : (x.advance p).next.after? = some y)
    (hpersists : Persists p (x.advance p).plane) :
    Kin c (x.advance p).plane (y :: xs) (⟨p, x⟩ :: past) := by
  have hseat := seat_turn (c := c) hy
  obtain ⟨hx, hxs⟩ := List.forall_mem_cons.mp h.storied
  refine h.notes (relinks_advance p x).count (offers_advance p x) ?_ ?_ ?_ ?_
  · have hseats := h.seats
    simpa only [List.filterMap_cons, hseat] using hseats
  · refine List.forall_mem_cons.mpr ⟨fun s hs => ?_, fun z hz s hs => ?_⟩
    · rw [hseat] at hs
      rw [seated_cons_of_eq hs]
      exact (hx s hs).turn hopen hy
    · rw [seated_cons_of_ne (h.seat_ne hz hs)]
      exact (hxs z hz s hs).around _
  · refine List.forall_mem_cons.mpr
      ⟨fun l hl => ⟨x, List.mem_cons_self, link?_turn hy ▸ hl, (input_turn hy).symm⟩,
        fun z hz _ hl => ⟨z, List.mem_cons_of_mem x hz, hl, rfl⟩⟩
  · refine List.forall_mem_cons.mpr ⟨fun f l hl => ?_, fun m hm f l hl => ?_⟩
    · rcases spawned_turn p x with ⟨-, hnot⟩ | ⟨-, -, -, hlinks, hf, -⟩
      · exact absurd hl (hnot f l)
      · obtain ⟨rfl, rfl⟩ := hl.unique hlinks
        obtain ⟨-, z, hz, hawaits⟩ := hl
        obtain rfl := Option.some.inj (hy.symm.trans hz)
        exact ⟨hf, .inr (.inr ⟨y, List.mem_cons_self, hawaits⟩)⟩
    · obtain ⟨hf, hnow⟩ := h.pending m hm f l hl
      refine ⟨hf.trans_le hpersists.count, ?_⟩
      rcases hnow with hengaged | hshut | ⟨z, hz, hawaits⟩
      · exact .inl (hengaged.cons _)
      · exact .inr (.inl (hpersists.shut hf hshut))
      · rcases List.mem_cons.mp hz with rfl | hz
        · by_cases hoffer : (p.link l).offer = none
          · have hnone : (p.forward f).outcome = none := hp.sound.pending fun hhearing => by
              have hd := hhearing z.stance List.mem_cons_self (.linked l) hawaits
              cases hd
            have haccepts : ∀ i, ¬ p.Accepts f i := by
              rintro i ⟨r, hr⟩
              cases hnone.symm.trans hr
            rcases linked_turn hawaits hoffer hf haccepts hy with hstill | hshut
            · exact .inr (.inr ⟨y, List.mem_cons_self, hstill⟩)
            · exact .inr (.inl hshut)
          · exact .inl ((h.offered l hoffer).cons _)
        · exact .inr (.inr ⟨z, List.mem_cons_of_mem y hz, hawaits⟩)

/-- An operation takes its turn, and starts its participant if it has one in the process. -/
theorem turn (h : Kin c p (x :: xs) past) (hp : p.Accounts (x :: xs) late past)
    (hopen : ∀ answer, x.phase ≠ .ended answer) (hy : (x.advance p).next.after? = some y)
    (hpersists : Persists p (x.advance p).plane) :
    Kin c (x.advance p).plane ((x.advance p).spawned.flatMap Task.stack ++ y :: xs)
      (⟨p, x⟩ :: past) := by
  have hafter := h.advances hp hopen hy hpersists
  rcases spawned_turn p x with ⟨hstack, -⟩ | ⟨d, operation, hspawned, hlinks, -, hlt⟩
  · rw [List.flatMap_eq_nil_iff.mpr hstack]
    exact hafter
  · have hlink : ∀ l, (Execution.new d operation (.relay p.links.length) x.context.input
        x.context.sink).link? = some l → l = p.links.length := fun l hl => (Option.some.inj hl).symm
    rw [hspawned]
    refine hafter.joins (story_new _ d operation _ _ _) (fun z hz s hs hseat => ?_) fun l hl => ?_
    · -- the link is new
      obtain rfl : some p.links.length = s := Option.some.inj hs
      have hold : ∀ z, Known (x :: xs) past z → z.link? ≠ some p.links.length := fun z hz hl =>
        lt_irrefl _ (h.numbered z hz _ hl)
      have hl := link?_of_seat hseat
      rcases hz with hz | ⟨m, hm, rfl⟩
      · rcases List.mem_cons.mp hz with rfl | hz
        · exact hold x (.inl List.mem_cons_self) (link?_turn hy ▸ hl)
        · exact hold z (.inl (List.mem_cons_of_mem x hz)) hl
      · rcases List.mem_cons.mp hm with rfl | hm
        · exact hold x (.inl List.mem_cons_self) hl
        · exact hold m.execution (.inr ⟨m, hm, rfl⟩) hl
    · obtain rfl := hlink l hl
      exact ⟨hlt, ⟨p, x⟩, List.mem_cons_self, _, hlinks, rfl⟩

/-- An operation breaks down, with all that wait for it. -/
theorem breaks (h : Kin c p (x :: ys ++ xs) past) (hidle : ∀ z ∈ x :: ys, z.awaits? = none)
    (hafter : (x.advance p).next.after? = none) (hq : p.Aside done q) :
    Kin c q xs (⟨p, x⟩ :: past) := by
  obtain ⟨hx, hys⟩ := List.forall_mem_cons.mp hidle
  have hmiddle : (x :: ys ++ xs).Perm (ys ++ x :: xs) := List.perm_middle.symm
  have hleft := (h.perm hmiddle).leaves hys (.refl (fun _ => False) p)
  refine hleft.notes hq.relinks.count (fun l => .inl (hq.relinks.link l).offer) ?_
    (fun z hz s hs => ?_) (fun z hz _ hl => ⟨z, List.mem_cons_of_mem x hz, hl, rfl⟩) ?_
  · exact hleft.seats.sublist ((List.sublist_cons_self x xs).filterMap _)
  · rw [seated_cons_of_ne (hleft.seat_ne hz hs)]
    exact (hleft.storied z (List.mem_cons_of_mem x hz) s hs).around _
  · refine List.forall_mem_cons.mpr ⟨fun f l hl => ?_, fun m hm f l hl => ?_⟩
    · obtain ⟨-, y, hy, -⟩ := hl
      cases hafter.symm.trans hy
    · obtain ⟨hf, hnow⟩ := hleft.pending m hm f l hl
      refine ⟨hf.trans_le hq.persists.count, ?_⟩
      rcases hnow with hengaged | hshut | ⟨z, hz, hawaits⟩
      · exact .inl (hengaged.cons _)
      · exact .inr (.inl (hq.persists.shut hf hshut))
      · rcases List.mem_cons.mp hz with rfl | hz
        · cases hx.symm.trans hawaits
        · exact .inr (.inr ⟨z, hz, hawaits⟩)

end Kin

/-- **Kinship lasts**, as long as no newcomer is given the cancellation. -/
theorem stable_kin (c : Nat) : World.Stable (fun x => x.seat c = none) (Kin c) where
  perm h := h.perm
  around h := h.around
  begins h d operation control input sink := h.begins (story_new _ d operation control input sink)
  turn h := h.turn
  resumes h := h.resumes
  ends h hidle hq := h.leaves (List.forall_mem_singleton.mpr hidle) hq
  breaks h := h.breaks

/-! ## Whoever prepares prepares last -/

namespace Kin

/-- When an operation has prepared, all its steps over links have prepared participants. -/
theorem concludes (h : Kin c p xs past) {m₁ : Moment} (hm₁ : m₁ ∈ past) (hprepares : m₁.Prepares)
    (hs₁ : m₁.execution.seat c = some s) (hm : m ∈ past) (hs : m.execution.seat c = some s)
    (hlinks : m.Links f l) : ∃ k ∈ past, ∃ i, k.Concludes f i := by
  obtain ⟨later, earlier, rfl⟩ := List.append_of_mem hm₁
  rcases List.mem_append.mp hm with hlater | hearlier
  · -- nothing is forwarded any more
    obtain ⟨newer, older, rfl⟩ := List.append_of_mem hlater
    have hstory := h.behind newer m (older ++ m₁ :: earlier) (by simp) s hs
    have hthrough := hstory.through
      (mem_seated.mpr ⟨List.mem_append_right _ List.mem_cons_self, hs₁⟩) hprepares
    obtain ⟨⟨step, hphase⟩, -⟩ := hlinks
    rw [hphase] at hthrough
    cases hthrough
  · rcases List.mem_cons.mp hearlier with rfl | hearlier
    · obtain ⟨⟨step, hphase⟩, -⟩ := hlinks
      cases hprepares.1.symm.trans hphase
    · have hstory := h.behind later m₁ earlier rfl s hs₁
      obtain ⟨k, hk, i, hconcludes⟩ :=
        hstory.prepared hprepares (mem_seated.mpr ⟨hearlier, hs⟩) hlinks
      have hmem := (mem_seated.mp hk).1
      exact ⟨k, List.mem_append_right later (List.mem_cons_of_mem m₁ hmem), i, hconcludes⟩

section Root

variable (h : Kin c p xs past) (hp : p.Accounts xs late past) {root : Moment} (hroot : root ∈ past)
  (hprepares : root.Prepares) (hplace : root.execution.seat c = some none)

include h hp hroot hprepares hplace

/-- **Once the first of them has prepared, all have that have the cancellation from it.** -/
theorem engaged (hx : Known xs past x) (hcancellation : x.context.input.cancellation = some c)
    (hl : x.link? = some l) : Engaged past l := by
  induction l using Nat.strong_induction_on generalizing x with
  | _ l ih =>
    obtain ⟨m, hm, f, hlinks, hinput⟩ := h.linked x hx l hl
    have hparent : m.execution.context.input.cancellation = some c := by
      rw [hinput]
      exact hcancellation
    -- the parent has prepared
    obtain ⟨s, hs⟩ := exists_seat hparent
    obtain ⟨m₁, hm₁, hprepares₁, hs₁⟩ :
        ∃ m₁ ∈ past, m₁.Prepares ∧ m₁.execution.seat c = some s := by
      cases s with
      | none => exact ⟨root, hroot, hprepares, hplace⟩
      | some k =>
        have hk := link?_of_seat hs
        obtain ⟨m₁, hm₁, hprepares₁, hlink₁⟩ :=
          ih k (h.younger m hm f l hlinks k hk) (.inr ⟨m, hm, rfl⟩) hparent hk
        exact ⟨m₁, hm₁, hprepares₁, seat_of_link? hlink₁⟩
    obtain ⟨k, hk, i, -, r, hr⟩ := h.concludes hm₁ hprepares₁ hs₁ hm hs hlinks
    have houtcome := hp.recorded.outcome k hk hr
    -- so its step has a participant, and does not wait for one
    rcases (h.pending m hm f l hlinks).2 with hengaged | hshut | ⟨z, hz, hawaits⟩
    · exact hengaged
    · exact absurd ⟨r, houtcome⟩ (hshut.empty i)
    · have hnone := hp.sound.pending (f := f) fun hhearing => by
        cases hhearing z.stance (List.mem_map_of_mem hz) (.linked l) hawaits
      cases hnone.symm.trans houtcome

/-- **And from then on none of them looks at it**, if their completions do not. -/
theorem heedless (hx : x ∈ xs) (hdiscreet : x.context.input.cancellation = some c →
      ∀ k ∈ x.context.completed, k.isDiscreet = true) : x.Heedless c := by
  refine ⟨fun hrunning hcancellation => ?_, hdiscreet⟩
  obtain ⟨s, hs⟩ := exists_seat hcancellation
  have hthrough : x.phase.isRunning = false := by
    cases s with
    | none =>
      exact (h.storied x hx none hs).through (mem_seated.mpr ⟨hroot, hplace⟩) hprepares
    | some l =>
      obtain ⟨m, hm, hprepared, hlink⟩ := h.engaged hp hroot hprepares hplace (.inl hx)
        hcancellation (link?_of_seat hs)
      exact (h.storied x hx _ hs).through (mem_seated.mpr ⟨hm, seat_of_link? hlink⟩) hprepared
  cases hrunning.symm.trans hthrough

end Root

/-- Whoever has no place has another cancellation, if it has one. -/
theorem heedless_of_seat (hx : x.seat c = none) : x.Heedless c := by
  have hother : x.context.input.cancellation ≠ some c := fun hcancellation => by
    obtain ⟨s, hs⟩ := exists_seat hcancellation
    cases hx.symm.trans hs
  exact ⟨fun _ => hother, fun hcancellation => absurd hcancellation hother⟩

/-- An operation that does not look at the cancellation does not come to do so. -/
theorem heedless_turn {turns : List Moment} (hlived : Lived turns x) (hx : x.Heedless c)
    (hy : (x.advance p).next.after? = some y) : y.Heedless c := by
  by_cases hcancellation : x.context.input.cancellation = some c
  · have hrunning : x.phase.isRunning = false :=
      Bool.eq_false_iff.mpr fun hrunning => hx.through hrunning hcancellation
    refine ⟨fun hy' => ?_, fun _ k hk => ?_⟩
    · cases (isRunning_turn hrunning hy).symm.trans hy'
    · exact hx.discreet hcancellation k (completed_turn hlived hrunning hy hk)
  · have hother : y.context.input.cancellation ≠ some c := input_turn hy ▸ hcancellation
    exact ⟨fun _ => hother, fun h => absurd h hother⟩

theorem heedless_resume (p : Plane) (answer : Answer) (hx : x.Heedless c) :
    (x.resume p answer).2.Heedless c := by
  have hcontext := context_resume p x answer
  refine ⟨fun hrunning => ?_, fun hcancellation k hk => ?_⟩
  · rw [isRunning_resume] at hrunning
    rw [hcontext]
    exact hx.through hrunning
  · rw [hcontext] at hcancellation hk
    exact hx.discreet hcancellation k hk

/-- Whoever it starts in the process has another cancellation. -/
theorem heedless_spawned (hx : x.Heedless c) :
    ∀ z ∈ (x.advance p).spawned.flatMap Task.stack, z.Heedless c := by
  rcases spawned_turn p x with ⟨hstack, -⟩ | ⟨d, operation, hspawned, ⟨⟨step, hphase⟩, -⟩, -⟩
  · rw [List.flatMap_eq_nil_iff.mpr hstack]
    rintro z ⟨⟩
  · have hother := hx.through (by rw [hphase]; rfl)
    rw [hspawned]
    refine List.forall_mem_singleton.mpr ⟨fun _ => hother, fun _ k hk => nomatch hk⟩

end Kin

/-- **Nobody comes to look at the cancellation**, as long as no newcomer is given it. -/
theorem stable_heedless (c : Nat) : World.Stable (fun x => x.seat c = none)
    fun _ xs _ => ∀ x ∈ xs, x.Heedless c where
  perm h hperm x hx := h x (hperm.mem_iff.mpr hx)
  around h _ := h
  begins h _ _ _ _ _ hseat := List.forall_mem_cons.mpr ⟨Kin.heedless_of_seat hseat, h⟩
  turn {p x _ _ _ _} h hp _ hy _ := by
    obtain ⟨⟨turns, hstory, -⟩, -⟩ := List.forall_mem_cons.mp hp.storied
    obtain ⟨hx, hxs⟩ := List.forall_mem_cons.mp h
    refine List.forall_mem_append.mpr ⟨Kin.heedless_spawned hx, ?_⟩
    exact List.forall_mem_cons.mpr ⟨Kin.heedless_turn hstory.lived hx hy, hxs⟩
  resumes {p x _ _} h answer := by
    obtain ⟨hx, hxs⟩ := List.forall_mem_cons.mp h
    exact List.forall_mem_cons.mpr ⟨Kin.heedless_resume p answer hx, hxs⟩
  ends h _ _ := (List.forall_mem_cons.mp h).2
  breaks h _ _ _ := (List.forall_mem_append.mp h).2

end ManagementPlane
