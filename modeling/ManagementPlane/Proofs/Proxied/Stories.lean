import ManagementPlane.Proofs.Proxied.Stances

/-!
# Proofs/Proxied/Stories — the turns behind a decision

`Execution.Story` lists the turns that an operation has taken since it began, whatever went on
around it.  From them one reads where its handles come from (`Story.concluded`), and that an
operation on which no step went wrong has a prepared participant for every step that it forwarded
(`Story.forwarded`).
-/

namespace ManagementPlane

namespace Execution

/-- The turns, the latest first, that brought an operation from its beginning to where it is. -/
def Story (turns : List Moment) (p : Plane) (x : Execution) : Prop :=
  ∃ p₀ c operation control input sink, Course (fun _ _ => True) p₀
    (Execution.new c operation control input sink) turns p x

variable {turns : List Moment} {p q : Plane} {x y : Execution}

theorem story_new (p : Plane) (c : Nat) (operation : Value) (control : Control) (input : Input)
    (sink : Sink) : Story [] p (Execution.new c operation control input sink) :=
  ⟨p, c, operation, control, input, sink, .start⟩

theorem Story.around (h : Story turns p x) (q : Plane) : Story turns q x := by
  obtain ⟨p₀, c, operation, control, input, sink, hcourse⟩ := h
  exact ⟨p₀, c, operation, control, input, sink, hcourse.around trivial⟩

theorem Story.turn (h : Story turns p x) (hopen : ∀ answer, x.phase ≠ .ended answer)
    (hy : (x.advance p).next.after? = some y) : Story (⟨p, x⟩ :: turns) (x.advance p).plane y := by
  obtain ⟨p₀, c, operation, control, input, sink, hcourse⟩ := h
  exact ⟨p₀, c, operation, control, input, sink, hcourse.turn hopen hy⟩

theorem Story.resume (h : Story turns p x) (answer : Answer) :
    Story turns (x.resume p answer).1 (x.resume p answer).2 := by
  obtain ⟨p₀, c, operation, control, input, sink, hcourse⟩ := h
  exact ⟨p₀, c, operation, control, input, sink, hcourse.resume answer⟩

theorem Story.lived (h : Story turns p x) : Lived turns x := by
  obtain ⟨p₀, c, operation, control, input, sink, hcourse⟩ := h
  exact hcourse.lived (lived_new c operation control input sink)

theorem stance_resume (p : Plane) (x : Execution) (answer : Answer) :
    (x.resume p answer).2.stance = x.stance := by
  rw [Execution.resume.eq_def]
  split
  · rename_i step frames hphase
    simp [stance, awaits?, hphase]
  · rfl

/-- Where the handles come from that an operation holds. -/
theorem Story.concluded (h : Story turns p x) :
    ∀ i ∈ x.stance.held, ∃ k ∈ turns, ∃ f, k.Concludes f i := by
  obtain ⟨p₀, c, operation, control, input, sink, hcourse⟩ := h
  induction hcourse with
  | start => simp [stance, Execution.new]
  | around _ _ ih => exact ih
  | @turn turns p x y hcourse hopen hy ih =>
    have hold : ∀ i ∈ x.stance.held, ∃ k ∈ (⟨p, x⟩ : Moment) :: turns, ∃ f, k.Concludes f i := by
      intro i hi
      obtain ⟨k, hk, hconcludes⟩ := ih i hi
      exact ⟨k, List.mem_cons_of_mem _ hk, hconcludes⟩
    have hlived := hcourse.lived (lived_new c operation control input sink)
    intro i hi
    by_cases htells : ∃ h d, x.Tells h d
    · obtain ⟨h, d, htells⟩ := htells
      obtain ⟨z, held, hnext, hz, hx, -⟩ := tells_advance (p := p) hlived htells
      rw [hnext] at hy
      obtain rfl := Option.some.inj hy
      rw [hz] at hi
      refine hold i ?_
      rw [hx]
      exact List.mem_cons_of_mem _ hi
    · cases turned_advance (p := p) hlived hopen fun h d hd => htells ⟨h, d, hd⟩ with
      | deals hy' _ hheld _ =>
        obtain rfl := Option.some.inj (hy.symm.trans hy')
        rcases hheld i hi with hi | hconcludes
        · exact hold i hi
        · exact ⟨_, List.mem_cons_self, hconcludes⟩
      | crashes hnext =>
        rw [hnext] at hy
        cases hy
  | resume hcourse answer ih =>
    rw [stance_resume]
    exact ih

theorem phase_of_awaits {f : Nat} {d : Delivery} (hx : x.awaits? = some (f, d)) :
    ∃ step due, x.phase = .handling step (.forwarding f due d) := by
  rw [awaits?] at hx
  split at hx
  · rename_i step g due d' hphase
    cases hx
    exact ⟨step, due, hphase⟩
  · cases hx

/-- The turn of an operation that waits for a step is the turn of that step. -/
theorem advances_of_awaits (p : Plane) {f : Nat} {d : Delivery} (hx : x.awaits? = some (f, d)) :
    ∃ step due, Forwarding.Advances p x step f due d (x.advance p) := by
  obtain ⟨step, due, hphase⟩ := phase_of_awaits hx
  refine ⟨step, due, ?_⟩
  rw [advance, hphase]
  exact Forwarding.advances p x step f due d

/-- A step that is forwarded stays so until its participant has prepared, unless it fails. -/
theorem forwarding_advance {f : Nat} {d : Delivery} (hx : x.awaits? = some (f, d))
    (hsmooth : (Moment.mk p x).Smooth) (hy : (x.advance p).next.after? = some y) :
    (∃ d', y.awaits? = some (f, d')) ∨ ∃ i, (Moment.mk p x).Concludes f i := by
  obtain ⟨step, due, hphase⟩ := phase_of_awaits hx
  have hadvance : x.advance p = work p x step (.forwarding f due d) := by rw [advance, hphase]
  have hreturned : ∀ z s out, (work p x step (.forwarding f due d)).next = .returned z s out →
      out = .ok () := by
    intro z s out hnext
    exact (hsmooth z s out (by rw [Moment.turn, hadvance, hnext])).1
  have hcontinues := (keeping_work p x step (.forwarding f due d)).continues
  rw [hadvance] at hy
  generalize (work p x step (.forwarding f due d)).next = next at hcontinues hy hreturned
  cases hcontinues with
  | goes _ _ hw => cases hw
  | forwards hf =>
    obtain rfl := Option.some.inj hy
    rcases hf with ⟨d', ⟨⟩⟩ | ⟨⟨⟩, -⟩
    exact .inl ⟨_, rfl⟩
  | returns _ hout =>
    rcases hout with hw | ⟨e, rfl⟩
    · cases hw
    · cases hreturned _ _ _ rfl
  | concludes hw houtcome hread =>
    cases hw
    exact .inr ⟨_, ⟨step, due, hphase, hread⟩, _, houtcome⟩
  | blocks =>
    obtain rfl := Option.some.inj hy
    exact .inl ⟨d, hx⟩
  | nests _ hw => cases hw
  | crashes hw => cases hw

/-- **When no step goes wrong, every forwarded one gets a prepared participant.** -/
theorem Story.forwarded (h : Story turns p x) (hsmooth : ∀ m ∈ turns, m.Smooth) {m : Moment}
    (hm : m ∈ turns) {f : Nat} {d : Delivery} (hf : m.execution.awaits? = some (f, d)) :
    (∃ d', x.awaits? = some (f, d')) ∨ ∃ k ∈ turns, ∃ i, k.Concludes f i := by
  obtain ⟨p₀, c, operation, control, input, sink, hcourse⟩ := h
  induction hcourse with
  | start => cases hm
  | around _ _ ih => exact ih hsmooth hm
  | @turn turns p x y hcourse hopen hy ih =>
    obtain ⟨hnow, hbefore⟩ := List.forall_mem_cons.mp hsmooth
    have hawaited : ∀ {d'}, x.awaits? = some (f, d') → (∃ d', y.awaits? = some (f, d')) ∨
        ∃ k ∈ (⟨p, x⟩ : Moment) :: turns, ∃ i, k.Concludes f i := by
      intro d' hx
      rcases forwarding_advance hx hnow hy with hy | hconcludes
      · exact .inl hy
      · exact .inr ⟨_, List.mem_cons_self, hconcludes⟩
    rcases List.mem_cons.mp hm with rfl | hm
    · exact hawaited hf
    · rcases ih hbefore hm with ⟨d', hx⟩ | ⟨k, hk, hconcludes⟩
      · exact hawaited hx
      · exact .inr ⟨k, List.mem_cons_of_mem _ hk, hconcludes⟩
  | @resume turns p x hcourse answer ih =>
    have hawaits : (x.resume p answer).2.awaits? = x.awaits? :=
      congrArg Stance.awaits (stance_resume p x answer)
    rw [hawaits]
    exact ih hsmooth hm

/-! ## What the turns told -/

theorem mem_told {t : Completion × Decision} : t ∈ told turns ↔ ∃ m ∈ turns, t ∈ m.tells := by
  induction turns with
  | nil => simp [told]
  | cons m turns ih => simp [told, ih, or_comm]

/-- A step that completes with a prepared participant registers that this is to be told. -/
theorem registers_of_concludes {m : Moment} {f i : Nat} (hlived : Lived turns m.execution)
    (hm : m.Concludes f i) : .decide i ∈ m.registers := by
  obtain ⟨⟨step, due, hphase, hread⟩, r, hr⟩ := hm
  rw [Lived, hphase] at hlived
  obtain ⟨-, hbusy⟩ := hlived
  obtain ⟨a, ha, -, -, hfresh⟩ := hbusy.active
  have hnext : m.turn.next = Forwarding.conclude m.execution step f (.prepared i r) := by
    rw [Moment.turn, advance, hphase]
    dsimp only
    rw [work, Forwarding.advance, hread]
    dsimp only
    rw [Forwarding.follow, hr]
  have hafter : m.turn.next.after? = some (Execution.afterStep
      { m.execution with context := Forwarding.accept m.execution.context f i r } step
        (.ok ())) := by
    rw [hnext]
    rfl
  have hnew : (Execution.afterStep
      { m.execution with context := Forwarding.accept m.execution.context f i r } step
      (.ok ())).context.completed = [.decide i] ++ m.execution.context.completed := by
    rw [completed_afterStep, Forwarding.accept_eq f i r ha (hfresh rfl)]
    rfl
  rw [Moment.registers_eq hafter hnew]
  exact List.mem_singleton_self _

theorem Story.registers (h : Story turns p x) {k : Moment} (hk : k ∈ turns) {f i : Nat}
    (hc : k.Concludes f i) : .decide i ∈ registered turns := by
  obtain ⟨p₀, c, operation, control, input, sink, hcourse⟩ := h
  induction hcourse with
  | start => cases hk
  | around _ _ ih => exact ih hk
  | turn hcourse _ _ ih =>
    rw [registered]
    rcases List.mem_cons.mp hk with rfl | hk
    · have hlived := hcourse.lived (lived_new c operation control input sink)
      exact List.mem_append_right _ (registers_of_concludes hlived hc)
    · exact List.mem_append_left _ (ih hk)
  | resume _ _ ih => exact ih hk

/-- **When an operation returns, it has told every participant** that it ever held. -/
theorem Story.answered (h : Story turns p x) {answer : Answer} (hphase : x.phase = .ended answer)
    {k : Moment} (hk : k ∈ turns) {f i : Nat} (hc : k.Concludes f i) :
    ∃ m ∈ turns, ∃ d, (.decide i, d) ∈ m.tells := by
  have hlived := h.lived
  rw [Lived, hphase] at hlived
  obtain ⟨⟨e, -, -, htold⟩, -⟩ := hlived
  have hmem : (.decide i, e.decision) ∈ told turns := by
    rw [htold]
    exact List.mem_map_of_mem (List.mem_reverse.mpr (h.registers hk hc))
  obtain ⟨m, hm, htells⟩ := mem_told.mp hmem
  exact ⟨m, hm, e.decision, htells⟩

end Execution

/-- The turns of an operation that went well as a whole, with the prepared participant `i` for its
forwarded step `f`. -/
structure Kept (turns : List Moment) (f i : Nat) : Prop where
  /-- The step took the handle while the operation waited for it. -/
  concludes : ∃ k ∈ turns, k.Concludes f i
  /-- No step of any stage failed. -/
  smooth : ∀ k ∈ turns, k.Smooth
  /-- Every other step that was forwarded has a prepared participant too. -/
  forwarded : ∀ k ∈ turns, ∀ g d, k.execution.awaits? = some (g, d) →
    ∃ k' ∈ turns, ∃ j, k'.Concludes g j
  /-- All stages being done, it was decided to be kept, and its own model was committed. -/
  commits : ∃ k ∈ turns, k.Commits

namespace Execution

/-- **Only an operation that went well as a whole tells a participant that it is kept.** -/
theorem Story.kept {turns : List Moment} {m : Moment} (h : Story turns m.plane m.execution)
    {i : Nat} (htells : (.decide i, .keep) ∈ m.tells) : ∃ f, Kept turns f i := by
  obtain ⟨e, rest, hphase, hcompleted, hkeep⟩ := mem_tells.mp htells
  have hlived := h.lived
  rw [Lived, hphase] at hlived
  obtain ⟨hverdict, -⟩ := hlived
  cases e with
  | kept =>
    obtain ⟨hsmooth, hcommits⟩ := hverdict
    have hheld : i ∈ m.execution.stance.held := by
      rw [stance, hcompleted]
      exact List.mem_cons_self
    obtain ⟨k, hk, f, hc⟩ := h.concluded i hheld
    refine ⟨f, ⟨k, hk, hc⟩, hsmooth, fun k' hk' g d hg => ?_, hcommits⟩
    rcases h.forwarded hsmooth hk' hg with ⟨d', hd'⟩ | hconcluded
    · obtain ⟨step, due, hforwarding⟩ := phase_of_awaits hd'
      cases hphase.symm.trans hforwarding
    · exact hconcluded
  | _ => cases hkeep

end Execution

end ManagementPlane
