import ManagementPlane.Host.Server
import ManagementPlane.Proofs.Model.View

/-!
# Proofs/Workers/Mirror — a container and the model that it follows

A container mirrors a root when its workers are those that the worker resources of the root ask for,
and all of them run (`WorkerContainer.Mirrors`).  While an operation lasts it does not: the model
is ahead of the workers, and the workers are ahead of what a rollback leaves.

* `Plans root rt vf c`: once the steps `rt` have run, `c` follows `root`, and a worker that does not
  run yet is confirmed by a step of `vf`.  Every change of the model that queues its step keeps this
  up (`Plans.snoc`), and so does the step when its turn comes (`Plans.next`).
* `Undoes c₀ cs c`: once the completions `cs` are undone, the latest first, the workers are those of
  `c₀`.  Every step keeps this up by the completion that it leaves (`Undoes.push`).

Both look at one name at a time: a step touches the worker of its own name only
(`WorkerContainer.Changes`).
-/

namespace ManagementPlane

namespace Dict

variable {α : Type}

theorem length_put (d : Dict α) (k : String) (v : α) :
    (put d k v).length = if k ∈ keys d then d.length else d.length + 1 := by
  have hlength : ∀ e : Dict α, e.length = (keys e).length := fun e => (List.length_map _).symm
  rw [hlength, keys_put, hlength d]
  split
  · rfl
  · exact List.length_append

theorem length_erase_le (d : Dict α) (k : String) : (erase d k).length ≤ d.length := by
  induction d with
  | nil => exact le_rfl
  | cons p d ih =>
    rw [erase]
    split
    · exact Nat.le_succ _
    · exact Nat.succ_le_succ ih

/-- Dictionaries without repeated keys that answer the same hold the same pairs. -/
theorem perm_of_get? {d e : Dict α} (hd : (keys d).Nodup) (he : (keys e).Nodup)
    (h : ∀ k, get? d k = get? e k) : d.Perm e := by
  refine (List.perm_ext_iff_of_nodup (List.Nodup.of_map _ hd) (List.Nodup.of_map _ he)).mpr ?_
  rintro ⟨k, v⟩
  constructor
  · exact fun hmem => mem_of_get? (h k ▸ get?_eq_some_of_mem hd hmem)
  · exact fun hmem => mem_of_get? ((h k).symm ▸ get?_eq_some_of_mem he hmem)

end Dict

/-! ## Worker resources -/

namespace Resource

/-- The resource of a worker. -/
def worker? (root : Resource) (name : String) : Option Resource :=
  root.child? ⟨Server.workerName, name⟩

/-- The keep-alive that a worker resource asks for. -/
def keepAlive (r : Resource) : Except OperationError KeepAlive :=
  WorkerSteps.keepAliveIn WorkerSteps.keepAliveKey
    (Value.ofOption (r.attribute? WorkerSteps.keepAliveKey))

/-- Neither child types, nor the names of workers, nor their attributes repeat. -/
structure Listed (root : Resource) : Prop where
  types : (Dict.keys root.children).Nodup
  names : (Dict.keys (root.group Server.workerName)).Nodup
  attributes : ∀ name r, root.worker? name = some r → (Dict.keys r.attributes).Nodup

variable {root r : Resource} {name : String}

/-- What does not repeat anywhere does not repeat among the workers. -/
theorem Orderly.listed (h : root.Orderly) : root.Listed where
  types := by
    obtain ⟨-, -, htypes, -, -⟩ := h
    exact htypes
  names := h.nodup_group _
  attributes name r hr := by
    obtain ⟨hattributes, -, -, -, -⟩ := h.child? hr
    exact hattributes

theorem worker?_putChild (root : Resource) (name : String) (r : Resource) (other : String) :
    (root.putChild ⟨Server.workerName, name⟩ r).worker? other
      = if other = name then some r else root.worker? other := by
  rw [worker?, child?_putChild]
  by_cases h : other = name
  · rw [if_pos h, if_pos (congrArg _ h)]
  · rw [if_neg h, if_neg fun he => h (Element.mk.inj he).2]
    rfl

theorem Listed.worker?_removeChild (h : root.Listed) (name other : String) :
    (root.removeChild ⟨Server.workerName, name⟩).worker? other
      = if other = name then none else root.worker? other := by
  rw [worker?, child?_removeChild_of_nodup h.types h.names]
  by_cases ho : other = name
  · rw [if_pos ho, if_pos (congrArg _ ho)]
  · rw [if_neg ho, if_neg fun he => ho (Element.mk.inj he).2]
    rfl

theorem Listed.putChild (h : root.Listed) (hr : (Dict.keys r.attributes).Nodup) :
    (root.putChild ⟨Server.workerName, name⟩ r).Listed where
  types := Dict.nodup_keys_put h.types _ _
  names := by
    rw [group_putChild, if_pos rfl]
    exact Dict.nodup_keys_put h.names _ _
  attributes other r' hr' := by
    rw [worker?_putChild] at hr'
    split at hr'
    · exact Option.some.inj hr' ▸ hr
    · exact h.attributes other r' hr'

theorem Listed.removeChild (h : root.Listed) :
    (root.removeChild ⟨Server.workerName, name⟩).Listed where
  types := nodup_types_removeChild h.types _
  names := by
    rw [group, get?_children_removeChild h.types, if_pos rfl]
    exact Dict.nodup_keys_erase h.names _
  attributes other r' hr' := by
    rw [h.worker?_removeChild] at hr'
    split at hr'
    · cases hr'
    · exact h.attributes other r' hr'

end Resource

/-- The name under which a bad keep-alive is reported has no part in a good one. -/
theorem WorkerSteps.keepAliveIn_rename {name : String} {v : Value} {k : KeepAlive}
    (h : keepAliveIn name v = .ok k) (other : String) : keepAliveIn other v = .ok k := by
  rw [keepAliveIn] at h ⊢
  cases hk : KeepAlive.ofValue v with
  | ok k' =>
    rw [hk] at h
    exact h
  | error e =>
    rw [hk] at h
    split at h
    · cases h
    · rename_i hv
      rw [if_neg hv]
      exact h

/-- A keep-alive that is stored if it is set is the one asked for. -/
theorem Resource.keepAlive_of_stored {r : Resource} {v : Value} {k : KeepAlive} {name : String}
    (h : WorkerSteps.keepAliveIn name v = .ok k)
    (hr : r.attribute? WorkerSteps.keepAliveKey = if v.isDefined then some v else none) :
    r.keepAlive = .ok k := by
  have hv := WorkerSteps.keepAliveIn_rename h WorkerSteps.keepAliveKey
  rw [keepAlive, hr]
  split
  · exact hv
  · rename_i hundefined
    rw [WorkerSteps.keepAliveIn, if_neg hundefined] at hv
    exact hv

/-! ## Steps on the workers -/

namespace WorkerContainer

variable {c d e : WorkerContainer} {name other : String} {w : Worker}

/-- What a step makes of the workers when it goes well. -/
inductive Changes (c : WorkerContainer) : Handler → WorkerContainer → Prop
  | start {name : String} {k : KeepAlive} (hfree : c.get? name = none)
      (hroom : c.size < c.capacity) :
    Changes c (.startWorker name k) (c.restore name { keepAlive := k })
  | confirm {name : String} {w : Worker} (hw : c.get? name = some w) :
    Changes c (.confirmWorker name) (c.restore name { w with state := .running })
  | stop {name : String} : Changes c (.stopWorker name) (c.stop name)
  | apply {name : String} {k : KeepAlive} {w : Worker} (hw : c.get? name = some w) :
    Changes c (.applyKeepAlive name k) (c.restore name { w with keepAlive := k })

theorem changes_start {k : KeepAlive} (h : c.start name k = .ok d) :
    c.Changes (.startWorker name k) d := by
  rw [WorkerContainer.start] at h
  split at h
  · cases h
  · rename_i hfree
    split at h
    · cases h
    · rename_i hroom
      obtain rfl := Except.ok.inj h
      refine .start ?_ (Nat.lt_of_not_le hroom)
      cases hw : c.get? name with
      | none => rfl
      | some w => exact absurd (congrArg Option.isSome hw) hfree

theorem changes_confirm (h : c.confirm name = .ok d) : c.Changes (.confirmWorker name) d := by
  rw [WorkerContainer.confirm] at h
  split at h
  · rename_i w hw
    obtain rfl := Except.ok.inj h
    exact .confirm hw
  · cases h

/-- Steps go well one after another. -/
inductive Runs : List Step → WorkerContainer → WorkerContainer → Prop
  | nil {c : WorkerContainer} : Runs [] c c
  | cons {step : Step} {steps : List Step} {c d e : WorkerContainer}
      (hd : c.Changes step.handler d) (he : Runs steps d e) : Runs (step :: steps) c e

/-- The last step comes after all others. -/
theorem runs_snoc {steps : List Step} {step : Step} (h : Runs (steps ++ [step]) c e) :
    ∃ d, Runs steps c d ∧ d.Changes step.handler e := by
  induction steps generalizing c with
  | nil =>
    obtain - | ⟨hd, hnil⟩ := h
    cases hnil
    exact ⟨c, .nil, hd⟩
  | cons other steps ih =>
    obtain - | ⟨hd, he⟩ := h
    obtain ⟨d', hd', he'⟩ := ih he
    exact ⟨d', .cons hd hd', he'⟩

theorem reconfigure_of_some (hw : c.get? name = some w) (k : KeepAlive) :
    c.reconfigure name k = .ok (w.keepAlive, c.restore name { w with keepAlive := k }) := by
  rw [reconfigure, hw]
  rfl

theorem reconfigure_of_none (hw : c.get? name = none) (k : KeepAlive) :
    c.reconfigure name k = .error (.notRunning name) := by
  rw [reconfigure, hw]

theorem get?_restore (c : WorkerContainer) (name : String) (w : Worker) (other : String) :
    (c.restore name w).get? other = if name = other then some w else c.get? other :=
  Dict.get?_put _ _ _ _

theorem get?_stop (hc : (Dict.keys c.workers).Nodup) (name other : String) :
    (c.stop name).get? other = if name = other then none else c.get? other :=
  Dict.get?_erase hc _ _

theorem stop_of_none (h : c.get? name = none) : c.stop name = c := by
  rw [stop, Dict.erase_of_notMem (Dict.get?_eq_none_iff.mp h)]

theorem size_restore (c : WorkerContainer) (name : String) (w : Worker) :
    (c.restore name w).size = if (c.get? name).isSome then c.size else c.size + 1 := by
  rw [size, restore, Dict.length_put]
  cases hw : c.get? name with
  | none => exact if_neg (Dict.get?_eq_none_iff.mp hw)
  | some w => exact if_pos (Dict.mem_keys_of_mem (Dict.mem_of_get? hw))

/-- No name repeats, and there is room for all. -/
structure Fits (c : WorkerContainer) : Prop where
  nodup : (Dict.keys c.workers).Nodup
  room : c.size ≤ c.capacity

/-- A worker that is there is replaced where it is. -/
theorem Fits.restore (hc : c.Fits) (hw : (c.get? name).isSome) (w : Worker) :
    (c.restore name w).Fits := by
  refine ⟨Dict.nodup_keys_put hc.nodup _ _, ?_⟩
  rw [size_restore, if_pos hw]
  exact hc.room

theorem Changes.fits {h : Handler} (hd : c.Changes h d) (hc : c.Fits) : d.Fits := by
  cases hd with
  | @start name k hfree hroom =>
    refine ⟨Dict.nodup_keys_put hc.nodup _ _, ?_⟩
    rw [size_restore, hfree]
    exact hroom
  | confirm hw => exact hc.restore (hw ▸ rfl) _
  | stop => exact ⟨Dict.nodup_keys_erase hc.nodup _, (Dict.length_erase_le _ _).trans hc.room⟩
  | apply hw => exact hc.restore (hw ▸ rfl) _

theorem Changes.capacity {h : Handler} (hd : c.Changes h d) : d.capacity = c.capacity := by
  cases hd <;> rfl

/-! ## After the steps -/

/-- There is a worker for each worker resource and no other, with the keep-alive that the resource
asks for. -/
structure Follows (c : WorkerContainer) (root : Resource) : Prop extends c.Fits where
  same : ∀ name, (c.get? name).map (fun w => Except.ok w.keepAlive)
    = (root.worker? name).map Resource.keepAlive

/-- **The container mirrors the root**: its workers are those that the root asks for, and they
run. -/
structure Mirrors (c : WorkerContainer) (root : Resource) : Prop extends c.Follows root where
  running : ∀ name w, c.get? name = some w → w.state = .running

/-- The container is in line with a root in which no worker comes twice. -/
structure InLine (c : WorkerContainer) (root : Resource) : Prop extends c.Mirrors root where
  listed : root.Listed

/-- The container is in line with a root, and has as much room as another one had. -/
structure Replaces (c c₀ : WorkerContainer) (root : Resource) : Prop extends c.InLine root where
  capacity : c.capacity = c₀.capacity

/-- The container follows the root, and what does not run yet is confirmed by one of the steps. -/
structure Awaits (c : WorkerContainer) (root : Resource) (steps : List Step) : Prop
    extends c.Follows root where
  confirmed : ∀ name w, c.get? name = some w →
    w.state = .running ∨ ∃ step ∈ steps, step.handler = .confirmWorker name

variable {root root' : Resource} {rt vf : List Step} {step : Step} {k : KeepAlive}

theorem Mirrors.awaits (h : c.Mirrors root) (steps : List Step) : c.Awaits root steps :=
  ⟨h.toFollows, fun name w hw => .inl (h.running name w hw)⟩

theorem Awaits.mirrors (h : c.Awaits root []) : c.Mirrors root where
  toFollows := h.toFollows
  running name w hw := (h.confirmed name w hw).resolve_right (by rintro ⟨_, ⟨⟩, -⟩)

/-- A change of one worker and its resource leaves the others in line. -/
theorem Follows.change (h : c.Follows root) (name : String) (hd : d.Fits)
    (hname : (d.get? name).map (fun w => Except.ok w.keepAlive)
      = (root'.worker? name).map Resource.keepAlive)
    (hd' : ∀ other, other ≠ name → d.get? other = c.get? other)
    (hroot : ∀ other, other ≠ name → root'.worker? other = root.worker? other) :
    d.Follows root' where
  toFits := hd
  same other := by
    by_cases ho : other = name
    · exact ho ▸ hname
    · rw [hd' other ho, hroot other ho]
      exact h.same other

/-- A worker that comes new or in place of another is in line with its resource, and runs or is
confirmed. -/
theorem Awaits.restore {vf' : List Step} (h : c.Awaits root vf) (hd : (c.restore name w).Fits)
    (hname : (root'.worker? name).map Resource.keepAlive = some (.ok w.keepAlive))
    (hroot : ∀ other, other ≠ name → root'.worker? other = root.worker? other)
    (hw : w.state = .running ∨ ∃ step ∈ vf', step.handler = .confirmWorker name)
    (hvf : ∀ other, other ≠ name → ∀ step ∈ vf, step.handler = .confirmWorker other → step ∈ vf') :
    (c.restore name w).Awaits root' vf' := by
  refine ⟨h.toFollows.change name hd ?_ (fun other ho => ?_) hroot, fun other w' hw' => ?_⟩
  · rw [get?_restore, if_pos rfl, hname]
    rfl
  · rw [get?_restore, if_neg (Ne.symm ho)]
  · rw [get?_restore] at hw'
    split at hw'
    · rename_i ho
      exact Option.some.inj hw' ▸ ho ▸ hw
    · rename_i ho
      refine (h.confirmed other w' hw').imp_right fun ⟨step, hstep, hconfirm⟩ => ?_
      exact ⟨step, hvf other (Ne.symm ho) step hstep hconfirm, hconfirm⟩

/-- A worker that is started is confirmed by a step that is queued along with it. -/
theorem Awaits.start (h : c.Awaits root vf) (hd : c.Changes (.startWorker name k) d)
    {r : Resource} (hr : r.keepAlive = .ok k) (hname : root'.worker? name = some r)
    (hroot : ∀ other, other ≠ name → root'.worker? other = root.worker? other)
    (hstep : step.handler = .confirmWorker name) : d.Awaits root' (vf ++ [step]) := by
  have hfits := hd.fits h.toFits
  cases hd with
  | start hfree hroom =>
    refine h.restore hfits ?_ hroot (.inr ⟨step, ?_, hstep⟩) fun _ _ other hother _ => ?_
    · rw [hname]
      exact congrArg some hr
    · exact List.mem_append_right _ (List.mem_singleton_self _)
    · exact List.mem_append_left _ hother

theorem Awaits.stop (h : c.Awaits root vf) (hd : c.Changes (.stopWorker name) d)
    (hname : root'.worker? name = none)
    (hroot : ∀ other, other ≠ name → root'.worker? other = root.worker? other) :
    d.Awaits root' vf := by
  have hfits := hd.fits h.toFits
  cases hd with
  | stop =>
    refine ⟨h.toFollows.change name hfits ?_ (fun other ho => ?_) hroot,
      fun other w hw => ?_⟩
    · rw [get?_stop h.nodup, if_pos rfl, hname]
      rfl
    · rw [get?_stop h.nodup, if_neg (Ne.symm ho)]
    · rw [get?_stop h.nodup] at hw
      split at hw
      · cases hw
      · exact h.confirmed other w hw

theorem Awaits.apply (h : c.Awaits root vf) (hd : c.Changes (.applyKeepAlive name k) d)
    {r : Resource} (hr : r.keepAlive = .ok k) (hname : root'.worker? name = some r)
    (hroot : ∀ other, other ≠ name → root'.worker? other = root.worker? other) :
    d.Awaits root' vf := by
  have hfits := hd.fits h.toFits
  cases hd with
  | @apply _ _ w hw =>
    refine h.restore hfits ?_ hroot (h.confirmed name w hw) fun _ _ other hother _ => hother
    rw [hname]
    exact congrArg some hr

/-- The step that confirms a worker has done its part. -/
theorem Awaits.confirm (h : c.Awaits root (step :: vf)) (hstep : step.handler = .confirmWorker name)
    (hd : c.Changes (.confirmWorker name) d) : d.Awaits root vf := by
  have hfits := hd.fits h.toFits
  cases hd with
  | @confirm _ w hw =>
    refine h.restore hfits ?_ (fun _ _ => rfl) (.inl rfl) fun other ho s hs hconfirm => ?_
    · rw [← h.same name, hw]
      rfl
    · rcases List.mem_cons.mp hs with rfl | hs
      · exact absurd (Handler.confirmWorker.inj (hconfirm.symm.trans hstep)) ho
      · exact hs

/-- **Once the steps `rt` have run**, the container follows the root, and what does not run yet is
confirmed by one of the steps `vf`. -/
def Plans (c : WorkerContainer) (root : Resource) (rt vf : List Step) : Prop :=
  ∀ d, Runs rt c d → d.Awaits root vf

theorem Plans.awaits (h : c.Plans root [] vf) : c.Awaits root vf := h c .nil

theorem Awaits.plans (h : c.Awaits root vf) : c.Plans root [] vf := by
  rintro d ⟨⟩
  exact h

/-- A step is queued behind the others. -/
theorem Plans.snoc {vf' : List Step} (h : c.Plans root rt vf)
    (hstep : ∀ d e : WorkerContainer, d.Awaits root vf → d.Changes step.handler e →
      e.Awaits root' vf') : c.Plans root' (rt ++ [step]) vf' := by
  intro e he
  obtain ⟨d, hd, he⟩ := runs_snoc he
  exact hstep d e (h d hd) he

/-- The first of the steps runs. -/
theorem Plans.next (h : c.Plans root (step :: rt) vf) (hd : c.Changes step.handler d) :
    d.Plans root rt vf := fun e he => h e (.cons hd he)

end WorkerContainer

/-! ## After a rollback -/

namespace Completion

/-- What the completion makes of the worker of a name when it is undone. -/
def undo (c : Completion) (name : String) (o : Option Worker) : Option Worker :=
  match c with
  | .stopWorker n => if n = name then none else o
  | .restoreWorker n w => if n = name then some w else o
  | .reconfigureWorker n k => if n = name then o.map ({ · with keepAlive := k }) else o
  | _ => o

/-- What completions, undone in turn, make of the worker of a name. -/
def undone (cs : List Completion) (name : String) (o : Option Worker) : Option Worker :=
  cs.foldl (fun o c => c.undo name o) o

/-- Whether there is a worker in the end goes by whether there was one. -/
theorem isSome_undone (cs : List Completion) (name : String) {o o' : Option Worker}
    (h : o.isSome = o'.isSome) : (undone cs name o).isSome = (undone cs name o').isSome := by
  induction cs generalizing o o' with
  | nil => exact h
  | cons c cs ih =>
    refine ih ?_
    cases c <;> simp only [undo] <;> (try split) <;> simp only [Option.isSome_map, h]

/-- A completion that undoes a change of the workers, or has nothing to undo. -/
def IsUndo : Completion → Prop
  | stopWorker _ | restoreWorker .. | reconfigureWorker .. | reportSteps .. => True
  | _ => False

/-- Undoing a completion is what it does on a rollback. -/
theorem workers_run {c : Completion} (hc : c.IsUndo) (s : Scene)
    (hs : (Dict.keys s.plane.workers.workers).Nodup) :
    (Dict.keys (c.run .rollback s).plane.workers.workers).Nodup ∧
      (c.run .rollback s).plane.workers.capacity = s.plane.workers.capacity ∧
      ∀ name, (c.run .rollback s).plane.workers.get? name
        = c.undo name (s.plane.workers.get? name) := by
  cases c with
  | stopWorker n => exact ⟨Dict.nodup_keys_erase hs _, rfl, WorkerContainer.get?_stop hs n⟩
  | restoreWorker n w =>
    exact ⟨Dict.nodup_keys_put hs _ _, rfl, WorkerContainer.get?_restore _ n w⟩
  | reconfigureWorker n k =>
    cases hw : s.plane.workers.get? n with
    | none =>
      rw [run, if_neg (by decide), WorkerContainer.reconfigure_of_none hw k]
      dsimp only
      refine ⟨hs, rfl, fun name => ?_⟩
      rw [undo]
      split
      · rename_i hn
        rw [← hn, hw]
        rfl
      · rfl
    | some w =>
      rw [run, if_neg (by decide), WorkerContainer.reconfigure_of_some hw k]
      refine ⟨Dict.nodup_keys_put hs _ _, rfl, fun name => ?_⟩
      refine (WorkerContainer.get?_restore _ n _ name).trans ?_
      rw [undo]
      split
      · rename_i hn
        rw [← hn, hw]
        rfl
      · rfl
  | reportSteps own slots => exact ⟨hs, rfl, fun _ => rfl⟩
  | _ => exact hc.elim

end Completion

namespace WorkerContainer

variable {c₀ c d : WorkerContainer} {cs : List Completion} {name : String}

/-- As many workers as there are of these names would have room. -/
def HasRoom (c : WorkerContainer) (taken : String → Bool) : Prop :=
  ∃ e : WorkerContainer, e.Fits ∧ e.capacity = c.capacity ∧
    ∀ name, (e.get? name).isSome = taken name

theorem Fits.hasRoom (h : c.Fits) : c.HasRoom fun name => (c.get? name).isSome :=
  ⟨c, h, rfl, fun _ => rfl⟩

theorem HasRoom.congr {taken taken' : String → Bool} (h : c.HasRoom taken)
    (hcapacity : d.capacity = c.capacity) (htaken : ∀ name, taken' name = taken name) :
    d.HasRoom taken' := by
  obtain ⟨e, he, hroom, hnames⟩ := h
  exact ⟨e, he, hroom.trans hcapacity.symm, fun name => (hnames name).trans (htaken name).symm⟩

/-- **Once the completions are undone**, the latest first, the workers are those of `c₀`; and they
never need more room on the way. -/
structure Undoes (c₀ : WorkerContainer) (cs : List Completion) (c : WorkerContainer) : Prop where
  nodup : (Dict.keys c.workers).Nodup
  capacity : c.capacity = c₀.capacity
  undo : ∀ k ∈ cs, k.IsUndo
  back : ∀ name, Completion.undone cs name (c.get? name) = c₀.get? name
  room : ∀ ks, ks <+: cs → c.HasRoom fun name => (Completion.undone ks name (c.get? name)).isSome

/-- Containers without repeated names are as large as the names that they hold. -/
theorem HasRoom.fits (h : c.HasRoom fun name => (c.get? name).isSome)
    (hc : (Dict.keys c.workers).Nodup) : c.Fits := by
  obtain ⟨e, he, hcapacity, hnames⟩ := h
  refine ⟨hc, ?_⟩
  have hkeys : ∀ k, k ∈ Dict.keys c.workers ↔ k ∈ Dict.keys e.workers := fun k => by
    have hk := hnames k
    rw [← not_iff_not, ← Dict.get?_eq_none_iff, ← Dict.get?_eq_none_iff]
    simp only [WorkerContainer.get?] at hk
    rw [← Option.isNone_iff_eq_none, ← Option.isNone_iff_eq_none, ← Option.not_isSome,
      ← Option.not_isSome, hk]
  have hperm := (List.perm_ext_iff_of_nodup hc he.nodup).mpr hkeys
  have hsize : c.size = e.size := by
    have hlength := hperm.length_eq
    simpa [Dict.keys, size] using hlength
  rw [hsize, ← hcapacity]
  exact he.room

theorem Undoes.fits (h : Undoes c₀ cs c) : c.Fits :=
  (h.room [] List.nil_prefix).fits h.nodup

/-- Besides, a worker that does not run yet goes away with what the completions undo, whatever
becomes of it in the meantime. -/
structure Tracks (c₀ : WorkerContainer) (cs : List Completion) (c : WorkerContainer) : Prop
    extends Undoes c₀ cs c where
  fresh : ∀ name w, c.get? name = some w → w.state = .starting →
    ∀ o, Completion.undone cs name o = c₀.get? name

theorem Mirrors.tracks {root : Resource} (h : c.Mirrors root) : Tracks c [] c where
  nodup := h.nodup
  capacity := rfl
  undo := by rintro _ ⟨⟩
  back _ := rfl
  room ks hks := by
    obtain rfl := List.prefix_nil.mp hks
    exact h.toFits.hasRoom
  fresh name w hw hstate := by cases (h.running name w hw).symm.trans hstate

/-- A change whose completion brings the workers back to where they were. -/
theorem Tracks.push (h : Tracks c₀ cs c) {k : Completion} (hd : d.Fits)
    (hcapacity : d.capacity = c.capacity) (hk : k.IsUndo)
    (hback : ∀ name, k.undo name (d.get? name) = c.get? name)
    (hfresh : ∀ name w, d.get? name = some w → w.state = .starting →
      (∀ o, k.undo name o = c.get? name) ∨ ∃ w', c.get? name = some w' ∧ w'.state = .starting) :
    Tracks c₀ (k :: cs) d where
  nodup := hd.nodup
  capacity := hcapacity.trans h.capacity
  undo := List.forall_mem_cons.mpr ⟨hk, h.undo⟩
  back name := by
    show Completion.undone cs name (k.undo name (d.get? name)) = _
    rw [hback, h.back]
  room ks hks := by
    obtain rfl | ⟨ks, rfl, hrest⟩ := List.prefix_cons_iff.mp hks
    · exact hd.hasRoom
    · refine (h.room ks hrest).congr hcapacity fun name => ?_
      show (Completion.undone ks name (k.undo name (d.get? name))).isSome = _
      rw [hback]
  fresh name w hw hstate o := by
    show Completion.undone cs name (k.undo name o) = _
    rcases hfresh name w hw hstate with hk | ⟨w', hw', hstate'⟩
    · rw [hk, h.back]
    · exact h.fresh name w' hw' hstate' _

theorem Tracks.start {k : KeepAlive} (h : Tracks c₀ cs c)
    (hd : c.Changes (.startWorker name k) d) : Tracks c₀ (.stopWorker name :: cs) d := by
  have hcapacity := hd.capacity
  have hfits := hd.fits h.fits
  cases hd with
  | start hfree hroom =>
    refine h.push hfits hcapacity trivial (fun other => ?_)
      fun other w hw hstate => ?_
    · rw [get?_restore, Completion.undo]
      split
      · rename_i ho
        exact (ho ▸ hfree).symm
      · rfl
    · rw [get?_restore] at hw
      split at hw
      · rename_i ho
        refine .inl fun o => ?_
        rw [Completion.undo, if_pos ho, ← ho, hfree]
      · exact .inr ⟨w, hw, hstate⟩

theorem Tracks.stop {w : Worker} (h : Tracks c₀ cs c) (hw : c.get? name = some w) :
    Tracks c₀ (.restoreWorker name w :: cs) (c.stop name) := by
  refine h.push (Changes.stop.fits h.fits) rfl trivial (fun other => ?_)
    fun other w' hw' hstate => ?_
  · rw [get?_stop h.nodup, Completion.undo]
    split
    · rename_i ho
      exact (ho ▸ hw).symm
    · rfl
  · rw [get?_stop h.nodup] at hw'
    split at hw'
    · cases hw'
    · exact .inr ⟨w', hw', hstate⟩

theorem Tracks.apply {w : Worker} (h : Tracks c₀ cs c) (hw : c.get? name = some w)
    (k : KeepAlive) : Tracks c₀ (.reconfigureWorker name w.keepAlive :: cs)
      (c.restore name { w with keepAlive := k }) := by
  refine h.push (h.fits.restore (hw ▸ rfl) _) rfl trivial (fun other => ?_)
    fun other w' hw' hstate => ?_
  · rw [get?_restore, Completion.undo]
    split
    · rename_i ho
      exact (ho ▸ hw).symm
    · rfl
  · rw [get?_restore] at hw'
    split at hw'
    · rename_i ho
      obtain rfl := Option.some.inj hw'
      exact .inr ⟨w, ho ▸ hw, hstate⟩
    · exact .inr ⟨w', hw', hstate⟩

/-- Confirming leaves no completion behind: what starts goes away when it is undone. -/
theorem Tracks.confirm (h : Tracks c₀ cs c) (hd : c.Changes (.confirmWorker name) d) :
    Tracks c₀ cs d := by
  have hcapacity := hd.capacity
  cases hd with
  | @confirm _ w hw =>
    refine ⟨⟨Dict.nodup_keys_put h.nodup _ _, hcapacity.trans h.capacity, h.undo,
      fun other => ?_, fun ks hks => ?_⟩, fun other w' hw' hstate => ?_⟩
    · rw [get?_restore]
      split
      · rename_i ho
        subst ho
        cases hstate : w.state with
        | starting => exact h.fresh _ w hw hstate _
        | running =>
          rw [← h.back, hw, ← hstate]
      · exact h.back other
    · -- the names are those of before
      refine (h.room ks hks).congr hcapacity fun other => Completion.isSome_undone ks other ?_
      rw [get?_restore]
      split
      · rename_i ho
        rw [← ho, hw]
        rfl
      · rfl
    · rw [get?_restore] at hw'
      split at hw'
      · obtain rfl := Option.some.inj hw'
        cases hstate
      · exact h.fresh other w' hw' hstate

/-- A completion that needs nothing to be undone. -/
theorem Tracks.report (h : Tracks c₀ cs c) (own : Nat) (slots : List (String × Nat)) :
    Tracks c₀ (.reportSteps own slots :: cs) c :=
  h.push h.fits rfl trivial (fun _ => rfl) fun _ w hw hstate => .inr ⟨w, hw, hstate⟩

/-- The latest completion is undone. -/
theorem Undoes.next {k : Completion} {s : Scene} (h : Undoes c₀ (k :: cs) s.plane.workers) :
    Undoes c₀ cs (k.run .rollback s).plane.workers := by
  obtain ⟨hk, hcs⟩ := List.forall_mem_cons.mp h.undo
  obtain ⟨hnodup, hcapacity, hget⟩ := Completion.workers_run hk s h.nodup
  refine ⟨hnodup, hcapacity.trans h.capacity, hcs, fun name => ?_, fun ks hks => ?_⟩
  · rw [hget]
    exact h.back name
  · have hroom := h.room (k :: ks) (List.cons_prefix_cons.mpr ⟨rfl, hks⟩)
    refine hroom.congr hcapacity fun name => ?_
    rw [hget]
    rfl

/-- **When all is undone** the workers are those of the beginning. -/
theorem Undoes.perm (h : Undoes c₀ [] c) (h₀ : (Dict.keys c₀.workers).Nodup) :
    c.workers.Perm c₀.workers := Dict.perm_of_get? h.nodup h₀ h.back

theorem Undoes.inLine {root : Resource} (h : Undoes c₀ [] c) (h₀ : c₀.InLine root) :
    c.InLine root where
  nodup := h.nodup
  room := by
    rw [h.capacity]
    exact (h.perm h₀.nodup).length_eq.trans_le h₀.room
  same name := by
    rw [show c.get? name = c₀.get? name from h.back name]
    exact h₀.same name
  running name w hw := h₀.running name w ((h.back name).symm.trans hw)
  listed := h₀.listed

end WorkerContainer

end ManagementPlane
