import ManagementPlane.Prepared
import Mathlib.Data.List.Basic

/-!
# Proofs/Prepared/Clones — the clones of a handle decide once

The clones of a prepared handle are numbered in the order in which they are given out, and a clone
serves a call as long as it is held.  The participant, at the other end, looks for the decision
until it has observed one, or goes away (`Clones.allows`).

`History log s` is any order of such calls, each with its answer, that leads from a fresh handle to
`s`.  What the handle shares is then a function of the calls alone (`Agrees`): the decision is the
first one called for, and a clone is gone when its drop was called.
-/

namespace ManagementPlane

namespace Prepared

/-- A shared state together with the clones given out so far: whether each, by its number, is still
held. -/
structure Clones where
  shared : Prepared := {}
  held : List Bool := [true]
  deriving DecidableEq, Repr, Inhabited

/-- What the holders of clones and the participant call for. -/
inductive Call
  | clone (i : Nat)
  | drop (i : Nat)
  | resolve (i : Nat) (d : Decision)
  /-- Whether the handle is resolved. -/
  | ask (i : Nat)
  /-- The participant looks for the decision. -/
  | read
  /-- The participant stops waiting. -/
  | leave
  deriving DecidableEq, Repr

inductive Answer
  | done
  | resolved (out : Except DecisionError Unit)
  | asked (b : Bool)
  | observed (o : Outlook)
  deriving DecidableEq, Repr

/-- The clone that a call is made on. -/
def Call.clone? : Call → Option Nat
  | clone i | drop i | resolve i _ | ask i => some i
  | read | leave => none

/-- The decision that a call asks for. -/
def Call.decision? : Call → Option Decision
  | resolve _ d => some d
  | clone _ | drop _ | ask _ | read | leave => none

def Call.clones : Call → Bool
  | clone _ => true
  | drop _ | resolve .. | ask _ | read | leave => false

namespace Clones

/-- A call on a clone needs the clone, and the participant needs its end. -/
def allows (s : Clones) (c : Call) : Bool :=
  match c.clone? with
  | some i => s.held[i]? = some true
  | none => s.shared.listening

def answer (s : Clones) : Call → Answer
  | .clone _ | .drop _ | .leave => .done
  | .resolve _ d => .resolved (s.shared.resolve d).1
  | .ask _ => .asked s.shared.isResolved
  | .read => .observed s.shared.outlook

/-- The clones after a call.  Having observed its end, the participant waits no longer. -/
def after (s : Clones) : Call → Clones
  | .clone _ => { shared := s.shared.clone, held := s.held ++ [true] }
  | .drop i => { shared := s.shared.drop, held := s.held.set i false }
  | .resolve _ d => { s with shared := (s.shared.resolve d).2 }
  | .ask _ => s
  | .read => if s.shared.outlook = .pending then s else { s with shared := s.shared.leave }
  | .leave => { s with shared := s.shared.leave }

end Clones

/-! ## What the calls say -/

/-- Calls in their order, each with its answer. -/
abbrev Log := List (Call × Answer)

namespace Log

variable (log : Log)

def calls : List Call := log.map (·.1)

/-- The decisions called for, the first one first. -/
def decisions : List Decision := log.filterMap (·.1.decision?)

/-- How many clones were given out, the handle itself among them. -/
def given : Nat := 1 + log.countP (·.1.clones)

/-- Every clone given out was dropped. -/
def Abandoned : Prop := ∀ i < log.given, Call.drop i ∈ log.calls

/-- The participant observed the end. -/
def Ended : Prop := ∃ o, o ≠ .pending ∧ (Call.read, Answer.observed o) ∈ log

variable {log} {c : Call} {a : Answer}

@[simp] theorem mem_calls_concat {c' : Call} :
    c' ∈ (log ++ [(c, a)]).calls ↔ c' ∈ log.calls ∨ c' = c := by
  simp [calls]

theorem head?_decisions_concat :
    (log ++ [(c, a)]).decisions.head? = log.decisions.head?.or c.decision? := by
  unfold decisions
  rw [List.filterMap_append, List.head?_append]
  cases c <;> rfl

theorem given_concat : (log ++ [(c, a)]).given = log.given + if c.clones then 1 else 0 := by
  unfold given
  rw [List.countP_append, List.countP_singleton, Nat.add_assoc]

theorem ended_concat :
    (log ++ [(c, a)]).Ended ↔ log.Ended ∨ c = .read ∧ ∃ o, o ≠ .pending ∧ a = .observed o := by
  simp only [Ended, List.mem_append, List.mem_singleton, Prod.mk.injEq]
  constructor
  · rintro ⟨o, ho, hmem | ⟨rfl, rfl⟩⟩
    · exact .inl ⟨o, ho, hmem⟩
    · exact .inr ⟨rfl, o, ho, rfl⟩
  · rintro (⟨o, ho, hmem⟩ | ⟨rfl, o, ho, rfl⟩)
    · exact ⟨o, ho, .inl hmem⟩
    · exact ⟨o, ho, .inr ⟨rfl, rfl⟩⟩

end Log

/-- Calls with their answers, and the clones that they lead to. -/
inductive History : Log → Clones → Prop
  | start : History [] {}
  | call {log : Log} {s : Clones} (c : Call) :
      History log s → s.allows c = true → History (log ++ [(c, s.answer c)]) (s.after c)

/-! ## The clones are what the calls say -/

section States

variable {p : Prepared} {s : Clones} {log : Log} {c : Call} {i : Nat} {d : Decision}

theorem outlook_eq_decided_iff : p.outlook = .decided d ↔ p.decision = some d := by
  unfold outlook
  split
  · simp_all
  · split <;> simp_all

theorem outlook_eq_dropped_iff : p.outlook = .dropped ↔ p.decision = none ∧ p.clones = 0 := by
  unfold outlook
  split
  · simp_all
  · split <;> simp_all

theorem outlook_eq_pending_iff : p.outlook = .pending ↔ p.decision = none ∧ p.clones ≠ 0 := by
  unfold outlook
  split
  · simp_all
  · split <;> simp_all

/-! What a call changes, one field at a time. -/

namespace Clones

theorem decision_after (s : Clones) (c : Call) :
    (s.after c).shared.decision = s.shared.decision.or c.decision? := by
  cases c with
  | resolve i d =>
    change (s.shared.resolve d).2.decision = _
    unfold Prepared.resolve
    split <;> simp_all [Call.decision?]
  | read =>
    rw [after]
    split <;> exact Option.or_none.symm
  | clone | drop | ask | leave => exact Option.or_none.symm

theorem listening_after (s : Clones) (c : Call) :
    (s.after c).shared.listening = true
      ↔ s.shared.listening = true ∧ c ≠ .leave ∧ ¬ (c = .read ∧ s.shared.outlook ≠ .pending) := by
  cases c with
  | resolve i d =>
    change (s.shared.resolve d).2.listening = true ↔ _
    unfold Prepared.resolve
    split <;> simp
  | read =>
    rw [after]
    split <;> simp_all [Prepared.leave]
  | leave => simp [after, Prepared.leave]
  | clone | drop | ask => simp [after, Prepared.clone, Prepared.drop]

theorem length_held_after (s : Clones) (c : Call) :
    (s.after c).held.length = s.held.length + if c.clones then 1 else 0 := by
  cases c with
  | clone i => exact List.length_append
  | drop i => exact List.length_set
  | read =>
    rw [after]
    split <;> rfl
  | resolve | ask | leave => rfl

theorem gone_after (hc : s.allows c = true) (j : Nat) :
    (s.after c).held[j]? = some false ↔ s.held[j]? = some false ∨ c = .drop j := by
  cases c with
  | clone i =>
    change (s.held ++ [true])[j]? = some false ↔ _
    rw [List.getElem?_append]
    split
    · simp
    · rename_i hj
      rw [List.getElem?_eq_none (Nat.not_lt.mp hj)]
      cases j - s.held.length <;> simp
  | drop i =>
    obtain ⟨hlt, -⟩ := List.getElem?_eq_some_iff.mp (of_decide_eq_true hc)
    change (s.held.set i false)[j]? = some false ↔ _
    rw [List.getElem?_set]
    by_cases hj : i = j
    · simp [hj, hj ▸ hlt]
    · simp [hj]
  | read =>
    rw [after]
    split <;> simp
  | resolve | ask | leave => simp [after]

theorem clones_after (hc : s.allows c = true) (h : s.shared.clones = s.held.count true) :
    (s.after c).shared.clones = (s.after c).held.count true := by
  cases c with
  | clone i =>
    change s.shared.clones + 1 = (s.held ++ [true]).count true
    rw [List.count_append, ← h]
    rfl
  | drop i =>
    obtain ⟨hlt, hget⟩ := List.getElem?_eq_some_iff.mp (of_decide_eq_true hc)
    change s.shared.clones - 1 = (s.held.set i false).count true
    rw [List.count_set hlt, ← h, hget]
    rfl
  | resolve i d =>
    change (s.shared.resolve d).2.clones = _
    unfold Prepared.resolve
    split <;> exact h
  | read =>
    rw [after]
    split <;> exact h
  | ask | leave => exact h

/-- The participant's calls leave what it observes. -/
theorem outlook_after_of_clone?_eq_none (hc : c.clone? = none) :
    (s.after c).shared.outlook = s.shared.outlook := by
  cases c with
  | read =>
    rw [after]
    split <;> rfl
  | leave => rfl
  | clone | drop | resolve | ask => exact absurd hc (Option.some_ne_none _)

end Clones

/-- What the clones share and which of them are held, as the calls have it. -/
structure Agrees (log : Log) (s : Clones) : Prop where
  decision : s.shared.decision = log.decisions.head?
  clones : s.shared.clones = s.held.count true
  given : s.held.length = log.given
  gone : ∀ i, s.held[i]? = some false ↔ Call.drop i ∈ log.calls
  listening : s.shared.listening = true ↔ Call.leave ∉ log.calls ∧ ¬ log.Ended
  ended : log.Ended → s.shared.outlook ≠ .pending

namespace Agrees

theorem start : Agrees [] {} where
  decision := rfl
  clones := rfl
  given := rfl
  gone i := by
    cases i <;> simp [Log.calls]
  listening := by simp [Log.calls, Log.Ended]
  ended h := by simp [Log.Ended] at h

theorem holds_iff (h : Agrees log s) :
    s.held[i]? = some true ↔ i < log.given ∧ Call.drop i ∉ log.calls := by
  rw [← h.gone, ← h.given]
  by_cases hi : i < s.held.length
  · rw [List.getElem?_eq_getElem hi]
    simp [hi]
  · rw [List.getElem?_eq_none (Nat.not_lt.mp hi)]
    simp [hi]

theorem clones_eq_zero_iff (h : Agrees log s) : s.shared.clones = 0 ↔ log.Abandoned := by
  rw [h.clones, List.count_eq_zero]
  constructor
  · intro hnone i hi
    by_contra hdrop
    exact hnone (List.mem_of_getElem? (h.holds_iff.mpr ⟨hi, hdrop⟩))
  · intro hall hmem
    obtain ⟨i, hi⟩ := List.mem_iff_getElem?.mp hmem
    obtain ⟨hlt, hdrop⟩ := h.holds_iff.mp hi
    exact hdrop (hall i hlt)

theorem clones_ne_zero (h : Agrees log s) (hi : s.held[i]? = some true) : s.shared.clones ≠ 0 := by
  rw [h.clones]
  exact fun hzero => List.count_eq_zero.mp hzero (List.mem_of_getElem? hi)

/-- While a clone is held, only a decision ends the participant's wait. -/
theorem decision_of_ended (h : Agrees log s) (hi : s.held[i]? = some true) (he : log.Ended) :
    s.shared.decision ≠ none :=
  fun hnone => h.ended he (outlook_eq_pending_iff.mpr ⟨hnone, h.clones_ne_zero hi⟩)

theorem call (h : Agrees log s) (hc : s.allows c = true) :
    Agrees (log ++ [(c, s.answer c)]) (s.after c) where
  decision := by
    rw [Clones.decision_after, Log.head?_decisions_concat, h.decision]
  clones := Clones.clones_after hc h.clones
  given := by
    rw [Clones.length_held_after, Log.given_concat, h.given]
  gone j := by
    rw [Clones.gone_after hc, Log.mem_calls_concat, h.gone, eq_comm (a := c)]
  listening := by
    have hend : (c = .read ∧ ∃ o, o ≠ .pending ∧ s.answer c = .observed o)
        ↔ c = .read ∧ s.shared.outlook ≠ .pending := by
      refine and_congr_right ?_
      rintro rfl
      simp [Clones.answer]
    rw [Clones.listening_after, Log.mem_calls_concat, Log.ended_concat, hend, h.listening]
    tauto
  ended he := by
    rw [Log.ended_concat] at he
    intro hout
    cases hclone : c.clone? with
    | some i =>
      have hi : s.held[i]? = some true := by simpa [Clones.allows, hclone] using hc
      have he : log.Ended := he.resolve_right fun hread => by simp [hread.1, Call.clone?] at hclone
      have hdecision := (outlook_eq_pending_iff.mp hout).1
      rw [Clones.decision_after] at hdecision
      exact h.decision_of_ended hi he (Option.or_eq_none_iff.mp hdecision).1
    | none =>
      rw [Clones.outlook_after_of_clone?_eq_none hclone] at hout
      obtain he | ⟨rfl, o, ho, hanswer⟩ := he
      · exact h.ended he hout
      · exact ho (Answer.observed.inj hanswer ▸ hout)

end Agrees

theorem History.agrees (h : History log s) : Agrees log s := by
  induction h with
  | start => exact .start
  | call c _ hc ih => exact ih.call hc

/-- The clones at the time of a call. -/
theorem History.at {before after : Log} {a : Answer} (h : History log s)
    (hlog : log = before ++ (c, a) :: after) :
    ∃ s', Agrees before s' ∧ s'.allows c = true ∧ a = s'.answer c := by
  induction h generalizing after with
  | start => simp at hlog
  | @call log s c' hlog' hc' ih =>
    obtain rfl | ⟨after, last, rfl⟩ := after.eq_nil_or_concat
    · obtain ⟨rfl, hlast⟩ := List.append_inj' hlog rfl
      obtain ⟨rfl, rfl⟩ := Prod.mk.inj (List.singleton_inj.mp hlast)
      exact ⟨s, hlog'.agrees, hc', rfl⟩
    · rw [List.concat_eq_append, ← List.cons_append, ← List.append_assoc] at hlog
      exact ih (List.append_inj' hlog rfl).1

/-! ## One decision -/

/-- What the holders of the clones and the participant have seen after `log`, which led to `s`. -/
structure Once (log : Log) (s : Clones) : Prop where
  /-- The first call that decides succeeds unless the participant went away; all later ones, on
  whichever clone, are told that it is decided. -/
  resolves : ∀ (before : Log) i d a after, log = before ++ (Call.resolve i d, a) :: after →
    a = .resolved (if before.decisions ≠ [] then .error .alreadyResolved
      else if Call.leave ∈ before.calls then .error .participantGone else .ok ())
  /-- Every clone knows whether some clone decided. -/
  asks : ∀ (before : Log) i a after, log = before ++ (Call.ask i, a) :: after →
    a = .asked (decide (before.decisions ≠ []))
  /-- What is resolved remains so, and clones asked without a decision in between agree. -/
  remains : ∀ (before : Log) i b (between : Log) j b' after,
    log = before ++ (Call.ask i, Answer.asked b)
      :: (between ++ (Call.ask j, Answer.asked b') :: after) →
    (b = true → b' = true) ∧ (between.decisions = [] → b' = b)
  /-- The participant observes the first decision called for and no other, and a drop exactly when
  all clones were dropped before there was one. -/
  observes : ∀ (before : Log) a after, log = before ++ (Call.read, a) :: after →
    ∃ o, a = .observed o
      ∧ (∀ d, o = .decided d ↔ before.decisions.head? = some d)
      ∧ (o = .dropped ↔ before.decisions = [] ∧ before.Abandoned)
  /-- It observes one end. -/
  ends : ∀ (before : Log) o after, log = before ++ (Call.read, Answer.observed o) :: after →
    o ≠ .pending → ∀ a, (Call.read, a) ∉ after
  /-- A clone serves until its drop, and the participant can look until it goes away or has
  observed the end. -/
  serves : ∀ c, s.allows c = true ↔ match c.clone? with
    | some i => i < log.given ∧ Call.drop i ∉ log.calls
    | none => Call.leave ∉ log.calls ∧ ¬ log.Ended

namespace Agrees

theorem isResolved (h : Agrees log s) :
    s.shared.isResolved = decide (log.decisions ≠ []) := by
  rw [Prepared.isResolved, h.decision]
  cases log.decisions <;> rfl

theorem resolve (h : Agrees log s) (hi : s.held[i]? = some true) (d : Decision) :
    (s.shared.resolve d).1 = if log.decisions ≠ [] then .error .alreadyResolved
      else if Call.leave ∈ log.calls then .error .participantGone else .ok () := by
  by_cases hfirst : log.decisions = []
  · have hnone : s.shared.decision = none := by rw [h.decision, hfirst]; rfl
    have hlistening : s.shared.listening = true ↔ Call.leave ∉ log.calls :=
      h.listening.trans (and_iff_left fun he => h.decision_of_ended hi he hnone)
    rw [if_neg (not_not.mpr hfirst), Prepared.resolve, hnone]
    by_cases hleft : Call.leave ∈ log.calls
    · rw [if_pos hleft, if_neg fun hl => hlistening.mp hl hleft]
    · rw [if_neg hleft, if_pos (hlistening.mpr hleft)]
  · have hsome : s.shared.isResolved = true := by
      rw [h.isResolved]
      exact decide_eq_true hfirst
    rw [if_pos hfirst, resolve_of_isResolved hsome]

theorem observes (h : Agrees log s) :
    (∀ d, s.shared.outlook = .decided d ↔ log.decisions.head? = some d)
      ∧ (s.shared.outlook = .dropped ↔ log.decisions = [] ∧ log.Abandoned) := by
  constructor
  · intro d
    rw [outlook_eq_decided_iff, h.decision]
  · rw [outlook_eq_dropped_iff, h.decision, List.head?_eq_none_iff, h.clones_eq_zero_iff]

theorem serves (h : Agrees log s) (c : Call) : s.allows c = true ↔ match c.clone? with
    | some i => i < log.given ∧ Call.drop i ∉ log.calls
    | none => Call.leave ∉ log.calls ∧ ¬ log.Ended := by
  unfold Clones.allows
  cases c.clone? with
  | some i => exact decide_eq_true_iff.trans h.holds_iff
  | none => exact h.listening

end Agrees

/-- **The clones of a handle decide once.**  However calls on them and the participant's looking and
leaving interleave: the first decision counts, all later ones are turned down, the clones always
agree on whether it is decided, and the participant sees that decision or, when all of them were
dropped before, their drop. -/
theorem History.once (h : History log s) : Once log s where
  resolves before i d a after hlog := by
    obtain ⟨s', hs, hallows, rfl⟩ := h.at hlog
    exact congrArg _ (hs.resolve (of_decide_eq_true hallows) d)
  asks before i a after hlog := by
    obtain ⟨s', hs, -, rfl⟩ := h.at hlog
    exact congrArg _ hs.isResolved
  remains before i b between j b' after hlog := by
    obtain ⟨s₁, hs₁, -, hb⟩ := h.at hlog
    rw [← List.cons_append, ← List.append_assoc] at hlog
    obtain ⟨s₂, hs₂, -, hb'⟩ := h.at hlog
    obtain rfl := Answer.asked.inj hb
    obtain rfl := Answer.asked.inj hb'
    have hdecisions : Log.decisions
          (before ++ (Call.ask i, Answer.asked s₁.shared.isResolved) :: between)
        = Log.decisions before ++ Log.decisions between := by
      simp [Log.decisions, Call.decision?]
    rw [hs₁.isResolved, hs₂.isResolved, hdecisions]
    constructor
    · intro hfirst
      exact decide_eq_true (List.append_ne_nil_of_left_ne_nil (of_decide_eq_true hfirst) _)
    · intro hbetween
      rw [hbetween, List.append_nil]
  observes before a after hlog := by
    obtain ⟨s', hs, -, rfl⟩ := h.at hlog
    exact ⟨s'.shared.outlook, rfl, hs.observes⟩
  ends before o after hlog ho a hmem := by
    obtain ⟨between, rest, rfl⟩ := List.append_of_mem hmem
    rw [← List.cons_append, ← List.append_assoc] at hlog
    obtain ⟨s', hs, hallows, -⟩ := h.at hlog
    have hended : Log.Ended (before ++ (Call.read, Answer.observed o) :: between) :=
      ⟨o, ho, by simp⟩
    exact (hs.listening.mp hallows).2 hended
  serves := h.agrees.serves

/-- The second clone rolls back, and the commit of the first comes too late. -/
theorem History.once_rollback :
    Once [(.clone 0, .done), (.resolve 1 .rollback, .resolved (.ok ())),
        (.resolve 0 .keep, .resolved (.error .alreadyResolved)), (.ask 0, .asked true),
        (.read, .observed (.decided .rollback))]
      { shared := { clones := 2, decision := some .rollback, listening := false },
        held := [true, true] } :=
  ((((History.start.call (.clone 0) rfl).call (.resolve 1 .rollback) rfl).call
    (.resolve 0 .keep) rfl).call (.ask 0) rfl).call .read rfl |>.once

end States

end Prepared

end ManagementPlane
