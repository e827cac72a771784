import Mathlib.Data.List.Infix
import ManagementPlane.Proofs.Model.Equality

/-!
# Proofs/Value/Paths — writing at the ends of paths

A write at the end of a path changes what is found there and below, and nothing that is found at a
path that leads elsewhere (`getPath?_setPath_of_apart`).  Where the path was there before, the
objects that it passes keep their keys (`keys_getPath?_setPath`).  So many writes at places that lie
apart replace what is at these places, each by its own value, and nothing else
(`replaced_replaceAll`).
-/

namespace ManagementPlane

theorem Dict.isSome_get?_iff {α : Type} {d : Dict α} {k : String} :
    (get? d k).isSome = true ↔ k ∈ keys d := by
  rw [← not_iff_not, Bool.not_eq_true, Option.isSome_eq_false_iff, Option.isNone_iff_eq_none,
    get?_eq_none_iff]

namespace Value

variable {v w : Value} {key other : String} {path q : List String}

theorem setPath_cons (v : Value) (key : String) (path : List String) (w : Value) :
    v.setPath (key :: path) w = v.update key fun u => u.setPath path w := rfl

theorem get?_update (v : Value) (key other : String) (f : Value → Value) :
    (v.update key f).get? other = if key = other then some (f (v.get key)) else v.get? other := by
  rw [update, get?, fields, Dict.get?_put]
  rfl

theorem keys_update (h : (v.get? key).isSome = true) (f : Value → Value) :
    (v.update key f).keys = v.keys := by
  rw [update, keys, fields, Dict.keys_put, if_pos (Dict.isSome_get?_iff.mp h)]
  rfl

theorem getPath?_cons (v : Value) (key : String) (path : List String) :
    v.getPath? (key :: path) = (v.get? key).bind (getPath? · path) := rfl

/-- What was written is found. -/
@[simp] theorem getPath?_setPath_self (v : Value) (path : List String) (w : Value) :
    (v.setPath path w).getPath? path = some w := by
  induction path generalizing v with
  | nil => rfl
  | cons key path ih =>
    rw [setPath_cons, getPath?_cons, get?_update, if_pos rfl, Option.bind_some, ih]

theorem getPath?_get (v : Value) (key : String) (h : path ≠ []) :
    (v.get key).getPath? path = (v.get? key).bind (getPath? · path) := by
  rw [get]
  cases v.get? key with
  | some u => rfl
  | none =>
    cases path with
    | nil => exact absurd rfl h
    | cons => rfl

/-- Neither path leads past the other. -/
def Apart (path q : List String) : Prop := ¬path <+: q ∧ ¬q <+: path

theorem Apart.symm (h : Apart path q) : Apart q path := And.symm h

/-- **What lies apart stays.** -/
theorem getPath?_setPath_of_apart (h : Apart path q) (v w : Value) :
    (v.setPath path w).getPath? q = v.getPath? q := by
  induction path generalizing v q with
  | nil => exact absurd List.nil_prefix h.1
  | cons key path ih =>
    cases q with
    | nil => exact absurd List.nil_prefix h.2
    | cons other q =>
      rw [setPath_cons, getPath?_cons, getPath?_cons, get?_update]
      by_cases hkey : key = other
      · subst hkey
        have hrest : Apart path q := by simpa [Apart] using h
        have hne : q ≠ [] := by
          rintro rfl
          exact hrest.2 List.nil_prefix
        rw [if_pos rfl, Option.bind_some, ih hrest, getPath?_get v key hne]
      · rw [if_neg hkey]

/-- **A place that is there keeps the keys around it.** -/
theorem keys_getPath?_setPath (hpath : (v.getPath? path).isSome = true) (h : ¬path <+: q)
    (w : Value) : ((v.setPath path w).getPath? q).map keys = (v.getPath? q).map keys := by
  induction path generalizing v q with
  | nil => exact absurd List.nil_prefix h
  | cons key path ih =>
    rw [getPath?_cons] at hpath
    obtain ⟨u, hu⟩ := Option.isSome_iff_exists.mp (Option.isSome_of_isSome_bind hpath)
    cases q with
    | nil => simp [setPath_cons, getPath?, keys_update (Option.isSome_of_mem hu)]
    | cons other q =>
      rw [setPath_cons, getPath?_cons, getPath?_cons, get?_update]
      by_cases hkey : key = other
      · subst hkey
        rw [hu] at hpath
        have hget : v.get key = u := by rw [get, hu]; rfl
        rw [if_pos rfl, Option.bind_some, hget, hu]
        exact ih hpath (by simpa using h)
      · rw [if_neg hkey]

/-! ## Many places -/

/-- Writes values at their places, one after another. -/
def replaceAll (v : Value) (parts : List (List String × Value)) : Value :=
  parts.foldl (fun v part => v.setPath part.1 part.2) v

/-- **The values at some places are replaced**, each by its own, and nothing else is. -/
structure Replaced (v : Value) (parts : List (List String × Value)) (w : Value) : Prop where
  /-- At each place stands its new value. -/
  placed : ∀ part ∈ parts, w.getPath? part.1 = some part.2
  /-- What lies apart from all places is as it was. -/
  apart : ∀ q, (∀ part ∈ parts, Apart part.1 q) → w.getPath? q = v.getPath? q
  /-- Whatever is not below a place has the keys that it had, in their order. -/
  keys : ∀ q, (∀ part ∈ parts, ¬part.1 <+: q) → (w.getPath? q).map keys = (v.getPath? q).map keys

/-- **Writing at places that lie apart** replaces what is there, and nothing else. -/
theorem replaced_replaceAll {parts : List (List String × Value)}
    (hapart : (parts.map Prod.fst).Pairwise Apart)
    (hplaces : ∀ part ∈ parts, (v.getPath? part.1).isSome = true) :
    v.Replaced parts (v.replaceAll parts) := by
  induction parts generalizing v with
  | nil => exact ⟨by simp, fun _ _ => rfl, fun _ _ => rfl⟩
  | cons part parts ih =>
    obtain ⟨hpart, hapart⟩ := List.pairwise_cons.mp hapart
    obtain ⟨hplace, hplaces⟩ := List.forall_mem_cons.mp hplaces
    have hothers : ∀ other ∈ parts, Apart part.1 other.1 := fun other hother =>
      hpart _ (List.mem_map_of_mem hother)
    have hrest := ih hapart (v := v.setPath part.1 part.2) fun other hother => by
      rw [getPath?_setPath_of_apart (hothers other hother)]
      exact hplaces other hother
    constructor
    · refine List.forall_mem_cons.mpr ⟨?_, hrest.placed⟩
      exact (hrest.apart _ fun other hother => (hothers other hother).symm).trans
        (getPath?_setPath_self _ _ _)
    · intro q hq
      obtain ⟨hhere, hq⟩ := List.forall_mem_cons.mp hq
      exact (hrest.apart q hq).trans (getPath?_setPath_of_apart hhere _ _)
    · intro q hq
      obtain ⟨hhere, hq⟩ := List.forall_mem_cons.mp hq
      exact (hrest.keys q hq).trans (keys_getPath?_setPath hplace hhere _)

end Value

end ManagementPlane
