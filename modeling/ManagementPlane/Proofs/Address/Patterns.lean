import Mathlib.Data.Fintype.EquivFin
import Mathlib.Order.Defs.Unbundled
import ManagementPlane.Address.Basic

/-!
# Proofs/Address/Patterns — covering is inclusion

A pattern stands for the concrete addresses that it covers.  `covers_is_inclusion` says that one
pattern covers another exactly when it covers all that the other stands for.

From left to right this is transitivity (`covers_trans`).  From right to left one address decides:
the wildcards of the second pattern are filled with a name that the first one does not mention
(`fill`).  Only a wildcard fits such a name, and it fits the wildcard that stood there as well
(`covers_of_covers_fill`); so there is no need to tell apart by what a pattern fails to cover
another, its length, a type or a name.
-/

namespace ManagementPlane

/-! ## One element -/

namespace Element

variable {p q e : Element} {v : String}

theorem fits_iff :
    p.fits e = true ↔ p.key = e.key ∧ (p.value = anyValue ∨ p.value = e.value) := by
  simp [fits, isWildcard]

theorem fits_self (e : Element) : e.fits e = true := fits_iff.mpr ⟨rfl, .inr rfl⟩

/-- A wildcard fits every element with its key. -/
theorem anyValue_fits (e : Element) : fits { e with value := anyValue } e = true :=
  fits_iff.mpr ⟨rfl, .inl rfl⟩

/-- What fits a pattern fits whatever the pattern fits. -/
theorem fits_trans (h : p.fits q = true) (h' : q.fits e = true) : p.fits e = true := by
  obtain ⟨hkey, hvalue⟩ := fits_iff.mp h
  obtain ⟨hkey', hvalue'⟩ := fits_iff.mp h'
  refine fits_iff.mpr ⟨hkey.trans hkey', hvalue.elim .inl fun hsame => ?_⟩
  exact hvalue'.imp hsame.trans hsame.trans

/-- Two elements that fit each other have one value, also when one of them is a wildcard: a name
does not fit a wildcard. -/
theorem fits_antisymm (h : p.fits e = true) (h' : e.fits p = true) : p = e := by
  obtain ⟨hkey, hvalue⟩ := fits_iff.mp h
  obtain ⟨-, hvalue'⟩ := fits_iff.mp h'
  have hsame : p.value = e.value := hvalue.elim
    (fun hp => hvalue'.elim (fun he => hp.trans he.symm) Eq.symm) id
  cases p
  cases e
  exact congrArg₂ Element.mk hkey hsame

/-- The element with the name `v` in the place of a wildcard. -/
def fill (v : String) (e : Element) : Element := if e.isWildcard then { e with value := v } else e

/-- Whatever a wildcard is filled with fits it. -/
theorem fits_fill (v : String) (e : Element) : e.fits (e.fill v) = true := by
  rw [fill]
  split
  · next hwildcard => exact fits_iff.mpr ⟨rfl, .inl (of_decide_eq_true hwildcard)⟩
  · exact fits_self e

/-- Filled with a name, an element is no wildcard. -/
theorem isWildcard_fill (hv : v ≠ anyValue) (e : Element) : (e.fill v).isWildcard = false := by
  rw [fill]
  split
  · exact decide_eq_false hv
  · next hnamed => exact Bool.eq_false_iff.mpr hnamed

/-- **Only a wildcard fits a name that it does not mention.** -/
theorem fits_of_fits_fill (hp : p.value ≠ v) (h : p.fits (e.fill v) = true) :
    p.fits e = true := by
  rw [fill] at h
  split at h
  · obtain ⟨hkey, hvalue⟩ := fits_iff.mp h
    exact fits_iff.mpr ⟨hkey, .inl (hvalue.resolve_right hp)⟩
  · exact h

end Element

namespace Address

variable {a b c : Address} {e p : Element} {v : String}

/-! ## The order of patterns -/

/-- Addresses are compared element by element. -/
theorem covers_cons_iff {es : Address} :
    covers (p :: a) (e :: es) = true ↔ p.fits e = true ∧ covers a es = true := by
  rw [covers, Bool.and_eq_true]

/-- Every pattern covers itself. -/
theorem covers_self (a : Address) : a.covers a = true := by
  induction a with
  | nil => rfl
  | cons e a ih => exact covers_cons_iff.mpr ⟨e.fits_self, ih⟩

/-- What is below a pattern is below whatever covers it. -/
theorem covers_trans (h : a.covers b = true) (h' : b.covers c = true) : a.covers c = true := by
  induction a generalizing b c with
  | nil => exact covers_root c
  | cons p a ih =>
    cases b with
    | nil => cases h
    | cons q b =>
      cases c with
      | nil => cases h'
      | cons e c =>
        obtain ⟨hfits, hrest⟩ := covers_cons_iff.mp h
        obtain ⟨hfits', hrest'⟩ := covers_cons_iff.mp h'
        exact covers_cons_iff.mpr ⟨Element.fits_trans hfits hfits', ih hrest hrest'⟩

/-- **Patterns that cover each other are one.** -/
theorem covers_antisymm (h : a.covers b = true) (h' : b.covers a = true) : a = b := by
  induction a generalizing b with
  | nil =>
    cases b with
    | nil => rfl
    | cons e b => cases h'
  | cons p a ih =>
    cases b with
    | nil => cases h
    | cons e b =>
      obtain ⟨hfits, hrest⟩ := covers_cons_iff.mp h
      obtain ⟨hfits', hrest'⟩ := covers_cons_iff.mp h'
      rw [Element.fits_antisymm hfits hfits', ih hrest hrest']

/-- A concrete address covers what it is a prefix of. -/
theorem covers_iff_prefix (ha : a.isConcrete = true) : covers a b = true ↔ a <+: b := by
  induction a generalizing b with
  | nil => simp [covers]
  | cons e a ih =>
    obtain ⟨he, hrest⟩ : e.isWildcard = false ∧ isConcrete a = true := by
      simpa [isConcrete, List.all_cons] using ha
    cases b with
    | nil => simp [covers]
    | cons e' b =>
      obtain ⟨k, v⟩ := e
      obtain ⟨k', v'⟩ := e'
      rw [covers, Bool.and_eq_true, ih hrest, List.cons_prefix_cons]
      simp [Element.fits, he]

/-! ## Patterns of the same length -/

/-- Every prefix covers, be it concrete or not. -/
theorem covers_of_prefix (h : a <+: b) : a.covers b = true := by
  induction a generalizing b with
  | nil => exact covers_root b
  | cons e a ih =>
    obtain ⟨c, rfl⟩ := h
    exact covers_cons_iff.mpr ⟨e.fits_self, ih (List.prefix_append a c)⟩

theorem covers_append_singleton (h : a.length = b.length) :
    covers (a ++ [p]) (b ++ [e]) = (covers a b && p.fits e) := by
  induction a generalizing b with
  | nil =>
    obtain rfl := List.eq_nil_of_length_eq_zero h.symm
    simp [covers]
  | cons q qs ih =>
    cases b with
    | nil => cases h
    | cons d ds => simp [covers, ih (Nat.succ.inj h), Bool.and_assoc]

theorem fits_iff : a.fits b = true ↔ a.covers b = true ∧ a.length = b.length := by
  rw [fits, Bool.and_eq_true, decide_eq_true_eq, and_comm]

/-- A pattern fits one element further if its new element does. -/
theorem fits_append_singleton (h : a.fits b = true) (he : p.fits e = true) :
    fits (a ++ [p]) (b ++ [e]) = true := by
  obtain ⟨hcovers, hlength⟩ := fits_iff.mp h
  refine fits_iff.mpr ⟨?_, by simp [hlength]⟩
  rw [covers_append_singleton hlength, hcovers, he, Bool.and_true]

/-- A pattern is as long as what fits it. -/
theorem length_of_fits (h : a.fits b = true) : a.length = b.length := (fits_iff.mp h).2

/-! ## What a pattern stands for -/

/-- The address with the name `v` in the place of every wildcard. -/
def fill (v : String) (a : Address) : Address := a.map (Element.fill v)

/-- Filled with a name, a pattern is concrete. -/
theorem isConcrete_fill (hv : v ≠ Element.anyValue) (a : Address) :
    (a.fill v).isConcrete = true := by
  rw [isConcrete, fill, List.all_map, List.all_eq_true]
  intro e _
  rw [Function.comp_apply, Element.isWildcard_fill hv, Bool.not_false]

/-- A pattern covers what it is filled to. -/
theorem covers_fill (v : String) (a : Address) : a.covers (a.fill v) = true := by
  induction a with
  | nil => rfl
  | cons e a ih => exact covers_cons_iff.mpr ⟨e.fits_fill v, ih⟩

/-- **Filling with a name that `a` does not mention** brings nothing under `a` that was not
there. -/
theorem covers_of_covers_fill (ha : ∀ p ∈ a, p.value ≠ v) (h : a.covers (b.fill v) = true) :
    a.covers b = true := by
  induction a generalizing b with
  | nil => exact covers_root b
  | cons p a ih =>
    cases b with
    | nil => cases h
    | cons e b =>
      obtain ⟨hp, ha⟩ := List.forall_mem_cons.mp ha
      obtain ⟨hfits, hrest⟩ := covers_cons_iff.mp h
      exact covers_cons_iff.mpr ⟨Element.fits_of_fits_fill hp hfits, ih ha hrest⟩

/-- There is always a name that a pattern does not mention. -/
theorem exists_unmentioned (a : Address) :
    ∃ v, v ≠ Element.anyValue ∧ ∀ p ∈ a, p.value ≠ v := by
  obtain ⟨v, hv⟩ :=
    Infinite.exists_notMem_finset (Element.anyValue :: a.map Element.value).toFinset
  rw [List.mem_toFinset, List.mem_cons, not_or] at hv
  exact ⟨v, hv.1, fun p hp hname => hv.2 (hname ▸ List.mem_map_of_mem hp)⟩

/-- **Containment of patterns is inclusion** of the concrete addresses below them: to fill the
covered pattern with an unmentioned name is the test that decides it. -/
theorem covers_iff_included : a.covers b = true ↔
    ∀ c : Address, c.isConcrete = true → b.covers c = true → a.covers c = true := by
  refine ⟨fun h c _ hc => covers_trans h hc, fun h => ?_⟩
  obtain ⟨v, hwildcard, hv⟩ := a.exists_unmentioned
  exact covers_of_covers_fill hv (h (b.fill v) (isConcrete_fill hwildcard b) (covers_fill v b))

/-- **Covering is inclusion.**

* A pattern covers another when it covers every concrete address that the other covers.
* It fits the other when, besides, both are of one length.
* So covering is a partial order: patterns that stand for the same addresses are equal.
* And between concrete addresses it is the order of prefixes. -/
theorem covers_is_inclusion :
    (∀ a b : Address, a.covers b = true ↔
      ∀ c : Address, c.isConcrete = true → b.covers c = true → a.covers c = true) ∧
    (∀ a b : Address, a.fits b = true ↔
      (∀ c : Address, c.isConcrete = true → b.covers c = true → a.covers c = true) ∧
        a.length = b.length) ∧
    IsPartialOrder Address (fun a b => a.covers b = true) ∧
    ∀ a b : Address, a.isConcrete = true → b.isConcrete = true →
      (a.covers b = true ↔ a <+: b) := by
  refine ⟨fun a b => covers_iff_included, fun a b => ?_, ?_,
    fun a b ha _ => covers_iff_prefix ha⟩
  · rw [fits_iff, covers_iff_included]
  · exact { refl := covers_self, trans := fun _ _ _ => covers_trans,
            antisymm := fun _ _ => covers_antisymm }

/-- All servers, one server, and an item of any server. -/
theorem covers_is_inclusion_servers :
    (∀ c : Address, c.isConcrete = true → covers [⟨"server", "*"⟩, ⟨"item", "a"⟩] c = true →
      covers [⟨"server", "*"⟩] c = true) ∧
    (∃ c : Address, c.isConcrete = true ∧ covers [⟨"server", "*"⟩] c = true ∧
      covers [⟨"server", "s"⟩] c = false) ∧
    (covers [⟨"server", "s"⟩] [⟨"server", "s"⟩, ⟨"item", "a"⟩] = true ↔
      [⟨"server", "s"⟩] <+: [(⟨"server", "s"⟩ : Element), ⟨"item", "a"⟩]) := by
  obtain ⟨hincluded, -, -, hprefix⟩ := covers_is_inclusion
  refine ⟨(hincluded _ _).mp (by decide), ?_, hprefix _ _ (by decide) (by decide)⟩
  have hnot : ¬ covers [⟨"server", "s"⟩] [⟨"server", "*"⟩] = true := by decide
  rw [hincluded] at hnot
  simp only [not_forall] at hnot
  obtain ⟨c, hconcrete, hunder, hmissed⟩ := hnot
  exact ⟨c, hconcrete, hunder, Bool.eq_false_iff.mpr hmissed⟩

end Address

end ManagementPlane
