import ManagementPlane.Proofs.Model.ThreeWay
import ManagementPlane.Registration.Lookup
import ManagementPlane.Resource.Populate

/-!
# Proofs/Model/Conformance — models that keep to their registration

A model conforms to a registration (`Resource.Conforms`) when every resource stands at an address
that the registration answers for here, and the node of that address allows what the resource
stores and misses nothing of it (`Registration.Fits`).  Conformance goes from the top of the model
down, so that a part that is moved to another model takes its conformance along.

Whatever writes to a model puts in one part or changes one node, and `Conforms.modifyAt` says what
that asks for.  A merge asks for nothing but the conformance of the two sides
(`Merge.conforms_merge`), wherever the base of the two was.
-/

namespace ManagementPlane

namespace AttributeEntry

variable {entry : AttributeEntry}

/-- A value that may be stored for the attribute. -/
def Allows (entry : AttributeEntry) (v : Value) : Prop :=
  v.isDefined = true ∧ entry.definition.check v = .ok ()

/-- The attribute is required, and there is no default for it. -/
def IsRequired (entry : AttributeEntry) : Prop :=
  entry.definition.nillable = false ∧ entry.definition.default = none

/-- The attribute is required of what is stored; a metric is computed and never stored. -/
def IsStored (entry : AttributeEntry) : Prop := entry.access ≠ .metric ∧ entry.IsRequired

end AttributeEntry

/-- A definition that lets a value be missing does not require it. -/
theorem AttributeDefinition.isDefined_of_check {d : AttributeDefinition} {v : Value}
    (h : d.check v = .ok ()) (hrequired : d.nillable = false ∧ d.default = none) :
    v.isDefined = true := by
  by_contra hv
  rw [check.eq_def, if_pos (by simpa using hv), hrequired.1, hrequired.2, if_neg (by decide)] at h
  cases h

/-! ## The attributes of one resource -/

namespace Registration

variable {node : Registration} {demands : AttributeEntry → Prop} {attributes : Dict Value}
  {name : String}

/-- Every attribute is one of the node's and holds a value that this one allows, and none that is
demanded is missing. -/
structure Fits (demands : AttributeEntry → Prop) (node : Registration) (attributes : Dict Value) :
    Prop where
  registered : ∀ p ∈ attributes, ∃ entry, Dict.get? node.attributes p.1 = some entry ∧
    entry.Allows p.2
  demanded : ∀ name entry, Dict.get? node.attributes name = some entry → demands entry →
    Dict.has attributes name = true

theorem Fits.put (h : node.Fits demands attributes) {entry : AttributeEntry}
    (hentry : Dict.get? node.attributes name = some entry) {v : Value} (hv : entry.Allows v) :
    node.Fits demands (Dict.put attributes name v) where
  registered p hp := by
    rcases Dict.mem_of_mem_put hp with rfl | hp
    · exact ⟨entry, hentry, hv⟩
    · exact h.registered p hp
  demanded other entry' hother hdemands := by
    rw [Dict.has, Dict.get?_put]
    split
    · rfl
    · exact h.demanded other entry' hother hdemands

theorem Fits.erase (h : node.Fits demands attributes)
    (hname : ∀ entry, Dict.get? node.attributes name = some entry → ¬ demands entry) :
    node.Fits demands (Dict.erase attributes name) where
  registered p hp := h.registered p (Dict.mem_of_mem_erase hp)
  demanded other entry hother hdemands := by
    have hne : name ≠ other := by
      rintro rfl
      exact hname entry hother hdemands
    rw [Dict.has, Dict.get?_erase_ne attributes hne]
    exact h.demanded other entry hother hdemands

end Registration

namespace Resource

variable {demands : AttributeEntry → Prop} {reg : Registration} {a b : Address}
  {r n c : Resource}

/-- **The model below an address conforms**: each of its resources stands where the registration
answers here, with the attributes that it has there. -/
inductive Conforms (demands : AttributeEntry → Prop) (reg : Registration) :
    Address → Resource → Prop
  | intro {a : Address} {r : Resource} {node : Registration} (found : reg.findLocal a = .ok node)
      (fits : node.Fits demands r.attributes)
      (children : ∀ g ∈ r.children, ∀ c ∈ g.2, Conforms demands reg (a ++ [⟨g.1, c.1⟩]) c.2) :
    Conforms demands reg a r

theorem Conforms.mem_group (h : r.Conforms demands reg a) {type : String}
    {c : String × Resource} (hc : c ∈ r.group type) :
    c.2.Conforms demands reg (a ++ [⟨type, c.1⟩]) := by
  obtain ⟨-, -, hchildren⟩ := h
  obtain ⟨g, hg, hc⟩ := Dict.exists_of_mem_group hc
  exact hchildren _ hg c hc

theorem Conforms.child? (h : r.Conforms demands reg a) {e : Element} (hc : r.child? e = some c) :
    c.Conforms demands reg (a ++ [e]) := h.mem_group (Dict.mem_of_get? hc)

theorem Conforms.navigate? (h : r.Conforms demands reg a) (hn : r.navigate? b = some n) :
    n.Conforms demands reg (a ++ b) := by
  induction b generalizing a r with
  | nil =>
    obtain rfl := Option.some.inj hn
    rwa [List.append_nil]
  | cons e b ih =>
    obtain ⟨c, hc, hn⟩ := Option.bind_eq_some_iff.mp hn
    have := ih (h.child? hc) hn
    rwa [List.append_assoc] at this

theorem Conforms.putChild (h : r.Conforms demands reg a) {e : Element}
    (hc : c.Conforms demands reg (a ++ [e])) : (r.putChild e c).Conforms demands reg a := by
  obtain ⟨hfound, hfits, hchildren⟩ := h
  refine ⟨hfound, hfits, fun g hg x hx => ?_⟩
  obtain ⟨htype, rfl⟩ | ⟨h, hh, hx⟩ := mem_of_mem_putChild hg hx
  · rw [htype]
    exact hc
  · exact hchildren _ hh x hx

theorem Conforms.removeChild (h : r.Conforms demands reg a) (e : Element) :
    (r.removeChild e).Conforms demands reg a := by
  obtain ⟨hfound, hfits, hchildren⟩ := h
  rw [← attributes_removeChild r e] at hfits
  refine ⟨hfound, hfits, fun g hg x hx => ?_⟩
  obtain ⟨h, hh, hx⟩ := mem_of_mem_removeChild hg hx
  exact hchildren _ hh x hx

/-- Other attributes conform when the node allows them. -/
theorem Conforms.of_fits (h : n.Conforms demands reg a) {node : Registration}
    (hnode : reg.findLocal a = .ok node) {m : Resource} (hm : m.children = n.children)
    (hfits : node.Fits demands m.attributes) : m.Conforms demands reg a := by
  obtain ⟨-, -, hchildren⟩ := h
  exact ⟨hnode, hfits, hm ▸ hchildren⟩

/-- **A change at an address** conforms when what it makes of the resource there does. -/
theorem Conforms.modifyAt (h : r.Conforms demands reg a) {f : Resource → Resource}
    (hf : ∀ n, r.navigate? b = some n → (f n).Conforms demands reg (a ++ b)) :
    (Resource.modifyAt b f r).Conforms demands reg a := by
  induction b generalizing a r with
  | nil =>
    have := hf r rfl
    rwa [List.append_nil] at this
  | cons e b ih =>
    cases hc : r.child? e with
    | none => simpa only [Resource.modifyAt, hc] using h
    | some c =>
      simp only [Resource.modifyAt, hc]
      refine h.putChild (ih (h.child? hc) fun n hn => ?_)
      rw [List.append_assoc]
      exact hf n (by rw [Resource.navigate?, hc]; exact hn)

end Resource

/-! ## New resources -/

namespace Registration

/-- The attributes that an `add` takes are those of the node, metrics apart. -/
structure Takes (node : Registration) (attributes : List AttributeDefinition) : Prop where
  distinct : (attributes.map (·.name)).Nodup
  registered : ∀ d ∈ attributes, ∃ entry, Dict.get? node.attributes d.name = some entry ∧
    entry.definition = d ∧ entry.access ≠ .metric
  complete : ∀ name entry, Dict.get? node.attributes name = some entry →
    entry.access ≠ .metric → entry.definition ∈ attributes ∧ entry.definition.name = name

end Registration

namespace Resource

variable {operation : Value} {ds : List AttributeDefinition} {pairs : List (String × Value)}

theorem populatedAttributes_cons {d : AttributeDefinition}
    (h : populatedAttributes operation (d :: ds) = .ok pairs) :
    d.check (operation.get d.name) = .ok () ∧ ∃ rest, populatedAttributes operation ds = .ok rest ∧
      pairs = if (operation.get d.name).isDefined then (d.name, operation.get d.name) :: rest
        else rest := by
  rw [populatedAttributes] at h
  cases hcheck : d.check (operation.get d.name) with
  | error e =>
    rw [hcheck] at h
    cases h
  | ok =>
    rw [hcheck] at h
    cases hrest : populatedAttributes operation ds with
    | error e =>
      rw [hrest] at h
      cases h
    | ok rest =>
      rw [hrest] at h
      exact ⟨rfl, rest, rfl, (Except.ok.inj h).symm⟩

/-- Each attribute of a new resource has passed its definition. -/
theorem mem_populatedAttributes (h : populatedAttributes operation ds = .ok pairs) :
    ∀ p ∈ pairs, ∃ d ∈ ds, p.1 = d.name ∧ p.2.isDefined = true ∧ d.check p.2 = .ok () := by
  induction ds generalizing pairs with
  | nil =>
    obtain rfl := Except.ok.inj h
    rintro _ ⟨⟩
  | cons d ds ih =>
    obtain ⟨hcheck, rest, hrest, rfl⟩ := populatedAttributes_cons h
    have hlater : ∀ p ∈ rest, ∃ d' ∈ d :: ds, p.1 = d'.name ∧ p.2.isDefined = true ∧
        d'.check p.2 = .ok () := by
      intro p hp
      obtain ⟨d', hd', hp⟩ := ih hrest p hp
      exact ⟨d', List.mem_cons_of_mem _ hd', hp⟩
    split
    · rename_i hdefined
      exact List.forall_mem_cons.mpr ⟨⟨d, List.mem_cons_self, rfl, hdefined, hcheck⟩, hlater⟩
    · exact hlater

/-- A new resource misses nothing that is required of it. -/
theorem mem_keys_populatedAttributes (h : populatedAttributes operation ds = .ok pairs) :
    ∀ d ∈ ds, d.nillable = false ∧ d.default = none → d.name ∈ Dict.keys pairs := by
  induction ds generalizing pairs with
  | nil => rintro _ ⟨⟩
  | cons d ds ih =>
    obtain ⟨hcheck, rest, hrest, rfl⟩ := populatedAttributes_cons h
    refine List.forall_mem_cons.mpr ⟨fun hrequired => ?_, fun d' hd' hrequired => ?_⟩
    · rw [if_pos (AttributeDefinition.isDefined_of_check hcheck hrequired)]
      exact List.mem_cons_self
    · have hkey := ih hrest d' hd' hrequired
      split
      · exact List.mem_cons_of_mem _ hkey
      · exact hkey

/-- **A new resource conforms** where the node of its address is the one that it is made for. -/
theorem conforms_populate {attributes : List AttributeDefinition} {node : Registration}
    (hnode : reg.findLocal a = .ok node) (htakes : node.Takes attributes)
    (h : populate attributes operation = .ok r) : r.Conforms AttributeEntry.IsStored reg a := by
  rw [populate] at h
  cases hpairs : populatedAttributes operation attributes with
  | error e =>
    rw [hpairs] at h
    cases h
  | ok pairs =>
    rw [hpairs] at h
    obtain rfl := Except.ok.inj h
    refine ⟨hnode, ⟨fun p hp => ?_, fun name entry hentry hdemands => ?_⟩, by rintro _ ⟨⟩⟩
    · obtain ⟨d, hd, hname, hp⟩ := mem_populatedAttributes hpairs p (Dict.mem_of_mem_ofList hp)
      obtain ⟨entry, hentry, rfl, -⟩ := htakes.registered d hd
      exact ⟨entry, hname ▸ hentry, hp⟩
    · obtain ⟨hmem, rfl⟩ := htakes.complete name entry hentry hdemands.1
      exact Dict.has_ofList (mem_keys_populatedAttributes hpairs _ hmem hdemands.2)

end Resource

/-! ## Merging -/

namespace Merge

variable {demands : AttributeEntry → Prop} {reg : Registration} {base staged root root' : Resource}
  {node : Registration}

/-- Merged attributes fit when those of the two sides do: what takes their place was staged, and
what goes away is not demanded, for the staged side does without it. -/
theorem fits_mergeAttributes {before after n n' : Resource} {names : List String}
    (hafter : node.Fits demands after.attributes) (hn : node.Fits demands n.attributes)
    (h : mergeAttributes before after names n = some n') :
    node.Fits demands n'.attributes ∧ n'.children = n.children := by
  induction names generalizing n with
  | nil =>
    obtain rfl := Option.some.inj h
    exact ⟨hn, rfl⟩
  | cons name names ih =>
    rw [mergeAttributes] at h
    split at h
    · exact ih hn h
    · split at h
      · cases h
      · split at h
        · rename_i v hv
          obtain ⟨entry, hentry, hallows⟩ := hafter.registered _ (Dict.mem_of_get? hv)
          have hnext : node.Fits demands (n.setAttribute name v).attributes :=
            hn.put hentry hallows
          obtain ⟨hfits, hchildren⟩ := ih hnext h
          exact ⟨hfits, hchildren⟩
        · rename_i hnone
          have hnext : node.Fits demands (n.removeAttribute name).attributes := by
            refine hn.erase fun entry hentry hdemands => ?_
            have hhas := hafter.demanded name entry hentry hdemands
            rw [Dict.has, show Dict.get? after.attributes name = none from hnone] at hhas
            cases hhas
          obtain ⟨hfits, hchildren⟩ := ih hnext h
          exact ⟨hfits, hchildren⟩

/-- One write, brought onto a model that conforms. -/
theorem conforms_applyWrite (hstaged : staged.Conforms demands reg [])
    (hroot : root.Conforms demands reg []) {w : Write}
    (h : applyWrite base staged root w = some root') : root'.Conforms demands reg [] := by
  cases w with
  | update a =>
    rw [applyWrite] at h
    split at h
    · rename_i before after _ hafter
      obtain ⟨n, n', hn, hmerge, rfl⟩ := changeAt_eq_some h
      refine hroot.modifyAt fun m hm => ?_
      obtain rfl := Option.some.inj (hn.symm.trans hm)
      have hn' := hroot.navigate? hn
      have hafter' := hstaged.navigate? hafter
      obtain ⟨hfound, hfits, -⟩ := hafter'
      have hhere := hn'
      obtain ⟨hfound', hfits', -⟩ := hn'
      obtain rfl := Except.ok.inj (hfound.symm.trans hfound')
      obtain ⟨hmerged, hchildren⟩ := fits_mergeAttributes hfits hfits' hmerge
      exact hhere.of_fits hfound hchildren hmerged
    · exact Option.some.inj h ▸ hroot
  | create a =>
    by_cases ha : a = []
    · subst ha
      cases h
    · rcases applyWrite_create ha h with ⟨-, rfl⟩ | ⟨p, e, n, c, rfl, hn, -, hc, rfl⟩
      · exact hroot
      · exact hroot.modifyAt fun m hm => (hroot.navigate? hm).putChild (hstaged.navigate? hc)
  | remove a =>
    by_cases ha : a = []
    · subst ha
      cases h
    · rcases applyWrite_remove ha h with ⟨-, rfl⟩ | ⟨p, e, n, was, now, rfl, hn, -, -, -, rfl⟩
      · exact hroot
      · exact hroot.modifyAt fun m hm => (hroot.navigate? hm).removeChild e

/-- **A merge of conforming models conforms**, whatever they started from and whatever the log
says. -/
theorem conforms_merge (hstaged : staged.Conforms demands reg [])
    (hroot : root.Conforms demands reg []) {log : List Write}
    (h : merge root base staged log = .ok root') : root'.Conforms demands reg [] := by
  rw [merge] at h
  generalize log.filter (!Write.isCarried log ·) = ws at h
  induction ws generalizing root with
  | nil =>
    obtain rfl := Except.ok.inj h
    exact hroot
  | cons w ws ih =>
    rw [applyWrites] at h
    split at h
    · rename_i next hnext
      exact ih (conforms_applyWrite hstaged hroot hnext) h
    · cases h

end Merge

end ManagementPlane
