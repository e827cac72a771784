import ManagementPlane.Proofs.Model.Density
import ManagementPlane.Proofs.Registration.Building

/-!
# Proofs/Registration/InPlace — registrations change the tree in place

A registration is made on the tree itself, which is there afterwards also when the call was refused.
Most calls look whether they are refused before they write anything.  A node is added otherwise: the
group of its type is opened before its name is looked up, and a proxy is put on the node when that
is there.  Nothing comes of it: a name that is taken has its group already (`openGroup_of_taken`),
so a refused call leaves the tree as it was (`Call.inPlace_eq`).
-/

namespace ManagementPlane

namespace Registration

variable {r node : Registration} {a : Address} {e : Element}

/-- What is there after a change that is checked before it is made. -/
def settle (r : Registration) (out : Except RegistrationError Registration) :
    Except RegistrationError Unit × Registration :=
  match out with
  | .ok new => (.ok (), new)
  | .error error => (.error error, r)

/-! ## Adding nodes -/

/-- Opens the group of a type, which stays as it is when there is one. -/
def openGroup (r : Registration) (type : String) : Registration :=
  { r with children := Dict.put r.children type (r.group type) }

/-- Adds a node in the group of its type, which is opened before the name is looked up. -/
def addNodeInPlace (e : Element) (description : String) (r : Registration) :
    Except RegistrationError Unit × Registration :=
  if r.isProxied then (.error (.proxyConflict r.address), r)
  else
    let address := r.address ++ [e]
    let opened := r.openGroup e.key
    if (opened.node? e).isSome then (.error (.duplicateSubModel address), opened)
    else (.ok (), opened.putNode e { address, description })

/-- Adds a node, and puts the proxy on it. -/
def addProxyInPlace (e : Element) (owner : Proxy) (r : Registration) :
    Except RegistrationError Unit × Registration :=
  match addNodeInPlace e ("Remote controller at " ++ e.text) r with
  | (.ok (), added) => (.ok (), match added.node? e with
    | some node => added.putNode e { node with proxy := some owner }
    | none => added)
  | refused => refused

theorem group_openGroup (r : Registration) (type : String) :
    (r.openGroup type).group type = r.group type := by
  rw [group, openGroup, Dict.get?_put_self]
  rfl

/-- A name that is taken has a group around it already. -/
theorem openGroup_of_taken (h : (r.node? e).isSome = true) : r.openGroup e.key = r := by
  cases hg : Dict.get? r.children e.key with
  | none =>
    rw [node?, group, hg] at h
    cases h
  | some g =>
    rw [openGroup, group, hg, Option.getD_some, Dict.put_of_get? hg]
    cases r
    rfl

theorem putNode_openGroup (r : Registration) (e : Element) (c : Registration) :
    (r.openGroup e.key).putNode e c = r.putNode e c := by
  rw [putNode, group_openGroup, openGroup, Dict.put_put]
  rfl

theorem putNode_putNode (r : Registration) (e : Element) (c d : Registration) :
    (r.putNode e c).putNode e d = r.putNode e d := by
  have hgroup : (r.putNode e c).group e.key = Dict.put (r.group e.key) e.value c := by
    rw [group, putNode, Dict.get?_put_self]
    rfl
  rw [putNode, hgroup, Dict.put_put, putNode, Dict.put_put]
  rfl

theorem addNodeInPlace_eq (e : Element) (description : String) (r : Registration) :
    addNodeInPlace e description r = r.settle (addNode e description none r) := by
  have hname : (r.openGroup e.key).node? e = r.node? e := by
    rw [node?, group_openGroup]
    rfl
  rw [addNodeInPlace, addNode]
  dsimp only
  rw [hname, putNode_openGroup]
  split
  · rfl
  · split
    · next htaken =>
      rw [openGroup_of_taken htaken]
      rfl
    · rfl

theorem addProxyInPlace_eq (e : Element) (owner : Proxy) (r : Registration) :
    addProxyInPlace e owner r =
      r.settle (addNode e ("Remote controller at " ++ e.text) (some owner) r) := by
  rw [addProxyInPlace, addNodeInPlace_eq, addNode, addNode]
  by_cases hproxied : r.isProxied = true
  · rw [if_pos hproxied, if_pos hproxied]
    rfl
  · rw [if_neg hproxied, if_neg hproxied]
    dsimp only
    by_cases htaken : (r.node? e).isSome = true
    · rw [if_pos htaken, if_pos htaken]
      rfl
    · rw [if_neg htaken, if_neg htaken, settle, settle]
      dsimp only
      rw [get?_putNode, if_pos rfl]
      dsimp only
      rw [putNode_putNode]

/-! ## Calls -/

namespace Call

/-- What a call does to its target. -/
def changeInPlace (node : Registration) : Call → Except RegistrationError Unit × Registration
  | subModel pattern description =>
    match pattern.getLast? with
    | none => (.error .rootPattern, node)
    | some e => addNodeInPlace e description node
  | proxy pattern owner =>
    match pattern.getLast? with
    | none => (.error .rootPattern, node)
    | some e => addProxyInPlace e owner node
  | operation _ entry => node.settle (addOperation entry node)
  | readOnly _ definition => node.settle (addAttribute { definition, access := .readOnly } node)
  | readWrite _ definition writer =>
    node.settle (addAttribute { definition, access := .readWrite, writer } node)
  | metric _ definition reader =>
    node.settle (addAttribute { definition, access := .metric, reader := some reader } node)
  | capability _ name => (.ok (), addCapability name node)

/-- What a call does to the tree. -/
def inPlace (r : Registration) (call : Call) : Except RegistrationError Unit × Registration :=
  match r.nodeAt? call.target with
  | none => (.error (.noSuchParent call.target), r)
  | some node =>
    ((call.changeInPlace node).1, replaceAt (call.changeInPlace node).2 call.target r)

theorem changeInPlace_eq (node : Registration) (call : Call) :
    call.changeInPlace node = node.settle (call.change node) := by
  cases call with
  | subModel pattern description =>
    rw [changeInPlace, change]
    cases pattern.getLast? with
    | none => rfl
    | some e => exact addNodeInPlace_eq e description node
  | proxy pattern owner =>
    rw [changeInPlace, change]
    cases pattern.getLast? with
    | none => rfl
    | some e => exact addProxyInPlace_eq e owner node
  | _ => rfl

end Call

/-- A node that is replaced by itself. -/
theorem replaceAt_self (h : r.nodeAt? a = some node) : replaceAt node a r = r := by
  induction a generalizing r with
  | nil => exact (Option.some.inj h).symm
  | cons e es ih =>
    obtain ⟨c, hc, h⟩ := Option.bind_eq_some_iff.mp h
    rw [replaceAt, hc]
    dsimp only
    rw [ih h, putNode, Dict.put_of_get? hc]
    exact openGroup_of_taken (Option.isSome_of_eq_some hc)

/-- **A call comes to the same in place**: it is accepted when it is, and a refused one leaves the
tree alone. -/
theorem Call.inPlace_eq (r : Registration) (call : Call) :
    call.inPlace r = ((call.run r).map fun _ => (), r.after call) := by
  have hafter : r.after call = (r.settle (call.run r)).2 := by
    cases hrun : call.run r with
    | ok new => exact after_of_ok hrun
    | error error => exact after_of_error hrun
  rw [hafter, inPlace, call.run_eq r, changeAt]
  cases hnode : r.nodeAt? call.target with
  | none => rfl
  | some node =>
    dsimp only
    rw [changeInPlace_eq]
    cases call.change node with
    | ok new => rfl
    | error error => exact Prod.ext rfl (replaceAt_self hnode)

end Registration

end ManagementPlane
