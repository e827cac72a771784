import ManagementPlane.Address.Basic
import ManagementPlane.Value.Basic

/-!
# Resource/Basic — one node of the model and everything below it

A resource holds its attributes and its children, grouped by type; attributes, types and names all
keep the order of insertion.  `navigate?` walks an address down, and `modifyAt` changes the node it
leads to and nothing beside the path.
-/

namespace ManagementPlane

/-- One node of a model. -/
structure Resource where
  attributes : List (String × Value) := []
  /-- The children of each type, by name. -/
  children : List (String × List (String × Resource)) := []
  deriving Inhabited, Repr

namespace Resource

def empty : Resource := {}

/-- A childless resource. -/
def ofAttributes (attributes : Dict Value) : Resource := { attributes }

def attribute? (r : Resource) (name : String) : Option Value := Dict.get? r.attributes name

def setAttribute (r : Resource) (name : String) (v : Value) : Resource :=
  { r with attributes := Dict.put r.attributes name v }

def removeAttribute (r : Resource) (name : String) : Resource :=
  { r with attributes := Dict.erase r.attributes name }

/-! ## Children -/

/-- The children of one type. -/
def group (r : Resource) (type : String) : Dict Resource := (Dict.get? r.children type).getD []

/-- The child of a type and a name. -/
def child? (r : Resource) (e : Element) : Option Resource := Dict.get? (r.group e.key) e.value

def hasChild (r : Resource) (e : Element) : Bool := (r.child? e).isSome

/-- The types that have a child. -/
def childTypes (r : Resource) : List String :=
  (r.children.filter fun (_, g) => !g.isEmpty).map Prod.fst

def childNames (r : Resource) (type : String) : List String := Dict.keys (r.group type)

/-- Adds a child, or replaces the one of that name where it stands. -/
def putChild (r : Resource) (e : Element) (child : Resource) : Resource :=
  { r with children := Dict.put r.children e.key (Dict.put (r.group e.key) e.value child) }

/-- Removes a child; a type that loses its last child goes with it. -/
def removeChild (r : Resource) (e : Element) : Resource :=
  match Dict.get? r.children e.key with
  | none => r
  | some g =>
    let rest := Dict.erase g e.value
    { r with
      children := if rest.isEmpty then Dict.erase r.children e.key
        else Dict.put r.children e.key rest }

/-! ## Along an address -/

/-- The node at an address, if every step of the way is there. -/
def navigate? (r : Resource) : Address → Option Resource
  | [] => some r
  | e :: es => (r.child? e).bind (navigate? · es)

/-- Changes the resource at an address; nothing changes when there is none. -/
def modifyAt : Address → (Resource → Resource) → Resource → Resource
  | [], f, r => f r
  | e :: es, f, r =>
    match r.child? e with
    | some c => r.putChild e (modifyAt es f c)
    | none => r

/-! ## Equality

Two resources agree when they hold the same attributes and the same children, in whatever
order. -/

mutual

/-- Equality of resources, up to the order of everything. -/
def same (a b : Resource) : Bool :=
  match a with
  | ⟨attributes, children⟩ =>
    (attributes.length == b.attributes.length && Value.fieldsIn attributes b.attributes)
      && (children.length == b.children.length && groupsIn children b.children)

/-- Whether each of the first groups is found, with equal children, among the second. -/
def groupsIn : List (String × List (String × Resource)) →
    List (String × List (String × Resource)) → Bool
  | [], _ => true
  | (type, g) :: rest, groups =>
    (match Dict.get? groups type with
      | some h => g.length == h.length && childrenIn g h
      | none => false) && groupsIn rest groups

def childrenIn : List (String × Resource) → List (String × Resource) → Bool
  | [], _ => true
  | (name, c) :: rest, others =>
    (match Dict.get? others name with
      | some d => same c d
      | none => false) && childrenIn rest others

end

instance : BEq Resource := ⟨same⟩

/-! ## Rendering

A resource is shown as an object of its attributes, followed by an object per child type.  A type
takes the place of an attribute of its name. -/

mutual

/-- The resource with everything below it. -/
def toDeepValue (r : Resource) : Value :=
  match r with
  | ⟨attributes, children⟩ => .object (deepGroups attributes children)

/-- Stores the rendered groups into the fields gathered so far. -/
def deepGroups (fields : Dict Value) : List (String × List (String × Resource)) → Dict Value
  | [] => fields
  | (type, g) :: rest => deepGroups (Dict.put fields type (.object (deepChildren g))) rest

def deepChildren : List (String × Resource) → Dict Value
  | [] => []
  | (name, c) :: rest => (name, toDeepValue c) :: deepChildren rest

end

/-- The resource alone, with the names of its children. -/
def toFlatValue (r : Resource) : Value :=
  .object (r.children.foldl
    (fun fields (type, g) =>
      Dict.put fields type (.object (g.map fun (name, _) => (name, Value.undefined))))
    r.attributes)

/-- The resource as a value, with its children or their names. -/
def toValue (r : Resource) (recursive : Bool) : Value :=
  if recursive then r.toDeepValue else r.toFlatValue

end Resource

end ManagementPlane
