import ManagementPlane.Registration.Describe
import ManagementPlane.Registration.Global

/-!
# Global/Rendering — a resource as its registration shows it

`renderResource` shows the registered attributes of a resource with their defaults, and its
children by registered type.  Children that a proxy answers for come out undefined; where proxies
are followed, each of them leaves a `Delegation` that says whom to ask and where the answer goes.
`describedProxies` does the same for descriptions.
-/

namespace ManagementPlane

/-- A question to a proxy, and the path in the result where its answer belongs. -/
structure Delegation where
  proxy : Proxy
  operation : Value
  path : List String
  deriving Inhabited, Repr

/-- What a reader of a resource asked for. -/
structure ReadOptions where
  recursive : Bool
  proxies : Bool
  includeDefaults : Bool
  deriving DecidableEq, Repr, Inhabited

/-- A stored value, or else the default where defaults are wanted. -/
def AttributeEntry.shown (entry : AttributeEntry) (stored : Option Value)
    (includeDefaults : Bool) : Value :=
  match stored.filter Value.isDefined with
  | some v => v
  | none => if includeDefaults then .ofOption entry.definition.default else .undefined

/-- The attributes that are read from the model. -/
def Registration.storedAttributes (r : Registration) : List (String × AttributeEntry) :=
  r.attributes.filter fun (_, entry) => entry.access ≠ .metric

namespace Rendering

/-- The question that a recursive read puts to a proxied child. -/
def question (proxy : Proxy) (address : Address) (path : List String) (o : ReadOptions) :
    Delegation where
  proxy := proxy
  path := path
  operation :=
    (((Operation.build GlobalOperation.readResource.name address).set Key.recursive true).set
      Key.proxies true).set Key.includeDefaults o.includeDefaults

/-- The rendered children of a registered type. -/
def groupValue (rendered : List (String × Value × List Delegation)) : Value :=
  if rendered.isEmpty then .undefined
  else .object (rendered.map fun (name, v, _) => (name, v))

/-- The child types in the order of their registration, each with what was rendered of it. -/
def arrange (types : List String)
    (groups : Dict (List (String × Value × List Delegation))) (fields : Dict Value) :
    Value × List Delegation :=
  let group (type : String) := (Dict.get? groups type).getD []
  (.object (types.foldl (fun fields type => Dict.put fields type (groupValue (group type))) fields),
    types.flatMap fun type => (group type).flatMap fun (_, _, delegations) => delegations)

mutual

/-- The value of a resource at an address, and what is left to ask for below `path`. -/
def renderResource (o : ReadOptions) (r : Registration) (address : Address) (path : List String)
    (resource : Resource) : Value × List Delegation :=
  match resource with
  | ⟨attributes, children⟩ =>
    arrange r.childTypes (renderGroups o r address path children)
      (r.storedAttributes.foldl (fun fields (name, entry) =>
        Dict.put fields name (entry.shown (Dict.get? attributes name) o.includeDefaults)) [])

def renderGroups (o : ReadOptions) (r : Registration) (address : Address) (path : List String) :
    List (String × List (String × Resource)) →
    Dict (List (String × Value × List Delegation))
  | [] => []
  | (type, group) :: rest =>
    (type, renderChildren o r address path type group) :: renderGroups o r address path rest

def renderChildren (o : ReadOptions) (r : Registration) (address : Address) (path : List String)
    (type : String) : List (String × Resource) → List (String × Value × List Delegation)
  | [] => []
  | (name, child) :: rest =>
    let below := address ++ [⟨type, name⟩]
    let place := path ++ [type, name]
    (name, match r.child? ⟨type, name⟩ with
      | none => (.undefined, [])
      | some c =>
        match c.proxy with
        | some proxy =>
          (.undefined, if o.recursive && o.proxies then [question proxy below place o] else [])
        | none =>
          if o.recursive then renderResource o c below place child else (.undefined, []))
      :: renderChildren o r address path type rest

end

/-! ## Descriptions -/

/-- The question that a recursive description puts to a proxy. -/
def descriptionQuestion (proxy : Proxy) (path : List String) (operations : Bool) :
    Delegation where
  proxy := proxy
  path := path
  operation :=
    let question := Operation.build GlobalOperation.readResourceDescription.name proxy.node
    ((question.set Key.recursive true).set Key.operations operations).set Key.proxies true

mutual

/-- The proxies registered below a node, each with its place in the description of the node. -/
def describedProxies (operations : Bool) (path : List String) (r : Registration) :
    List Delegation :=
  match r with
  | ⟨_, _, _, _, _, children, _⟩ => groupProxies operations path children

def groupProxies (operations : Bool) (path : List String) :
    List (String × List (String × Registration)) → List Delegation
  | [] => []
  | (type, group) :: rest =>
    patternProxies operations (path ++ ["children", type, "model-description"]) group
      ++ groupProxies operations path rest

def patternProxies (operations : Bool) (path : List String) :
    List (String × Registration) → List Delegation
  | [] => []
  | (pattern, child) :: rest =>
    (match child.proxy with
      | some proxy => [descriptionQuestion proxy (path ++ [pattern]) operations]
      | none => describedProxies operations (path ++ [pattern]) child)
      ++ patternProxies operations path rest

end

/-- The description of a node with all operations that its address has, the inherited ones
included. -/
def describeWithInherited (root node : Registration) (address : Address)
    (recursive operations : Bool) : Value :=
  let description := node.describe recursive operations
  if operations then
    (root.operationNames address).foldl (fun d name =>
      if (d.getPath? [Key.operations, name]).isSome then d
      else match root.operation? address name with
        | some entry => d.setPath [Key.operations, name] entry.definition.describe
        | none => d) description
  else description

end Rendering

end ManagementPlane
