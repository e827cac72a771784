import ManagementPlane.Registration.Basic

/-!
# Registration/Lookup — from an address to what is registered for it

`lookup?` walks an address down the tree and answers the nodes it passes: a child registered under
the very name comes before the wildcard, and the walk ends at a proxy, which owns the rest of the
address.  `resolve` finds who runs an operation, `operationNames` lists what there is to run.
-/

namespace ManagementPlane

/-- Who runs an operation. -/
inductive Resolved
  | here (node : Registration) (entry : OperationEntry)
  | proxied (proxy : Proxy)
  deriving Inhabited, Repr

namespace Resolved

def handler : Resolved → Handler
  | here _ entry => entry.handler
  | proxied proxy => .forward proxy

/-- A forwarded operation leaves the model alone here. -/
def isReadOnly : Resolved → Bool
  | here _ entry => entry.definition.readOnly
  | proxied _ => true

/-- Checks the parameters of an operation; those of a forwarded one are checked where it runs. -/
def check (r : Resolved) (operation : Value) : Except OperationError Unit :=
  match r with
  | here _ entry => entry.definition.check operation
  | proxied _ => .ok ()

end Resolved

namespace Registration

/-- The child that an element leads to. -/
def child? (r : Registration) (e : Element) : Option Registration :=
  let group := r.group e.key
  (Dict.get? group e.value).or (Dict.get? group Element.anyValue)

/-- The nodes from the root to the one of an address, or to the first proxy. -/
def lookup? (r : Registration) : Address → Option (List Registration)
  | [] => some [r]
  | e :: es =>
    if r.isProxied then some [r]
    else (r.child? e).bind fun c => (lookup? c es).map (r :: ·)

/-- The node that an address leads to. -/
def find? (r : Registration) (a : Address) : Option Registration :=
  (r.lookup? a).bind List.getLast?

/-- The node of an address, unless a proxy answers for it. -/
def findLocal (r : Registration) (a : Address) : Except OperationError Registration :=
  match r.find? a with
  | some node => if node.isProxied then .error (.unknownAddress a) else .ok node
  | none => .error (.unknownAddress a)

/-- The proxy among the nodes of a path, with its position. -/
def firstProxy? : List Registration → Option (Nat × Proxy)
  | [] => none
  | node :: nodes =>
    match node.proxy with
    | some p => some (0, p)
    | none => (firstProxy? nodes).map fun (depth, p) => (depth + 1, p)

/-- The proxy that owns an address, with its position in the model. -/
def proxyFor? (r : Registration) (a : Address) : Option (Address × Proxy) :=
  ((r.lookup? a).bind firstProxy?).map fun (depth, p) => (a.take depth, p)

/-- The inherited operation of a name that is nearest to the end of a path. -/
def inherited? (name : String) : List Registration → Option OperationEntry
  | [] => none
  | node :: nodes =>
    (inherited? name nodes).or ((Dict.get? node.operations name).filter (·.inherited))

/-- The operation of a name at an address: its own one, or else the nearest inherited one. -/
def operation? (r : Registration) (a : Address) (name : String) : Option OperationEntry := do
  let nodes ← r.lookup? a
  let own ← nodes.getLast?
  (Dict.get? own.operations name).or (inherited? name nodes.dropLast)

/-- Who runs the operation of a name at an address. -/
def resolve (r : Registration) (a : Address) (name : String) : Except OperationError Resolved :=
  match r.proxyFor? a with
  | some (_, proxy) => .ok (.proxied proxy)
  | none =>
    match r.find? a with
    | none => .error (.unknownAddress a)
    | some node =>
      match r.operation? a name with
      | none => .error (.unknownOperation name a)
      | some entry => .ok (.here node entry)

/-- The list without later repetitions. -/
def distinct (names : List String) : List String :=
  names.foldl (fun seen name => if name ∈ seen then seen else seen ++ [name]) []

/-- The operations at the end of a path: those of the last node, then the inherited ones from the
nearest node outwards. -/
def namesAlong (nodes : List Registration) : List String :=
  match nodes.reverse with
  | [] => []
  | own :: outer =>
    distinct (Dict.keys own.operations
      ++ outer.flatMap fun node =>
        (node.operations.filter fun (_, entry) => entry.inherited).map Prod.fst)

/-- The operations that an address has, each name once. -/
def operationNames (r : Registration) (a : Address) : List String :=
  ((r.lookup? a).map namesAlong).getD []

def childTypes (r : Registration) : List String := Dict.keys r.children

end Registration

end ManagementPlane
