import ManagementPlane.Declaration.Fields
import ManagementPlane.Host.Client

/-!
# Declaration/Request — requests of callers declared as values

A request names a method of a client.  Most methods are an operation together with what the caller
makes of its result; some only compute an address.
-/

namespace ManagementPlane

/-- What a caller makes of a result. -/
inductive Reading
  /-- Nothing but that it is there. -/
  | done
  | value
  | names
  | plain
  | metric
  | keepAlive
  deriving DecidableEq, Repr, Inhabited

inductive Request
  | address (a : Address)
  | operation (value : Value) (reading : Reading)
  deriving Inhabited, Repr

/-- The keep-alive under a key; the standard one when there is none that can be read. -/
def KeepAlive.declared (v : Value) (key : String) : KeepAlive :=
  match KeepAlive.ofValue (v.get key) with
  | .ok k => k
  | .error _ => KeepAlive.standard

def Control.declared (v : Value) : Control :=
  match v.textAt "control" with
  | "rollback" => .decide .rollback
  | "drop" => .announce []
  | "commit_then_rollback" => .announce [.keep, .rollback]
  | "rollback_then_commit" => .announce [.rollback, .keep]
  | _ => .decide .keep

def Sink.declared (v : Value) : Sink :=
  match v.textAt "messages" with
  | "discard" | "log" => .discard
  | _ => .collect

namespace Request

/-- A request that every controller serves. -/
def shared (v : Value) : Except OperationError Request := do
  let a ← Address.ofValue (v.get "at")
  let name := v.textAt "name"
  match v.textAt "method" with
  | "read_resource" => return .operation (Client.readResource a (v.flagAt "recursive")) .value
  | "read_attribute" => return .operation (Client.readAttribute a name) .value
  | "write_attribute" => return .operation (Client.writeAttribute a name (v.get "value")) .done
  | "read_children_names" => return .operation (Client.readChildrenNames a name) .names
  | "add" => return .operation (Client.add a (v.get "value")) .done
  | "remove" => return .operation (Client.remove a) .done
  | _ => return .operation (v.get "operation") .value

/-- A request to a host. -/
def declared (v : Value) : Except OperationError Request :=
  let name := v.textAt "name"
  let serverchild := v.textAt "serverchild"
  let child := v.textAt "child"
  match v.textAt "method" with
  | "add_profile" => .ok (.operation (Domain.addProfile name (v.textAt "value")) .done)
  | "profile_name" => .ok (.operation (Domain.readProfileName name) .plain)
  | "profiles" => .ok (.operation Domain.readProfiles .names)
  | "remove_profile" => .ok (.operation (Domain.removeProfile name) .done)
  | "read_everything" => .ok (.operation Domain.readEverything .value)
  | "on_server" => (Address.ofValue (v.get "at")).map fun a => .address (Domain.onServer a)
  | "profile_address" => .ok (.address (Domain.profileAddress name))
  | "child_value" => .ok (.operation (Server.readChildValue serverchild child) .value)
  | "set_child_value" =>
    .ok (.operation (Server.writeChildValue serverchild child (v.textAt "value")) .done)
  | "child_metric" => .ok (.operation (Server.readChildMetric serverchild child) .metric)
  | "child_address" => .ok (.address (Server.childAddress serverchild child))
  | "add_worker" =>
    .ok (.operation (Server.addWorker name ((v.get? "keepalive").map fun _ =>
      KeepAlive.declared v "keepalive")) .done)
  | "set_keepalive" =>
    .ok (.operation (Server.writeKeepAlive name (KeepAlive.declared v "keepalive")) .done)
  | "keepalive" => .ok (.operation (Server.readKeepAlive name) .keepAlive)
  | "remove_worker" => .ok (.operation (Server.removeWorker name) .done)
  | "worker_names" => .ok (.operation Server.readWorkerNames .names)
  | "worker_address" => .ok (.address (Server.workerAddress name))
  | _ => shared v

end Request

end ManagementPlane
