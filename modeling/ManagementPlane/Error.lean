import ManagementPlane.Address.Basic
import ManagementPlane.Text.Duration

/-!
# Error — what can go wrong, and how it is worded

One inductive type per place that reports: running an operation, building a controller, deciding
on a prepared operation, talking to a controller over an exchange.  The wording of each is its
`message`.
-/

namespace ManagementPlane

/-- Why a step of an operation failed. -/
inductive OperationError
  | failed (text : String)
  | invalidAddress (what : String)
  | unknownAddress (address : Address)
  | unknownOperation (name : String) (address : Address)
  | resourceNotFound (address : Address)
  | duplicateResource (address : Address)
  | concurrentModification (address : Address)
  | missingParameter (name : String)
  | invalidParameter (name reason : String)
  | timeout (ms : Nat) (what : String)
  | cancelled
  | proxy (text : String)
  | contractViolation (text : String)
  deriving DecidableEq, Repr, Inhabited

namespace OperationError

/-- The name of the cause. -/
def kind : OperationError → String
  | failed .. => "Failed"
  | invalidAddress .. => "InvalidAddress"
  | unknownAddress .. => "UnknownAddress"
  | unknownOperation .. => "UnknownOperation"
  | resourceNotFound .. => "ResourceNotFound"
  | duplicateResource .. => "DuplicateResource"
  | concurrentModification .. => "ConcurrentModification"
  | missingParameter .. => "MissingParameter"
  | invalidParameter .. => "InvalidParameter"
  | timeout .. => "Timeout"
  | cancelled => "Cancelled"
  | proxy .. => "Proxy"
  | contractViolation .. => "ContractViolation"

def message : OperationError → String
  | failed text => text
  | invalidAddress what => "Invalid address: " ++ what
  | unknownAddress a => "No resource definition is registered for address " ++ a.text
  | unknownOperation name a =>
    "No operation named '" ++ name ++ "' exists at address " ++ a.text
  | resourceNotFound a => "Resource " ++ a.text ++ " does not exist"
  | duplicateResource a => "Duplicate resource " ++ a.text
  | concurrentModification a =>
    "Resource " ++ a.text ++ " was changed by a concurrent operation"
  | missingParameter name => "Missing required parameter '" ++ name ++ "'"
  | invalidParameter name reason => "Invalid value for '" ++ name ++ "': " ++ reason
  | timeout ms what => "Timed out after " ++ durationText ms ++ " waiting for " ++ what
  | cancelled => "Operation cancelled"
  | proxy text => "Proxied operation failed: " ++ text
  | contractViolation text => "Operation step contract violated: " ++ text

/-- A broken contract ends the operation without a response; all else is a failed response. -/
def isFatal : OperationError → Bool
  | contractViolation _ => true
  | _ => false

end OperationError

/-- Why an operation ended without a response. -/
inductive ExecutionError
  | accessDenied
  | fatal (reason : String)
  deriving DecidableEq, Repr, Inhabited

def ExecutionError.message : ExecutionError → String
  | accessDenied => "Access denied: the caller does not hold this controller's access token"
  | fatal reason => "Fatal failure executing operation: " ++ reason

/-- Why a registration was refused. -/
inductive RegistrationError
  | duplicateOperation (name : String) (address : Address)
  | duplicateAttribute (name : String) (address : Address)
  | duplicateSubModel (address : Address)
  | noSuchParent (address : Address)
  | proxyConflict (address : Address)
  | rootPattern
  deriving DecidableEq, Repr, Inhabited

def RegistrationError.message : RegistrationError → String
  | duplicateOperation name a =>
    "Operation '" ++ name ++ "' is already registered at " ++ a.text
  | duplicateAttribute name a =>
    "Attribute '" ++ name ++ "' is already registered at " ++ a.text
  | duplicateSubModel a => "A resource is already registered at " ++ a.text
  | noSuchParent a => "No resource is registered at parent address " ++ a.text
  | proxyConflict a =>
    "Address " ++ a.text ++ " is handled by a proxy and cannot be extended locally"
  | rootPattern => "The root resource cannot be registered as a sub-model"

/-- Why a decision on a prepared operation was not delivered. -/
inductive DecisionError
  | alreadyResolved
  | participantGone
  deriving DecidableEq, Repr, Inhabited

/-- The name of the cause. -/
def DecisionError.kind : DecisionError → String
  | alreadyResolved => "AlreadyResolved"
  | participantGone => "ParticipantGone"

/-- Why talking to a controller over an exchange failed. -/
inductive TransportError
  | actorClosed
  | actorDropped
  | unknownExchange (id : Nat)
  | exchangeClosed
  deriving DecidableEq, Repr, Inhabited

def TransportError.message : TransportError → String
  | actorClosed => "Controller actor closed"
  | actorDropped => "Controller actor dropped response channel"
  | unknownExchange id => "No prepared exchange " ++ toString id
  | exchangeClosed => "Exchange closed before the controller answered"

end ManagementPlane
