import ManagementPlane.Operation.Basic

/-!
# Operation/Response — responses as values

A response is an object with an outcome, a result and, when it failed, a description of the
failure.  While an operation runs, each response is a `ResponseSlot` that its steps write into;
`ResponseSlot.toValue` renders it.
-/

namespace ManagementPlane

namespace Response

def success (result : Value) : Value :=
  .object [(Key.outcome, .string Key.success), (Key.result, result)]

def failure (description : Value) : Value :=
  .object [(Key.outcome, .string Key.failed), (Key.failureDescription, description)]

def isSuccess (response : Value) : Bool :=
  (response.get? Key.outcome).bind Value.asString? = some Key.success

/-- The text of the failure description, when there is one. -/
def failureText? (response : Value) : Option String :=
  match response.get? Key.failureDescription with
  | some v => if v.isDefined then some v.plain else none
  | none => none

/-- The result a response carries, undefined when it has none. -/
def result (response : Value) : Value := response.get Key.result

end Response

/-- A response under construction. -/
structure ResponseSlot where
  result : Value := .undefined
  failure : Option Value := none
  headers : Dict Value := []
  deriving Inhabited, Repr

namespace ResponseSlot

def isFailed (s : ResponseSlot) : Bool := s.failure.isSome

/-- The slot as a response.  A failed one shows its result only if it has one, and says
`rolled-back` when the operation was. -/
def toValue (s : ResponseSlot) (rolledBack : Bool) : Value :=
  let body : List (String × Value) := match s.failure with
    | some failure =>
      [(Key.outcome, Value.string Key.failed), (Key.failureDescription, failure)]
        ++ (if s.result.isDefined then [(Key.result, s.result)] else [])
        ++ (if rolledBack then [(Key.rolledBack, Value.boolean true)] else [])
    | none => [(Key.outcome, Value.string Key.success), (Key.result, s.result)]
  .object (body ++ if s.headers.isEmpty then [] else [(Key.responseHeaders, .object s.headers)])

def setHeader (s : ResponseSlot) (name : String) (v : Value) : ResponseSlot :=
  { s with headers := Dict.put s.headers name v }

/-- Records a failure; the first one stays. -/
def fail (s : ResponseSlot) (failure : Value) : ResponseSlot :=
  { s with failure := some (s.failure.getD failure) }

end ResponseSlot

end ManagementPlane
