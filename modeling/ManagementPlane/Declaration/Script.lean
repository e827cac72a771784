import ManagementPlane.Declaration.Definition
import ManagementPlane.Pipeline.Handler

/-!
# Declaration/Script — scripts declared as values

A script is a list of objects, one per instruction, each named by its field `do`.
-/

namespace ManagementPlane

def Severity.declared (v : Value) (key : String) : Severity :=
  match v.textAt key with
  | "warn" => .warn
  | "error" => .error
  | _ => .info

/-- The change that a script names. -/
def ProcessState.Change.ofName? : String → Option ProcessState.Change
  | "reload" => some .reload
  | "restart" => some .restart
  | "reset" => some .reset
  | _ => none

namespace Instruction

/-- An instruction, given the scripts that stand in its fields. -/
def declaredWith (body : String → Script) (v : Value) : Instruction :=
  let target := v.get? "at"
  let name := v.textAt "name"
  let value := v.get "value"
  let label := v.textAt "label"
  let text := v.textAt "text"
  match v.textAt "do" with
  | "set" => .set target name value
  | "unset" => .unset target name
  | "touch" => .touch target
  | "create" => .create target (Resource.declared (v.get "resource"))
  | "remove" => .remove target
  | "read" => .read target (v.flagAt "recursive")
  | "snapshot" => .snapshot
  | "acquire" => .acquire
  | "result" => .result value
  | "result_op" => .resultOperation
  | "result_path" => .resultPath (v.textsAt "path") value
  | "show_result" => .showResult
  | "header" => .header name value
  | "report" => .report { severity := Severity.declared v "severity", text }
  | "slot" => .slot label
  | "show_slot" => .showSlot label
  | "fail_slot" => .failSlot label value
  | "step" =>
    .step ((Stage.ofName? (v.textAt "stage")).getD .model) (body "script") (v.get? "op")
      (v.flagAt "first") (v.textAt? "slot")
  | "complete" => .complete label (body "then")
  | "on_rollback" => .onRollback label (body "then")
  | "rollback_only" => .rollbackOnly
  | "fail" => .fail (OperationError.declared v)
  | "try" => .attempt (body "script")
  | "wait" => .wait (v.countAt "ms") (v.textAt "what")
  | "nested" => .nested (v.get "operation")
  | "log" => .log text
  | "info" => .info
  | "settings" => .settings
  | "registration" => .operations
  | "input" => .input (v.countAt "index")
  | "stream" => .stream (v.textAt "mime") text (v.flagAt "result")
  | "cancel" => .cancel
  | "process" => .process (ProcessState.Change.ofName? (v.textAt "action"))
  | "note" => .note (v.textAt "key") value
  | "show_note" => .showNote (v.textAt "key")
  | other => .unknown other

def declaredTo : Nat → Value → Instruction
  | 0, v => declaredWith (fun _ => []) v
  | n + 1, v => declaredWith (fun key => (v.itemsAt key).map (declaredTo n)) v

/-- **The instruction that a value declares**, with whatever is nested in it. -/
def declared (v : Value) : Instruction := declaredTo v.depth v

end Instruction

/-- The script under a key. -/
def Script.declared (v : Value) (key : String) : Script :=
  (v.itemsAt key).map Instruction.declared

end ManagementPlane
