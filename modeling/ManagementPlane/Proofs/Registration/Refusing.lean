import ManagementPlane.Registration.Lookup

/-!
# Proofs/Registration/Refusing — what refuses an operation is an ordinary failure

Parsing, resolving and checking an operation stop with failures that become a response
(`OperationError.Ordinary`): none of them ends an operation without one.
-/

namespace ManagementPlane

namespace OperationError

/-- What fails, fails with an ordinary failure. -/
def Ordinary {α : Type} (out : Except OperationError α) : Prop :=
  ∀ e, out = .error e → e.isFatal = false

variable {α β : Type}

theorem ordinary_ok (x : α) : Ordinary (.ok x) := by rintro _ ⟨⟩

/-- A failure that is not fatal is an ordinary one. -/
theorem ordinary_error {e : OperationError} (h : e.isFatal = false) :
    Ordinary (.error e : Except OperationError α) := by
  rintro _ ⟨⟩
  exact h

/-- Checks made one after the other fail ordinarily if each of them does. -/
theorem Ordinary.bind {out : Except OperationError α} {f : α → Except OperationError β}
    (h : Ordinary out) (hf : ∀ x, Ordinary (f x)) : Ordinary (out >>= f) := by
  cases out with
  | error e => exact ordinary_error (h e rfl)
  | ok x => exact hf x

/-- So does a check that is made for every item of a list. -/
theorem ordinary_mapM {f : α → Except OperationError β} (hf : ∀ x, Ordinary (f x)) (l : List α) :
    Ordinary (l.mapM f) := by
  induction l with
  | nil => exact ordinary_ok _
  | cons x l ih =>
    rw [List.mapM_cons]
    exact (hf x).bind fun y => ih.bind fun ys => ordinary_ok _

end OperationError

open OperationError

/-- A segment that misses its key or its value is refused. -/
theorem Element.ordinary_ofText (s : List Char) : Ordinary (ofText s) := by
  rw [ofText]
  split
  · exact ordinary_error rfl
  · exact ordinary_ok _

/-- An element in the structured form is refused unless it is one field, a type with a value, or a
pair of strings. -/
theorem Element.ordinary_ofValue (v : Value) : Ordinary (ofValue v) := by
  rw [ofValue.eq_def]
  dsimp only
  split
  · exact ordinary_ok _
  · split
    · split
      · exact ordinary_ok _
      · exact ordinary_error rfl
    · exact ordinary_error rfl
  · split
    · exact ordinary_ok _
    · exact ordinary_error rfl
  · exact ordinary_error rfl

/-- An address is refused for one of its elements, or because it is neither a text nor a list. -/
theorem Address.ordinary_ofValue (v : Value) : Ordinary (ofValue v) := by
  rw [ofValue.eq_def]
  split
  · exact ordinary_ok _
  · exact ordinary_mapM Element.ordinary_ofText _
  · exact ordinary_mapM Element.ordinary_ofValue _
  · exact ordinary_error rfl

/-- **An operation that cannot be parsed** is refused: its name is missing, or its address is
malformed or has a wildcard. -/
theorem Operation.ordinary_parse (operation : Value) : Ordinary (parse operation) := by
  rw [parse]
  split
  · split
    · exact ordinary_error rfl
    · refine (Address.ordinary_ofValue _).bind fun a => ?_
      split
      · exact ordinary_ok _
      · exact ordinary_error rfl
  · exact ordinary_error rfl

/-- **An operation that does not resolve** is refused: nothing is registered at the address, or
not under the name. -/
theorem Registration.ordinary_resolve (r : Registration) (a : Address) (name : String) :
    Ordinary (r.resolve a name) := by
  rw [resolve]
  split
  · exact ordinary_ok _
  · split
    · exact ordinary_error rfl
    · split
      · exact ordinary_error rfl
      · exact ordinary_ok _

namespace AttributeDefinition

/-- A value is refused for its type, its length, or because it is none of the allowed ones. -/
theorem ordinary_checkScalar (d : AttributeDefinition) (v : Value) :
    Ordinary (d.checkScalar v) := by
  have hallowed : Ordinary (if (d.allowed.isEmpty || d.allowed.any (· == v)) = true then pure ()
      else throw (invalidParameter d.name (v.render ++ " is not one of the allowed values"))) := by
    split
    · exact ordinary_ok _
    · exact ordinary_error rfl
  rw [checkScalar]
  split
  · dsimp only
    split
    · split
      · exact ordinary_error rfl
      · exact hallowed
    · exact hallowed
  · exact ordinary_error rfl

mutual

/-- A value is refused because it is missing, by itself, or for one of its fields. -/
theorem ordinary_check (d : AttributeDefinition) (v : Value) : Ordinary (d.check v) := by
  match d with
  | ⟨name, type, description, nillable, minLength, default, allowed, fields⟩ =>
    rw [check]
    split
    · split
      · exact ordinary_ok _
      · exact ordinary_error rfl
    · refine (ordinary_checkScalar _ v).bind fun _ => ?_
      split
      · refine (ordinary_checkFields fields v).bind fun _ => ?_
        split
        · exact ordinary_error rfl
        · exact ordinary_ok _
      · exact ordinary_ok _

/-- Fields are checked in the order of their declaration, and the first that is refused refuses
them all. -/
theorem ordinary_checkFields (declared : List (String × AttributeDefinition)) (v : Value) :
    Ordinary (checkFields declared v) := by
  match declared with
  | [] => exact ordinary_ok _
  | (key, d) :: rest =>
    rw [checkFields]
    exact (ordinary_check d (v.get key)).bind fun _ => ordinary_checkFields rest v

end

end AttributeDefinition

/-- **An operation with wrong parameters** is refused, whichever of them is wrong and however
deep. -/
theorem OperationDefinition.ordinary_check (d : OperationDefinition) (operation : Value) :
    Ordinary (d.check operation) := by
  rw [check]
  split
  · exact ordinary_error rfl
  · exact AttributeDefinition.ordinary_checkFields _ _

end ManagementPlane
