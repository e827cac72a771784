import ManagementPlane.Host.Client

/-!
# Proofs/Workers/KeepAlive — how much of a keep-alive its value form keeps

The time of a keep-alive is an unsigned number, and values hold signed ones.  So the value form
keeps a keep-alive exactly when its time is below 2⁶³ (`ofValue_toValue_iff`); the value of any
other one has a negative time and is refused.  Whatever is accepted, in any of the spellings of its
time and its unit, has such a time, and its value form means the same
(`ofValue_toValue_of_ofValue`).  The same limit holds for what clients send to the server, and for
what they read back from it (`survives_iff`).
-/

namespace ManagementPlane

theorem TimeUnit.ofName_name (u : TimeUnit) : ofName u.name = .ok u := by
  cases u <;> rfl

namespace KeepAlive

variable {k : KeepAlive} {v : Value}

theorem toInt64_neg_iff (time : UInt64) :
    time.toInt64 < 0 ↔ 9223372036854775808 ≤ time := by
  rw [Int64.lt_iff_toInt_lt, UInt64.le_iff_toNat_le]
  show time.toBitVec.toInt < 0 ↔ 9223372036854775808 ≤ time.toBitVec.toNat
  rw [BitVec.toInt_eq_toNat_cond]
  have hlt := time.toBitVec.isLt
  split <;> omega

/-- **The value of a keep-alive reads back as it**, or is refused for a negative time. -/
theorem ofValue_toValue (k : KeepAlive) : ofValue k.toValue =
    if k.time.toInt64 < 0 then .error (.invalidKeepAlive ("bad time in " ++ k.toValue.render))
    else .ok k := by
  have hunit : (TimeUnit.ofName k.unit.name).map (fun u => KeepAlive.mk k.time.toInt64.toUInt64 u) =
      .ok k := by
    rw [TimeUnit.ofName_name, UInt64.toUInt64_toInt64]
    rfl
  rw [← hunit]
  rfl

/-- **The value form keeps a keep-alive** exactly when its time is below 2⁶³. -/
theorem ofValue_toValue_iff : ofValue k.toValue = .ok k ↔ k.time < 9223372036854775808 := by
  rw [ofValue_toValue, ← UInt64.not_le, ← toInt64_neg_iff]
  split <;> simp [*]

theorem time_of_ofValue (h : ofValue v = .ok k) : ¬ k.time.toInt64 < 0 := by
  rw [ofValue] at h
  split at h
  · next time _ =>
    split at h
    · cases h
    · next hpos =>
      split at h
      · next unit _ =>
        cases hunit : TimeUnit.ofName unit with
        | error e =>
          rw [hunit] at h
          cases h
        | ok u =>
          rw [hunit] at h
          obtain rfl := Except.ok.inj h
          rwa [Int64.toInt64_toUInt64]
      · cases h
  · cases h

/-- **What was accepted is accepted again**, and means the same. -/
theorem ofValue_toValue_of_ofValue (h : ofValue v = .ok k) : ofValue k.toValue = .ok k := by
  rw [ofValue_toValue, if_neg (time_of_ofValue h)]

/-! ## On the way to the server and back -/

/-- The server takes from a value what the value means. -/
theorem keepAliveIn_toValue (name : String) (k : KeepAlive) :
    WorkerSteps.keepAliveIn name k.toValue = .ok k ↔ ofValue k.toValue = .ok k := by
  rw [WorkerSteps.keepAliveIn, if_pos (by rfl)]
  cases ofValue k.toValue <;> simp

theorem keepAliveOf_toValue (k : KeepAlive) :
    Server.keepAliveOf k.toValue = .ok k ↔ ofValue k.toValue = .ok k := by
  rw [Server.keepAliveOf]
  cases ofValue k.toValue <;> simp

/-- **A keep-alive survives its value form** exactly when its time is below 2⁶³: read back as it
is, taken by the server from what a client sends to add or to change a worker, and read back by a
client.  Every value that is accepted is written as one that is accepted and means the same. -/
theorem survives_iff (k : KeepAlive) :
    (ofValue k.toValue = .ok k ↔ k.time < 9223372036854775808) ∧
    (∀ name worker, WorkerSteps.keepAliveIn name
      ((Server.addWorker worker (some k)).get WorkerSteps.keepAliveKey) = .ok k ↔
        k.time < 9223372036854775808) ∧
    (∀ name worker, WorkerSteps.keepAliveIn name
      ((Server.writeKeepAlive worker k).get Key.value) = .ok k ↔ k.time < 9223372036854775808) ∧
    (Server.keepAliveOf k.toValue = .ok k ↔ k.time < 9223372036854775808) ∧
    ∀ v, ofValue v = .ok k → ofValue k.toValue = .ok k := by
  refine ⟨ofValue_toValue_iff, fun name worker => ?_, fun name worker => ?_, ?_,
    fun v => ofValue_toValue_of_ofValue⟩
  · exact (keepAliveIn_toValue name k).trans ofValue_toValue_iff
  · exact (keepAliveIn_toValue name k).trans ofValue_toValue_iff
  · exact (keepAliveOf_toValue k).trans ofValue_toValue_iff

/-- The longest keep-alive that survives. -/
theorem survives_longest : ofValue (KeepAlive.mk 9223372036854775807 .seconds).toValue =
    .ok (KeepAlive.mk 9223372036854775807 .seconds) :=
  (survives_iff (KeepAlive.mk 9223372036854775807 .seconds)).1.mpr (by decide)

/-- One second more is refused when it is read back. -/
theorem refused_beyond_longest : ofValue (KeepAlive.mk 9223372036854775808 .seconds).toValue =
    .error (.invalidKeepAlive
      "bad time in \x7b\"time\":-9223372036854775808,\"unit\":\"SECONDS\"\x7d") := by
  have htext : (KeepAlive.mk 9223372036854775808 .seconds).toValue.render =
      "\x7b\"time\":-9223372036854775808,\"unit\":\"SECONDS\"\x7d" := by decide +kernel
  rw [ofValue_toValue, if_pos (by decide), htext]
  rfl

end KeepAlive

end ManagementPlane
