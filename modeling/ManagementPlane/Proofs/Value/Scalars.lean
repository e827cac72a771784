import ManagementPlane.Value.Parser
import ManagementPlane.Value.Printer

/-!
# Proofs/Value/Scalars — a string and an integer are read back from their text

Readers stop by themselves, so each statement has the text that follows in it: a **string** ends at
its closing quote whatever comes after (`stringBody_quoted`), an **integer** ends where no character
could continue a number (`EndsNumber`, `number?_integerChars`).  Both ends of the 64 bits are
included: the digits of `2 ^ 63` still fit the significand, and only the sign decides whether they
are an integer.
-/

namespace ManagementPlane

/-! ## Digits -/

namespace Numeral

/-- A number is at least as large as what it begins with. -/
theorem le_foldl_digits (acc : Nat) (ds : List Nat) :
    acc ≤ ds.foldl (fun n d => n * 10 + d) acc := by
  induction ds generalizing acc with
  | nil => exact Nat.le_refl _
  | cons d ds ih => exact Nat.le_trans (by omega) (ih (acc * 10 + d))

/-- Digits that stay within the limit are all gathered. -/
theorem gather_eq {limit acc : Nat} {ds : List Nat}
    (h : ds.foldl (fun n d => n * 10 + d) acc ≤ limit) :
    gather limit acc ds = (ds.foldl (fun n d => n * 10 + d) acc, ds.length) := by
  induction ds generalizing acc with
  | nil => rfl
  | cons d ds ih =>
    have hd : acc * 10 + d ≤ limit := Nat.le_trans (le_foldl_digits _ ds) h
    rw [gather, if_pos hd, ih h]
    rfl

/-- A number of digits alone is a whole one. -/
theorem meaning_whole {negative : Bool} {ds : List Nat} {n : Nat}
    (h : ds.foldl (fun n d => n * 10 + d) 0 = n) (hn : n ≤ significandLimit) :
    meaning ⟨negative, ds, none, none⟩ = wholeMeaning negative n := by
  subst h
  simp [meaning, gather_eq hn]

end Numeral

namespace Value

/-! ## Strings -/

theorem hexValue?_digitChar : ∀ n < 16, hexValue? (Nat.digitChar n) = some n := by decide

/-- A hexadecimal digit reads back. -/
theorem hexValue?_hexDigit (n : Nat) : hexValue? (hexDigit n) = some (n % 16) :=
  hexValue?_digitChar _ (Nat.mod_lt _ (by decide))

/-- The two last digits of `\u00..` give the number of a character below 256. -/
theorem hex4?_hexDigit {n : Nat} (h : n < 0x100) :
    hex4? '0' '0' (hexDigit (n / 16)) (hexDigit n) = some n := by
  have h₀ : hexValue? '0' = some 0 := rfl
  have hn : n / 16 % 16 * 16 + n % 16 = n := by omega
  simp [hex4?, h₀, hexValue?_hexDigit, hn]

/-- **A character reads back**, escaped or not. -/
theorem stringBody_escape (c : Char) (t : List Char) :
    stringBody none (escape c ++ t) = consRead c (stringBody none t) := by
  rw [escape]
  split
  · next h => rw [h]; rfl
  split
  · next h => rw [h]; rfl
  split
  · next hc =>
    split
    · next h => rw [show c = '\x08' from Char.toNat_inj.mp h]; rfl
    split
    · next h => rw [show c = '\x0c' from Char.toNat_inj.mp h]; rfl
    split
    · next h => rw [h]; rfl
    split
    · next h => rw [h]; rfl
    split
    · next h => rw [h]; rfl
    have hhigh : isHighSurrogate c.toNat = false := by simp [isHighSurrogate]; omega
    have hlow : isLowSurrogate c.toNat = false := by simp [isLowSurrogate]; omega
    simp [stringBody, hex4?_hexDigit (show c.toNat < 0x100 by omega), hhigh, hlow]
  · next hquote hslash hc =>
    rw [List.singleton_append, stringBody]
    · simp [hc, hslash]
    · exact hquote
    · exact fun _ _ _ _ _ h => absurd h hslash
    · exact fun _ _ h => absurd h hslash

/-- A text reads back up to its closing quote. -/
theorem stringBody_escaped (cs rest : List Char) :
    stringBody none (cs.flatMap escape ++ '"' :: rest) = some (cs, rest) := by
  induction cs with
  | nil => rfl
  | cons c cs ih => rw [List.flatMap_cons, List.append_assoc, stringBody_escape, ih, consRead]

/-- **A string is read back**, whatever its characters are. -/
theorem stringBody_quoted (s : String) (rest : List Char) :
    ∃ t, quoted s ++ rest = '"' :: t ∧ stringBody none t = some (s.toList, rest) :=
  ⟨s.toList.flatMap escape ++ '"' :: rest, by simp [quoted], stringBody_escaped _ _⟩

/-! ## Integers -/

/-- Whether a character may go on a number that was begun. -/
def continuesNumber (c : Char) : Bool := c.isDigit || c = '.' || c = 'e' || c = 'E'

/-- A number that stands in front of `rest` ends there. -/
def EndsNumber (rest : List Char) : Prop := ∀ c ∈ rest.head?, continuesNumber c = false

/-- Digits are read as far as they go. -/
theorem digits_append {cs rest : List Char} (hcs : ∀ c ∈ cs, c.isDigit = true)
    (hrest : EndsNumber rest) : digits (cs ++ rest) = (cs.map digitValue, rest) := by
  rw [digits, List.takeWhile_append_of_pos hcs, List.dropWhile_append_of_pos hcs]
  cases rest with
  | nil => simp
  | cons c rest =>
    have hc : c.isDigit = false := by
      have := hrest c rfl
      simp [continuesNumber] at this
      exact this.1.1.1
    simp [hc]

/-- Where the number ends there is no fraction. -/
theorem fractionPart?_of_ends {rest : List Char} (h : EndsNumber rest) :
    fractionPart? rest = some (none, rest) := by
  cases rest with
  | nil => rfl
  | cons c rest =>
    have hc := h c rfl
    rw [fractionPart?]
    rintro r ⟨⟩
    simp [continuesNumber] at hc

/-- Nor is there an exponent. -/
theorem exponentPart?_of_ends {rest : List Char} (h : EndsNumber rest) :
    exponentPart? rest = some (none, rest) := by
  cases rest with
  | nil => rfl
  | cons c rest =>
    have hc := h c rfl
    rw [exponentPart?]
    all_goals
      rintro r ⟨⟩
      simp [continuesNumber] at hc

theorem wholePart?_of_digits {s rest : List Char} {d : Nat} {ds : List Nat}
    (h : digits s = (d :: ds, rest)) (hd : d ≠ 0 ∨ ds = []) :
    wholePart? s = some (d :: ds, rest) := by
  cases ds with
  | nil => rw [wholePart?, h]
  | cons d' ds =>
    have hd₀ : d ≠ 0 := by simpa using hd
    obtain ⟨d, rfl⟩ := Nat.exists_eq_succ_of_ne_zero hd₀
    rw [wholePart?, h]
    rfl

/-- The digits of a number do not start with a zero unless it is one. -/
theorem exists_cons_toDigits (n : Nat) :
    ∃ c cs, Nat.toDigits 10 n = c :: cs ∧ (digitValue c ≠ 0 ∨ cs = []) := by
  induction n using Nat.strongRecOn with
  | ind n ih =>
    by_cases hn : n < 10
    · exact ⟨_, [], Nat.toDigits_of_lt_base hn, Or.inr rfl⟩
    · obtain ⟨c, cs, hcs, hc⟩ := ih (n / 10) (by omega)
      refine ⟨c, cs ++ [Nat.digitChar (n % 10)], ?_, Or.inl fun h₀ => ?_⟩
      · rw [Nat.toDigits_of_base_le (by decide) (by omega), hcs, List.cons_append]
      · obtain rfl : cs = [] := hc.resolve_left (not_not_intro h₀)
        -- a single digit is worth the number itself, and `n / 10` is not zero
        have hvalue := Nat.ofDigitChars_toDigits (b := 10) (n := n / 10) (by decide) (by decide)
        rw [hcs, Nat.ofDigitChars_eq_foldl] at hvalue
        simp only [List.foldl_cons, List.foldl_nil] at hvalue
        rw [digitValue] at h₀
        omega

theorem digitChars_eq (n : Nat) : Decimal.digitChars n = Nat.toDigits 10 n := by
  rw [Decimal.digitChars, Nat.toString_eq_repr, Nat.toList_repr]

theorem isDigit_of_mem_digitChars {n : Nat} {c : Char} (h : c ∈ Decimal.digitChars n) :
    c.isDigit = true :=
  Nat.isDigit_of_mem_toDigits (by decide) (Nat.le_refl 10) (digitChars_eq n ▸ h)

/-- The digits of a number read back. -/
theorem wholePart?_digitChars (n : Nat) {rest : List Char} (h : EndsNumber rest) :
    wholePart? (Decimal.digitChars n ++ rest) =
      some ((Decimal.digitChars n).map digitValue, rest) := by
  have hread := digits_append (fun _ => isDigit_of_mem_digitChars (n := n)) h
  obtain ⟨c, cs, hcs, hc⟩ := exists_cons_toDigits n
  rw [digitChars_eq, hcs] at hread ⊢
  exact wholePart?_of_digits hread (hc.imp_right fun h => by rw [h, List.map_nil])

/-- And they mean the number. -/
theorem foldl_digitChars (n : Nat) :
    ((Decimal.digitChars n).map digitValue).foldl (fun n d => n * 10 + d) 0 = n := by
  rw [digitChars_eq, List.foldl_map]
  simpa [Nat.ofDigitChars_eq_foldl, digitValue, Nat.mul_comm] using
    Nat.ofDigitChars_toDigits (b := 10) (n := n) (by decide) (by decide)

/-- The numeral that an integer is written as. -/
theorem numeral?_integerChars (i : Int) {rest : List Char} (h : EndsNumber rest) :
    numeral? (integerChars i ++ rest) =
      some (⟨decide (i < 0), (Decimal.digitChars i.natAbs).map digitValue, none, none⟩, rest) := by
  rw [integerChars]
  split
  · next hi =>
    simp [numeral?, wholePart?_digitChars _ h, fractionPart?_of_ends h, exponentPart?_of_ends h, hi]
  · next hi =>
    rw [numeral?]
    · simp [wholePart?_digitChars _ h, fractionPart?_of_ends h, exponentPart?_of_ends h, hi]
    · intro r hr
      -- a digit comes first, so no sign does
      obtain ⟨c, cs, hcs, -⟩ := exists_cons_toDigits i.natAbs
      have hc : c.isDigit = true :=
        isDigit_of_mem_digitChars (n := i.natAbs) (by rw [digitChars_eq, hcs]; exact .head _)
      rw [digitChars_eq, hcs, List.cons_append, List.cons.injEq] at hr
      rw [hr.1] at hc
      exact absurd hc (by decide)

/-- **An integer is read back**, at both ends of its 64 bits too. -/
theorem number?_integerChars (i : Int64) {rest : List Char} (h : EndsNumber rest) :
    number? (integerChars i.toInt ++ rest) = some (integer i, rest) := by
  have hlow := i.le_toInt
  have hhigh := i.toInt_lt
  have hsize : i.toInt.natAbs ≤ Numeral.significandLimit := by
    rw [Numeral.significandLimit, UInt64.size]
    omega
  have hmeaning :
      Numeral.wholeMeaning (decide (i.toInt < 0)) i.toInt.natAbs = .integer i.toInt := by
    have hpow : twoPow 63 = 2 ^ 63 := rfl
    rw [Numeral.wholeMeaning, hpow]
    split
    · next hneg =>
      have := of_decide_eq_true hneg
      rw [if_neg (by omega)]
      congr 1
      omega
    · next hneg =>
      have := of_decide_eq_false (Bool.eq_false_iff.mpr hneg)
      rw [if_pos (by omega)]
      congr 1
      omega
  rw [number?, numeral?_integerChars _ h]
  simp [Numeral.meaning_whole (foldl_digitChars _) hsize, hmeaning, ofMeaning?]

end Value

end ManagementPlane
