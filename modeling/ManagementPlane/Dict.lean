/-!
# Dict — string-keyed maps that remember insertion order

A `Dict` is a list of pairs.  Storing under a new key appends, storing under a present key replaces
the value where it stands, and erasing closes the gap.  **Reading back** is `get?_put`,
`get?_erase_ne`; the **order** of keys is `keys_put`.
-/

namespace ManagementPlane

/-- Pairs in insertion order; every operation below keeps the keys distinct. -/
abbrev Dict (α : Type) := List (String × α)

namespace Dict

variable {α β : Type}

/-- What the first entry of a key holds. -/
def get? : Dict α → String → Option α
  | [], _ => none
  | (k, v) :: d, key => if k = key then some v else get? d key

def has (d : Dict α) (key : String) : Bool := (get? d key).isSome

/-- Stores `v` under `key`: in place when the key is present, at the end otherwise. -/
def put : Dict α → String → α → Dict α
  | [], key, v => [(key, v)]
  | (k, w) :: d, key, v => if k = key then (k, v) :: d else (k, w) :: put d key v

/-- Removes `key`, keeping the order of the others. -/
def erase : Dict α → String → Dict α
  | [], _ => []
  | (k, v) :: d, key => if k = key then d else (k, v) :: erase d key

def keys (d : Dict α) : List String := d.map Prod.fst

def mapValues (f : α → β) (d : Dict α) : Dict β := d.map fun (k, v) => (k, f v)

/-- Stores pairs one after another. -/
def ofList (pairs : List (String × α)) : Dict α := pairs.foldl (fun d (k, v) => put d k v) []

/-! ## Reading back what was stored -/

@[simp] theorem get?_nil (key : String) : get? ([] : Dict α) key = none := rfl

/-- **What is found after an entry was put**: its value under its key, and what was there under
the others. -/
theorem get?_put (d : Dict α) (key other : String) (v : α) :
    get? (put d key v) other = if key = other then some v else get? d other := by
  induction d with
  | nil => simp [put, get?]
  | cons p d ih =>
    obtain ⟨k, w⟩ := p
    by_cases hk : k = key
    · subst hk
      by_cases ho : k = other <;> simp [put, get?, ho]
    · by_cases ho : k = other
      · subst ho
        simp [put, get?, hk, Ne.symm hk]
      · simp [put, get?, hk, ho, ih]

@[simp] theorem get?_put_self (d : Dict α) (key : String) (v : α) :
    get? (put d key v) key = some v := by simp [get?_put]

theorem get?_erase_ne (d : Dict α) {key other : String} (h : key ≠ other) :
    get? (erase d key) other = get? d other := by
  induction d with
  | nil => rfl
  | cons p d ih =>
    obtain ⟨k, w⟩ := p
    by_cases hk : k = key
    · subst hk
      simp [erase, get?, h]
    · rw [erase, if_neg hk, get?, get?, ih]

/-! ## Order -/

/-- A new key goes to the end, a present one stays where it is. -/
theorem keys_put (d : Dict α) (key : String) (v : α) :
    keys (put d key v) = if key ∈ keys d then keys d else keys d ++ [key] := by
  induction d with
  | nil => simp [put, keys]
  | cons p d ih =>
    obtain ⟨k, w⟩ := p
    by_cases hk : k = key
    · subst hk
      simp [put, keys]
    · have hk' : key ≠ k := Ne.symm hk
      simp only [keys] at ih
      by_cases hm : key ∈ d.map Prod.fst <;> simp [put, keys, hk, hk', hm] at ih ⊢ <;>
        simpa using ih

end Dict

end ManagementPlane
