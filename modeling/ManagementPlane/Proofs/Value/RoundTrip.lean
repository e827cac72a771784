import Mathlib.Data.List.TakeWhile
import ManagementPlane.Declaration.Fields
import ManagementPlane.Proofs.Model.Equality
import ManagementPlane.Proofs.Value.Scalars

/-!
# Proofs/Value/RoundTrip — both texts of a value are read back as that value

A value without doubles, nested no deeper than the reader allows, is what its compact and its
indented text are read as, keys in their order; so printing what was read and reading it again
changes nothing (`printed_reads_back`).

The two printers differ in blanks alone, and the reader skips blanks.  So neither printer is
compared with the other: `Reads t v` says that the reader takes `t` for `v` wherever a number would
end behind it, `ReadsItems` and `ReadsFields` say the same of what stands between brackets, and each
printer is put together from their rules (`reads_chars`, `reads_prettyChars`).  In the other
direction the reader never builds what it could not read again: a repeated key replaces a value,
and every level opened is paid for (`Bounded`).
-/

namespace ManagementPlane

namespace Dict

variable {α : Type}

/-- A new key comes behind the others. -/
theorem put_of_notMem {d : Dict α} {k : String} (h : k ∉ keys d) (v : α) :
    put d k v = d ++ [(k, v)] := by
  induction d with
  | nil => rfl
  | cons p d ih =>
    obtain ⟨l, w⟩ := p
    obtain ⟨hl, hd⟩ : k ≠ l ∧ k ∉ keys d := by simpa [keys] using h
    rw [put, if_neg hl.symm, ih hd, List.cons_append]

/-- Storing fields with keys of their own appends them. -/
theorem foldl_put_of_nodup {d e : Dict α} (h : (keys (d ++ e)).Nodup) :
    e.foldl (fun d p => put d p.1 p.2) d = d ++ e := by
  induction e generalizing d with
  | nil => rw [List.append_nil]; rfl
  | cons p e ih =>
    obtain ⟨k, v⟩ := p
    have hk : k ∉ keys d := fun hk => by
      rw [keys, List.map_append, List.map_cons] at h
      exact (List.nodup_append.mp h).2.2 k hk k List.mem_cons_self rfl
    have happend : d ++ (k, v) :: e = d ++ [(k, v)] ++ e := by
      rw [List.append_assoc, List.singleton_append]
    rw [List.foldl_cons, put_of_notMem hk, ih (happend ▸ h), happend]

end Dict

namespace Value

theorem itemsDepth_le_iff {items : List Value} {n : Nat} :
    itemsDepth items ≤ n ↔ ∀ v ∈ items, v.depth ≤ n := by
  induction items with
  | nil => simp [itemsDepth]
  | cons v rest ih => rw [itemsDepth, Nat.max_le, ih, List.forall_mem_cons]

theorem fieldsDepth_le_iff {fields : List (String × Value)} {n : Nat} :
    fieldsDepth fields ≤ n ↔ ∀ p ∈ fields, p.2.depth ≤ n := by
  induction fields with
  | nil => simp [fieldsDepth]
  | cons p rest ih => rw [fieldsDepth, Nat.max_le, ih, List.forall_mem_cons]

/-- No number in the value is a double. -/
inductive Exact : Value → Prop
  | undefined : Exact .undefined
  | boolean (b : Bool) : Exact (.boolean b)
  | integer (i : Int64) : Exact (.integer i)
  | string (s : String) : Exact (.string s)
  | list {items : List Value} (each : ∀ v ∈ items, Exact v) : Exact (.list items)
  | object {fields : List (String × Value)} (each : ∀ p ∈ fields, Exact p.2) :
    Exact (.object fields)

/-! ## Blanks -/

def Blank (b : List Char) : Prop := ∀ c ∈ b, isBlank c = true

theorem blank_nil : Blank [] := fun _ h => absurd h List.not_mem_nil

/-- A line break with its indentation is blank. -/
theorem blank_lineBreak (depth : Nat) : Blank (lineBreak depth) := by
  intro c hc
  rcases List.mem_cons.mp hc with rfl | hc
  · rfl
  · rw [List.eq_of_mem_replicate hc]; rfl

/-- Blanks are skipped. -/
theorem skipBlanks_append {b : List Char} (hb : Blank b) (s : List Char) :
    skipBlanks (b ++ s) = skipBlanks s :=
  List.dropWhile_append_of_pos hb

theorem skipBlanks_cons {c : Char} (h : isBlank c = false) (s : List Char) :
    skipBlanks (c :: s) = c :: s :=
  List.dropWhile_cons_of_neg (by simp [h])

/-- A blank never continues a number, so only what stands behind the blanks counts. -/
theorem endsNumber_of_skipBlanks {s rest : List Char} {c : Char} (h : skipBlanks s = c :: rest)
    (hc : continuesNumber c = false) : EndsNumber s := by
  cases s with
  | nil => exact fun _ hd => absurd hd (by simp)
  | cons d s =>
    rintro d ⟨⟩
    by_cases hd : isBlank d = true
    · simp only [isBlank, Bool.or_eq_true, decide_eq_true_eq] at hd
      rcases hd with ((rfl | rfl) | rfl) | rfl <;> rfl
    · rw [skipBlanks_cons (by simpa using hd), List.cons.injEq] at h
      exact h.1 ▸ hc

/-- Blanks before a value do not matter. -/
theorem value?_append {b : List Char} (hb : Blank b) (fuel depth : Nat) (s : List Char) :
    value? fuel depth (b ++ s) = value? fuel depth s := by
  cases fuel with
  | zero => rw [value?, value?]
  | succ fuel => rw [value?, value?, skipBlanks_append hb]

/-- Blanks before items do not matter. -/
theorem items?_append {b : List Char} (hb : Blank b) (fuel depth : Nat) (s : List Char) :
    items? fuel depth (b ++ s) = items? fuel depth s := by
  cases fuel with
  | zero => rw [items?, items?]
  | succ fuel => rw [items?, items?, value?_append hb]

/-- Blanks before fields do not matter. -/
theorem fields?_append {b : List Char} (hb : Blank b) (fuel depth : Nat) (before : Dict Value)
    (s : List Char) : fields? fuel depth before (b ++ s) = fields? fuel depth before s := by
  cases fuel with
  | zero => rw [fields?, fields?]
  | succ fuel => rw [fields?, fields?, skipBlanks_append hb]

theorem exists_blank_append (s : List Char) : ∃ b, Blank b ∧ s = b ++ skipBlanks s :=
  ⟨s.takeWhile isBlank, fun _ => List.mem_takeWhile_imp, List.takeWhile_append_dropWhile.symm⟩

/-! ## What a text is read as -/

/-- The reader takes `t` for `v`, given the fuel that its length affords. -/
def Reads (t : List Char) (v : Value) : Prop :=
  ∀ ⦃fuel depth : Nat⦄ ⦃rest : List Char⦄, t.length < fuel → v.depth ≤ depth → EndsNumber rest →
    value? fuel depth (t ++ rest) = some (v, rest)

/-- The reader takes `t` for these items when a bracket closes them. -/
def ReadsItems (t : List Char) (items : List Value) : Prop :=
  ∀ ⦃fuel depth : Nat⦄ ⦃closing rest : List Char⦄, t.length + 1 < fuel →
    (∀ v ∈ items, v.depth ≤ depth) → skipBlanks closing = ']' :: rest →
    items? fuel depth (t ++ closing) = some (items, rest)

/-- The reader takes `t` for these fields when a brace closes them, and stores them in order. -/
def ReadsFields (t : List Char) (fields : List (String × Value)) : Prop :=
  ∀ ⦃fuel depth : Nat⦄ ⦃before : Dict Value⦄ ⦃closing rest : List Char⦄, t.length + 1 < fuel →
    (∀ p ∈ fields, p.2.depth ≤ depth) → skipBlanks closing = '\x7d' :: rest →
    fields? fuel depth before (t ++ closing) =
      some (fields.foldl (fun d p => Dict.put d p.1 p.2) before, rest)

/-- What reads back does so behind blanks. -/
theorem Reads.blank {b t : List Char} {v : Value} (h : Reads t v) (hb : Blank b) :
    Reads (b ++ t) v := by
  intro fuel depth rest hfuel hdepth hrest
  rw [List.append_assoc, value?_append hb]
  exact h (by rw [List.length_append] at hfuel; omega) hdepth hrest

/-! ## Lists -/

/-- The last item is followed by the closing bracket. -/
theorem Reads.last {t : List Char} {v : Value} (h : Reads t v) : ReadsItems t [v] := by
  intro fuel depth closing rest hfuel hdepth hclose
  obtain ⟨fuel, rfl⟩ : ∃ n, fuel = n + 1 := ⟨fuel - 1, by omega⟩
  have hends : EndsNumber closing := endsNumber_of_skipBlanks hclose rfl
  rw [items?, h (by omega) (hdepth v List.mem_cons_self) hends]
  simp only [hclose]

/-- Every other item is followed by a comma. -/
theorem Reads.cons {t ts : List Char} {v : Value} {vs : List Value} (h : Reads t v)
    (hs : ReadsItems ts vs) : ReadsItems (t ++ ',' :: ts) (v :: vs) := by
  intro fuel depth closing rest hfuel hdepth hclose
  rw [List.length_append, List.length_cons] at hfuel
  obtain ⟨fuel, rfl⟩ : ∃ n, fuel = n + 1 := ⟨fuel - 1, by omega⟩
  obtain ⟨hv, hvs⟩ := List.forall_mem_cons.mp hdepth
  have hcomma : skipBlanks (',' :: (ts ++ closing)) = ',' :: (ts ++ closing) :=
    skipBlanks_cons rfl _
  rw [List.append_assoc, List.cons_append, items?,
    h (by omega) hv (endsNumber_of_skipBlanks hcomma rfl)]
  simp only [hcomma, hs (show ts.length + 1 < fuel by omega) hvs hclose, Option.map_some]

/-- What items are read from does not start with the closing bracket. -/
theorem not_closed_of_items {fuel depth : Nat} {s rest : List Char} {vs : List Value}
    (h : items? fuel depth s = some (vs, rest)) (t : List Char) : skipBlanks s ≠ ']' :: t := by
  intro hs
  match fuel with
  | 0 => simp [items?] at h
  | 1 => simp [items?, value?] at h
  | fuel + 2 =>
    have hv : value? (fuel + 1) depth s = none := by
      rw [value?, hs]
      rfl
    rw [items?, hv] at h
    simp at h

/-- An opening bracket begins a list, one level deeper. -/
theorem value?_list {fuel depth : Nat} {s rest : List Char} {vs : List Value}
    (h : items? fuel depth s = some (vs, rest)) :
    value? (fuel + 1) (depth + 1) ('[' :: s) = some (list vs, rest) := by
  rw [value?, skipBlanks_cons rfl]
  simp only
  split
  · next hs => exact absurd hs (not_closed_of_items h _)
  · obtain ⟨b, hb, hs⟩ := exists_blank_append s
    rw [hs, items?_append hb] at h
    rw [h]; rfl

/-- Items are read as a list, blanks in front of the bracket allowed. -/
theorem ReadsItems.list {t b : List Char} {items : List Value} (h : ReadsItems t items)
    (hb : Blank b) : Reads ('[' :: (t ++ (b ++ [']']))) (list items) := by
  intro fuel depth rest hfuel hdepth _
  simp only [List.length_cons, List.length_append] at hfuel
  obtain ⟨fuel, rfl⟩ : ∃ n, fuel = n + 1 := ⟨fuel - 1, by omega⟩
  rw [Value.depth] at hdepth
  obtain ⟨depth, rfl⟩ : ∃ n, depth = n + 1 := ⟨depth - 1, by omega⟩
  have hclose : skipBlanks (b ++ ']' :: rest) = ']' :: rest := by
    rw [skipBlanks_append hb, skipBlanks_cons rfl]
  have hitems : items? fuel depth (t ++ (b ++ ']' :: rest)) = some (items, rest) :=
    h (by omega) (itemsDepth_le_iff.mp (by omega)) hclose
  simpa using value?_list hitems

theorem reads_nil_list : Reads ['[', ']'] (list []) := by
  intro fuel depth rest hfuel hdepth _
  obtain ⟨fuel, rfl⟩ : ∃ n, fuel = n + 1 := ⟨fuel - 1, by omega⟩
  rw [Value.depth] at hdepth
  obtain ⟨depth, rfl⟩ : ∃ n, depth = n + 1 := ⟨depth - 1, by omega⟩
  rfl

/-! ## Objects -/

/-- One field, from its key on, up to what stands behind its value. -/
theorem fields?_cons {fuel depth : Nat} {before : Dict Value} {k : String} {v : Value}
    {s rest tail : List Char} {c : Char} (h : value? fuel depth s = some (v, rest))
    (hrest : skipBlanks rest = c :: tail) :
    fields? (fuel + 1) depth before (quoted k ++ ':' :: s) =
      if c = '\x7d' then some (Dict.put before k v, tail)
      else if c = ',' then fields? fuel depth (Dict.put before k v) tail
      else none := by
  obtain ⟨t, ht, hbody⟩ := stringBody_quoted k (':' :: s)
  rw [ht, fields?, skipBlanks_cons rfl]
  simp only [hbody, skipBlanks_cons (c := ':') rfl, h, hrest, String.ofList_toList]
  split <;> simp_all

/-- The last field is followed by the closing brace. -/
theorem Reads.lastField {t : List Char} {k : String} {v : Value} (h : Reads t v) :
    ReadsFields (quoted k ++ ':' :: t) [(k, v)] := by
  intro fuel depth before closing rest hfuel hdepth hclose
  rw [List.length_append, List.length_cons] at hfuel
  obtain ⟨fuel, rfl⟩ : ∃ n, fuel = n + 1 := ⟨fuel - 1, by omega⟩
  have hends : EndsNumber closing := endsNumber_of_skipBlanks hclose rfl
  have hv : value? fuel depth (t ++ closing) = some (v, closing) :=
    h (by omega) (hdepth (k, v) List.mem_cons_self) hends
  rw [List.append_assoc, List.cons_append, fields?_cons hv hclose]
  rfl

/-- Every other field is followed by a comma. -/
theorem Reads.consField {t ts : List Char} {k : String} {v : Value}
    {fields : List (String × Value)} (h : Reads t v) (hs : ReadsFields ts fields) :
    ReadsFields (quoted k ++ ':' :: (t ++ ',' :: ts)) ((k, v) :: fields) := by
  intro fuel depth before closing rest hfuel hdepth hclose
  simp only [List.length_append, List.length_cons] at hfuel
  obtain ⟨fuel, rfl⟩ : ∃ n, fuel = n + 1 := ⟨fuel - 1, by omega⟩
  obtain ⟨hv, hvs⟩ := List.forall_mem_cons.mp hdepth
  have hcomma : skipBlanks (',' :: (ts ++ closing)) = ',' :: (ts ++ closing) :=
    skipBlanks_cons rfl _
  have hread : value? fuel depth (t ++ ',' :: (ts ++ closing)) =
      some (v, ',' :: (ts ++ closing)) :=
    h (by omega) hv (endsNumber_of_skipBlanks hcomma rfl)
  have hassoc : quoted k ++ ':' :: (t ++ ',' :: ts) ++ closing =
      quoted k ++ ':' :: (t ++ ',' :: (ts ++ closing)) := by simp
  rw [hassoc, fields?_cons hread hcomma, if_neg (by decide), if_pos rfl]
  exact hs (by omega) hvs hclose

theorem ReadsFields.blank {b t : List Char} {fields : List (String × Value)}
    (h : ReadsFields t fields) (hb : Blank b) : ReadsFields (b ++ t) fields := by
  intro fuel depth before closing rest hfuel hdepth hclose
  rw [List.append_assoc, fields?_append hb]
  exact h (by rw [List.length_append] at hfuel; omega) hdepth hclose

/-- What fields are read from starts with a key, so not with the closing brace. -/
theorem not_closed_of_fields {fuel depth : Nat} {before fields : Dict Value} {s rest : List Char}
    (h : fields? fuel depth before s = some (fields, rest)) (t : List Char) :
    skipBlanks s ≠ '\x7d' :: t := by
  intro hs
  cases fuel with
  | zero => simp [fields?] at h
  | succ fuel =>
    rw [fields?, hs] at h
    simp at h

/-- An opening brace begins an object, one level deeper. -/
theorem value?_object {fuel depth : Nat} {s rest : List Char} {fields : Dict Value}
    (h : fields? fuel depth [] s = some (fields, rest)) :
    value? (fuel + 1) (depth + 1) ('\x7b' :: s) = some (object fields, rest) := by
  rw [value?, skipBlanks_cons rfl]
  simp only
  split
  · next hs => exact absurd hs (not_closed_of_fields h _)
  · obtain ⟨b, hb, hs⟩ := exists_blank_append s
    rw [hs, fields?_append hb] at h
    rw [h]; rfl

/-- Fields with keys of their own are read as an object, blanks in front of the brace allowed. -/
theorem ReadsFields.object {t b : List Char} {fields : List (String × Value)}
    (h : ReadsFields t fields) (hkeys : (Dict.keys fields).Nodup) (hb : Blank b) :
    Reads ('\x7b' :: (t ++ (b ++ ['\x7d']))) (object fields) := by
  intro fuel depth rest hfuel hdepth _
  simp only [List.length_cons, List.length_append] at hfuel
  obtain ⟨fuel, rfl⟩ : ∃ n, fuel = n + 1 := ⟨fuel - 1, by omega⟩
  rw [Value.depth] at hdepth
  obtain ⟨depth, rfl⟩ : ∃ n, depth = n + 1 := ⟨depth - 1, by omega⟩
  have hclose : skipBlanks (b ++ '\x7d' :: rest) = '\x7d' :: rest := by
    rw [skipBlanks_append hb, skipBlanks_cons rfl]
  have hfields : fields? fuel depth [] (t ++ (b ++ '\x7d' :: rest)) =
      some (fields.foldl (fun d p => Dict.put d p.1 p.2) [], rest) :=
    h (by omega) (fieldsDepth_le_iff.mp (by omega)) hclose
  rw [Dict.foldl_put_of_nodup (by simpa using hkeys), List.nil_append] at hfields
  simpa using value?_object hfields

theorem reads_nil_object : Reads ['\x7b', '\x7d'] (Value.object []) := by
  intro fuel depth rest hfuel hdepth _
  obtain ⟨fuel, rfl⟩ : ∃ n, fuel = n + 1 := ⟨fuel - 1, by omega⟩
  rw [Value.depth] at hdepth
  obtain ⟨depth, rfl⟩ : ∃ n, depth = n + 1 := ⟨depth - 1, by omega⟩
  rfl

/-! ## Scalars -/

theorem reads_undefined : Reads ['n', 'u', 'l', 'l'] undefined := by
  intro fuel depth rest hfuel _ _
  obtain ⟨fuel, rfl⟩ : ∃ n, fuel = n + 1 := ⟨fuel - 1, by omega⟩
  rfl

/-- The two words that are booleans. -/
theorem reads_boolean (b : Bool) : Reads (scalarChars (boolean b)) (boolean b) := by
  intro fuel depth rest hfuel _ _
  obtain ⟨fuel, rfl⟩ : ∃ n, fuel = n + 1 := ⟨fuel - 1, by omega⟩
  cases b <;> rfl

theorem reads_string (s : String) : Reads (quoted s) (string s) := by
  intro fuel depth rest hfuel _ _
  obtain ⟨fuel, rfl⟩ : ∃ n, fuel = n + 1 := ⟨fuel - 1, by omega⟩
  obtain ⟨t, ht, hbody⟩ := stringBody_quoted s rest
  rw [ht, value?, skipBlanks_cons rfl]
  simp only [hbody, Option.map_some, String.ofList_toList]

/-- What is a number to the reader of numbers is one to the reader of values. -/
theorem value?_of_number? {fuel depth : Nat} {s rest : List Char} {v : Value}
    (h : number? s = some (v, rest)) : value? (fuel + 1) depth s = some (v, rest) := by
  cases s with
  | nil => cases h
  | cons c t =>
    have hblank : isBlank c = false := by
      refine Bool.eq_false_iff.mpr fun hb => ?_
      simp only [isBlank, Bool.or_eq_true, decide_eq_true_eq] at hb
      rcases hb with ((rfl | rfl) | rfl) | rfl <;> cases h
    rw [value?, skipBlanks_cons hblank]
    -- no other reader starts with a character that a number could start with
    split
    all_goals first
      | exact h
      | next heq => cases heq <;> cases h

/-- **An integer reads back**, between the ends of its range and at them. -/
theorem reads_integer (i : Int64) : Reads (integerChars i.toInt) (integer i) := by
  intro fuel depth rest hfuel _ hrest
  obtain ⟨fuel, rfl⟩ : ∃ n, fuel = n + 1 := ⟨fuel - 1, by omega⟩
  exact value?_of_number? (number?_integerChars i hrest)

/-! ## The two printers -/

/-- Items that read back do so in a row. -/
theorem readsItems_itemChars {items : List Value} (hne : items ≠ [])
    (h : ∀ v ∈ items, Reads v.chars v) : ReadsItems (itemChars items) items := by
  induction items with
  | nil => exact absurd rfl hne
  | cons v vs ih =>
    obtain ⟨hv, hvs⟩ := List.forall_mem_cons.mp h
    cases vs with
    | nil => exact hv.last
    | cons w vs => exact hv.cons (ih (List.cons_ne_nil w vs) hvs)

/-- Fields that read back do so in a row. -/
theorem readsFields_fieldChars {fields : List (String × Value)} (hne : fields ≠ [])
    (h : ∀ p ∈ fields, Reads p.2.chars p.2) : ReadsFields (fieldChars fields) fields := by
  induction fields with
  | nil => exact absurd rfl hne
  | cons p fields ih =>
    obtain ⟨hv, hvs⟩ := List.forall_mem_cons.mp h
    cases fields with
    | nil => exact hv.lastField
    | cons q fields => exact hv.consField (ih (List.cons_ne_nil q fields) hvs)

/-- **Compact text.** -/
theorem reads_chars {v : Value} (hv : v.Orderly) (hx : v.Exact) : Reads v.chars v := by
  induction hv with
  | undefined => exact reads_undefined
  | boolean b => exact reads_boolean b
  | integer i => exact reads_integer i
  | double x => cases hx
  | string s => exact reads_string s
  | @list items _ ih =>
    cases hx with
    | list hx =>
      rw [chars]
      cases items with
      | nil => exact reads_nil_list
      | cons v vs =>
        exact (readsItems_itemChars (List.cons_ne_nil v vs) fun w hw => ih w hw (hx w hw)).list
          blank_nil
  | @object fields hkeys _ ih =>
    cases hx with
    | object hx =>
      rw [chars]
      cases fields with
      | nil => exact reads_nil_object
      | cons p fields =>
        exact (readsFields_fieldChars (List.cons_ne_nil p fields)
          fun q hq => ih q hq (hx q hq)).object hkeys blank_nil

/-- Items that read back do so line by line. -/
theorem readsItems_prettyItems {depth : Nat} {items : List Value} (hne : items ≠ [])
    (h : ∀ v ∈ items, Reads (v.prettyChars depth) v) :
    ReadsItems (prettyItems depth items) items := by
  induction items with
  | nil => exact absurd rfl hne
  | cons v vs ih =>
    obtain ⟨hv, hvs⟩ := List.forall_mem_cons.mp h
    have hline := hv.blank (blank_lineBreak depth)
    cases vs with
    | nil => exact hline.last
    | cons w vs =>
      have hitems := hline.cons (ih (List.cons_ne_nil w vs) hvs)
      rw [List.append_assoc] at hitems
      exact hitems

/-- Fields that read back do so line by line. -/
theorem readsFields_prettyFields {depth : Nat} {fields : List (String × Value)} (hne : fields ≠ [])
    (h : ∀ p ∈ fields, Reads (p.2.prettyChars depth) p.2) :
    ReadsFields (prettyFields depth fields) fields := by
  induction fields with
  | nil => exact absurd rfl hne
  | cons p fields ih =>
    obtain ⟨hv, hvs⟩ := List.forall_mem_cons.mp h
    have hspace := hv.blank (b := [' ']) (by simp [Blank, isBlank])
    cases fields with
    | nil => exact hspace.lastField.blank (blank_lineBreak depth)
    | cons q fields =>
      exact (hspace.consField (ih (List.cons_ne_nil q fields) hvs)).blank (blank_lineBreak depth)

/-- **Indented text**, at whatever depth it starts. -/
theorem reads_prettyChars {v : Value} (hv : v.Orderly) (hx : v.Exact) (depth : Nat) :
    Reads (v.prettyChars depth) v := by
  induction hv generalizing depth with
  | undefined => exact reads_undefined
  | boolean b => exact reads_boolean b
  | integer i => exact reads_integer i
  | double x => cases hx
  | string s => exact reads_string s
  | @list items _ ih =>
    cases hx with
    | list hx =>
      cases items with
      | nil => exact reads_nil_list
      | cons v vs =>
        exact (readsItems_prettyItems (List.cons_ne_nil v vs)
          fun w hw => ih w hw (hx w hw) (depth + 1)).list (blank_lineBreak depth)
  | @object fields hkeys _ ih =>
    cases hx with
    | object hx =>
      cases fields with
      | nil => exact reads_nil_object
      | cons p fields =>
        exact (readsFields_prettyFields (List.cons_ne_nil p fields)
          fun q hq => ih q hq (hx q hq) (depth + 1)).object hkeys (blank_lineBreak depth)

/-- What reads back is parsed, if it is not too deep. -/
theorem Reads.parseChars? {t : List Char} {v : Value} (h : Reads t v) (hv : v.depth ≤ maxDepth) :
    parseChars? t = some v := by
  have hends : EndsNumber [] := fun _ hc => absurd hc (by simp)
  have hread : value? (t.length + 1) maxDepth (t ++ []) = some (v, []) :=
    h (Nat.lt_succ_self t.length) hv hends
  rw [List.append_nil] at hread
  rw [Value.parseChars?, hread]
  rfl

/-! ## What is read can be read again -/

/-- No object repeats a key, and at most `n` lists and objects stand inside one another. -/
def Bounded (n : Nat) (v : Value) : Prop := v.Orderly ∧ v.depth ≤ n

/-- A number has no depth. -/
theorem bounded_number {s rest : List Char} {v : Value} {n : Nat}
    (h : number? s = some (v, rest)) : Bounded n v := by
  simp only [number?, Option.bind_eq_bind, Option.bind_eq_some_iff, Option.pure_def,
    Option.some.injEq, Prod.mk.injEq] at h
  obtain ⟨⟨numeral, rest⟩, -, v, hmeaning, rfl, -⟩ := h
  cases hm : numeral.meaning with
  | integer i => rw [hm] at hmeaning; cases hmeaning; exact ⟨.integer _, Nat.zero_le n⟩
  | double x => rw [hm] at hmeaning; cases hmeaning; exact ⟨.double x, Nat.zero_le n⟩
  | overflow => rw [hm] at hmeaning; cases hmeaning

/-- A word stands for its value. -/
theorem eq_of_constant? {word s rest : List Char} {v w : Value}
    (h : constant? word v s = some (w, rest)) : w = v := by
  obtain ⟨_, -, h⟩ := Option.map_eq_some_iff.mp h
  exact (Prod.mk.inj h).1.symm

theorem bounded_list {n : Nat} {items : List Value} (h : ∀ v ∈ items, Bounded n v) :
    Bounded (n + 1) (list items) :=
  ⟨.list fun v hv => (h v hv).1, Nat.succ_le_succ (itemsDepth_le_iff.mpr fun v hv => (h v hv).2)⟩

theorem bounded_object {n : Nat} {fields : List (String × Value)}
    (hkeys : (Dict.keys fields).Nodup) (h : ∀ p ∈ fields, Bounded n p.2) :
    Bounded (n + 1) (object fields) :=
  ⟨.object hkeys fun p hp => (h p hp).1,
    Nat.succ_le_succ (fieldsDepth_le_iff.mpr fun p hp => (h p hp).2)⟩

/-- Every value that the readers come upon with this much fuel is bounded by the levels that were
left to it; fields are stored into fields of that kind. -/
structure ReadsBounded (fuel : Nat) : Prop where
  value : ∀ {depth s v rest}, value? fuel depth s = some (v, rest) → Bounded depth v
  items : ∀ {depth s vs rest}, items? fuel depth s = some (vs, rest) → ∀ v ∈ vs, Bounded depth v
  fields : ∀ {depth before s fields rest}, fields? fuel depth before s = some (fields, rest) →
    (Dict.keys before).Nodup → (∀ p ∈ before, Bounded depth p.2) →
      (Dict.keys fields).Nodup ∧ ∀ p ∈ fields, Bounded depth p.2

theorem ReadsBounded.value_succ {fuel : Nat} (ih : ReadsBounded fuel) {depth : Nat}
    {s rest : List Char} {v : Value} (h : value? (fuel + 1) depth s = some (v, rest)) :
    Bounded depth v := by
  rw [value?] at h
  split at h
  · cases h
  · obtain ⟨⟨cs, rest⟩, -, h⟩ := Option.map_eq_some_iff.mp h
    cases h
    exact ⟨.string _, Nat.zero_le depth⟩
  · cases depth with
    | zero => cases h
    | succ depth =>
      simp only at h
      split at h
      · cases h
        exact bounded_list fun v hv => absurd hv List.not_mem_nil
      · obtain ⟨⟨vs, rest⟩, hvs, h⟩ := Option.map_eq_some_iff.mp h
        cases h
        exact bounded_list (ih.items hvs)
  · cases depth with
    | zero => cases h
    | succ depth =>
      simp only at h
      split at h
      · cases h
        exact bounded_object List.nodup_nil fun p hp => absurd hp List.not_mem_nil
      · obtain ⟨⟨fields, rest⟩, hfields, h⟩ := Option.map_eq_some_iff.mp h
        cases h
        obtain ⟨hkeys, heach⟩ :=
          ih.fields hfields List.nodup_nil fun p hp => absurd hp List.not_mem_nil
        exact bounded_object hkeys heach
  · rw [eq_of_constant? h]
    exact ⟨.undefined, Nat.zero_le depth⟩
  · rw [eq_of_constant? h]
    exact ⟨.boolean true, Nat.zero_le depth⟩
  · rw [eq_of_constant? h]
    exact ⟨.boolean false, Nat.zero_le depth⟩
  · exact bounded_number h

theorem ReadsBounded.items_succ {fuel : Nat} (ih : ReadsBounded fuel) {depth : Nat}
    {s rest : List Char} {vs : List Value} (h : items? (fuel + 1) depth s = some (vs, rest)) :
    ∀ v ∈ vs, Bounded depth v := by
  rw [items?] at h
  split at h
  · cases h
  · next hv =>
    split at h
    · cases h
      exact List.forall_mem_singleton.mpr (ih.value hv)
    · obtain ⟨⟨vs, rest⟩, hvs, h⟩ := Option.map_eq_some_iff.mp h
      cases h
      exact List.forall_mem_cons.mpr ⟨ih.value hv, ih.items hvs⟩
    · cases h

theorem ReadsBounded.fields_succ {fuel : Nat} (ih : ReadsBounded fuel) {depth : Nat}
    {before fields : Dict Value} {s rest : List Char}
    (h : fields? (fuel + 1) depth before s = some (fields, rest))
    (hkeys : (Dict.keys before).Nodup) (heach : ∀ p ∈ before, Bounded depth p.2) :
    (Dict.keys fields).Nodup ∧ ∀ p ∈ fields, Bounded depth p.2 := by
  rw [fields?] at h
  split at h
  · split at h
    · cases h
    · next key _ _ =>
      split at h
      · split at h
        · cases h
        · next v _ hv =>
          -- a repeated key gives up its old value only
          have hkeys' := Dict.nodup_keys_put hkeys (String.ofList key) v
          have heach' : ∀ p ∈ Dict.put before (String.ofList key) v, Bounded depth p.2 := by
            intro p hp
            rcases Dict.mem_of_mem_put hp with rfl | hp
            · exact ih.value hv
            · exact heach p hp
          simp only at h
          split at h
          · cases h
            exact ⟨hkeys', heach'⟩
          · exact ih.fields h hkeys' heach'
          · cases h
      · cases h
  · cases h

/-- **Whatever the parser reads is within its depth**, and holds no key twice. -/
theorem readsBounded (fuel : Nat) : ReadsBounded fuel := by
  induction fuel with
  | zero =>
    exact ⟨fun h => by simp [value?] at h, fun h => by simp [items?] at h,
      fun h => by simp [fields?] at h⟩
  | succ fuel ih => exact ⟨ih.value_succ, ih.items_succ, ih.fields_succ⟩

theorem bounded_of_parse? {s : String} {v : Value} (h : parse? s = some v) :
    Bounded maxDepth v := by
  rw [parse?, parseChars?] at h
  split at h
  · next hv =>
    split at h
    · cases h
      exact (readsBounded _).value hv
    · cases h
  · cases h

/-! ## The round trip -/

/-- **The compact form reads back.** -/
theorem parse?_render {v : Value} (hv : v.Orderly) (hx : v.Exact) (hd : v.depth ≤ maxDepth) :
    parse? v.render = some v := by
  rw [parse?, render, String.toList_ofList]
  exact (reads_chars hv hx).parseChars? hd

/-- **The indented form reads back.** -/
theorem parse?_pretty {v : Value} (hv : v.Orderly) (hx : v.Exact) (hd : v.depth ≤ maxDepth) :
    parse? v.pretty = some v := by
  rw [parse?, pretty, String.toList_ofList]
  exact (reads_prettyChars hv hx 0).parseChars? hd

/-- **Round trip.**  A value whose objects repeat no key, that holds no double and nests at most 127
deep is read back, keys in order, from its compact and from its indented text.  Whatever a text is
read as repeats no key and nests at most 127 deep, so when it holds no double, printing it either
way and reading it again changes nothing. -/
theorem printed_reads_back :
    (∀ v : Value, v.Orderly → v.Exact → v.depth ≤ maxDepth →
      parse? v.render = some v ∧ parse? v.pretty = some v) ∧
    ∀ (s : String) (v : Value), parse? s = some v →
      (v.Orderly ∧ v.depth ≤ maxDepth) ∧
        (v.Exact → parse? v.render = some v ∧ parse? v.pretty = some v) := by
  have hback : ∀ v : Value, v.Orderly → v.Exact → v.depth ≤ maxDepth →
      parse? v.render = some v ∧ parse? v.pretty = some v := fun v hv hx hd =>
    ⟨parse?_render hv hx hd, parse?_pretty hv hx hd⟩
  refine ⟨hback, fun s v h => ?_⟩
  obtain ⟨hv, hd⟩ := bounded_of_parse? h
  exact ⟨⟨hv, hd⟩, fun hx => hback v hv hx hd⟩

/-- A quote, control characters, the least integer and a missing value. -/
def knotted : Value :=
  object [("zeta", list [undefined, integer Int64.minValue]), ("a\n\"", string "\x01")]

/-- What a text with a repeated key is read as: its last value stands in its first place. -/
def rekeyed : Value := object [("b", integer (-1)), ("a", boolean true)]

theorem printed_reads_back_repeated :
    ((knotted.Orderly ∧ knotted.Exact ∧ knotted.depth ≤ maxDepth) ∧
      parse? knotted.render = some knotted ∧ parse? knotted.pretty = some knotted) ∧
    (parse? "\x7b\"b\":[],\"a\":true, \"b\":-1\x7d" = some rekeyed ∧ rekeyed.Exact) ∧
      parse? rekeyed.render = some rekeyed ∧ parse? rekeyed.pretty = some rekeyed := by
  have hv : knotted.Orderly :=
    .object (by decide) (List.forall_mem_cons.mpr
      ⟨.list (List.forall_mem_cons.mpr ⟨.undefined, List.forall_mem_singleton.mpr (.integer _)⟩),
        List.forall_mem_singleton.mpr (.string _)⟩)
  have hx : knotted.Exact :=
    .object (List.forall_mem_cons.mpr
      ⟨.list (List.forall_mem_cons.mpr ⟨.undefined, List.forall_mem_singleton.mpr (.integer _)⟩),
        List.forall_mem_singleton.mpr (.string _)⟩)
  have hd : knotted.depth ≤ maxDepth := by decide
  have hread : parse? "\x7b\"b\":[],\"a\":true, \"b\":-1\x7d" = some rekeyed := by
    rw [parse?]
    simp only [String.reduceToList]
    rfl
  have hw : rekeyed.Exact :=
    .object (List.forall_mem_cons.mpr ⟨.integer _, List.forall_mem_singleton.mpr (.boolean _)⟩)
  exact ⟨⟨⟨hv, hx, hd⟩, printed_reads_back.1 _ hv hx hd⟩, ⟨hread, hw⟩,
    (printed_reads_back.2 _ _ hread).2 hw⟩

end Value

end ManagementPlane
