import ManagementPlane.Proofs.Global.Local

/-!
# Proofs/Address/Canonical — addresses survive both of their forms

The structured form takes any key and any value, and reads back as the address
(`Address.ofValue_toValue`).  The text form loses empty pieces and nothing else: a text reads like
the same text without them (`ofText_canonicalText`), and that is the text of the address that was
read (`text_of_ofText`).  So addresses that were read are told apart by their texts
(`codecs_faithful`).
-/

namespace ManagementPlane

namespace Element

theorem toList_text (e : Element) :
    e.text.toList = e.key.toList ++ '=' :: e.value.toList := by
  simp [text]

/-- **A segment reads as an element** when it is the text of that element, the key has no equals
sign, and neither part is empty. -/
theorem ofText_eq_ok {s : List Char} {e : Element} : ofText s = .ok e ↔
    s = e.text.toList ∧ '=' ∉ e.key.toList ∧ e.key ≠ "" ∧ e.value ≠ "" := by
  rw [ofText, toList_text]
  constructor
  · intro h
    split at h
    · cases h
    · next hparts =>
      obtain rfl := Except.ok.inj h
      have hwhole := List.takeWhile_append_dropWhile (p := (· ≠ '=')) (l := s)
      have hfirst := List.head?_dropWhile_not (· ≠ '=') s
      have hkey := List.all_takeWhile (p := (· ≠ '=')) (l := s)
      generalize s.takeWhile (· ≠ '=') = key at hparts hwhole hkey ⊢
      generalize s.dropWhile (· ≠ '=') = rest at hparts hwhole hfirst ⊢
      cases rest with
      | nil => exact absurd (by simp) hparts
      | cons c value =>
        obtain rfl : c = '=' := by simpa using hfirst
        simp only [Bool.or_eq_true, List.isEmpty_iff, not_or, List.drop_succ_cons,
          List.drop_zero] at hparts
        refine ⟨by simp [← hwhole], fun hmem => ?_, ?_, ?_⟩
        · rw [String.toList_ofList] at hmem
          simpa using List.all_eq_true.mp hkey '=' hmem
        · rw [Ne, ← String.toList_eq_nil_iff, String.toList_ofList]
          exact hparts.1
        · rw [Ne, ← String.toList_eq_nil_iff]
          simpa using hparts.2
  · rintro ⟨rfl, hkey, hk, hv⟩
    have hplain : ∀ c ∈ e.key.toList, decide (c ≠ '=') = true := fun c hc =>
      decide_eq_true fun h => hkey (h ▸ hc)
    rw [List.takeWhile_append_of_pos hplain, List.dropWhile_append_of_pos hplain]
    simp [hk, hv]

end Element

namespace Address

/-! ## Pieces between slashes -/

theorem splitSlashes_of_notMem {p : List Char} (h : '/' ∉ p) : splitSlashes p = [p] := by
  induction p with
  | nil => rfl
  | cons c p ih =>
    obtain ⟨hc, hp⟩ := not_or.mp (List.mem_cons.not.mp h)
    rw [splitSlashes, if_neg (Ne.symm hc), ih hp]

theorem splitSlashes_append {p : List Char} (h : '/' ∉ p) (s : List Char) :
    splitSlashes (p ++ '/' :: s) = p :: splitSlashes s := by
  induction p with
  | nil => rfl
  | cons c p ih =>
    obtain ⟨hc, hp⟩ := not_or.mp (List.mem_cons.not.mp h)
    rw [List.cons_append, splitSlashes, if_neg (Ne.symm hc), ih hp]

/-- **Splitting undoes joining.** -/
theorem splitSlashes_join {p : List Char} {ps : List (List Char)} (h : ∀ q ∈ p :: ps, '/' ∉ q) :
    splitSlashes (p ++ ps.flatMap ('/' :: ·)) = p :: ps := by
  induction ps generalizing p with
  | nil =>
    rw [List.flatMap_nil, List.append_nil]
    exact splitSlashes_of_notMem (h p List.mem_cons_self)
  | cons q qs ih =>
    rw [List.flatMap_cons, List.cons_append, splitSlashes_append (h p List.mem_cons_self),
      ih fun r hr => h r (List.mem_cons_of_mem _ hr)]

theorem notMem_of_mem_splitSlashes {p s : List Char} (h : p ∈ splitSlashes s) : '/' ∉ p := by
  induction s generalizing p with
  | nil =>
    obtain rfl := List.mem_singleton.mp h
    exact List.not_mem_nil
  | cons c s ih =>
    rw [splitSlashes] at h
    split at h
    · rcases List.mem_cons.mp h with rfl | h
      · exact List.not_mem_nil
      · exact ih h
    · next hc =>
      split at h
      · obtain rfl := List.mem_singleton.mp h
        exact fun hmem => hc (List.mem_singleton.mp hmem).symm
      · next piece pieces hsplit =>
        rcases List.mem_cons.mp h with rfl | h
        · have hpiece : '/' ∉ piece := ih (hsplit ▸ List.mem_cons_self)
          exact fun hmem => (List.mem_cons.mp hmem).elim (fun heq => hc heq.symm) hpiece
        · exact ih (hsplit ▸ List.mem_cons_of_mem _ h)

/-! ## Texts without empty pieces -/

/-- The pieces of a text that stand for elements. -/
def pieces (s : String) : List (List Char) := (splitSlashes s.toList).filter (!·.isEmpty)

/-- Pieces as they are written, each behind a slash; a slash when there are none. -/
def joined (ps : List (List Char)) : String :=
  if ps.isEmpty then "/" else String.ofList (ps.flatMap ('/' :: ·))

/-- A text without its empty pieces. -/
def canonicalText (s : String) : String := joined (pieces s)

/-- **Joined pieces are found again**, if they are pieces at all. -/
theorem pieces_joined {ps : List (List Char)} (h : ∀ p ∈ ps, '/' ∉ p ∧ p ≠ []) :
    pieces (joined ps) = ps := by
  rw [pieces, joined]
  split
  · next hnone =>
    rw [List.isEmpty_iff.mp hnone]
    rfl
  · have hsplit : splitSlashes (ps.flatMap ('/' :: ·)) = [] :: ps :=
      splitSlashes_join (p := []) (List.forall_mem_cons.mpr
        ⟨List.not_mem_nil, fun p hp => (h p hp).1⟩)
    rw [String.toList_ofList, hsplit, List.filter_cons_of_neg (by simp)]
    exact List.filter_eq_self.mpr fun p hp => by simpa using (h p hp).2

theorem pieces_canonicalText (s : String) : pieces (canonicalText s) = pieces s :=
  pieces_joined fun p hp => by
    obtain ⟨hsplit, hne⟩ := List.mem_filter.mp hp
    exact ⟨notMem_of_mem_splitSlashes hsplit, by simpa using hne⟩

/-- **Empty pieces do not matter** to the reading of a text. -/
theorem ofText_canonicalText (s : String) : ofText (canonicalText s) = ofText s :=
  congrArg (List.mapM Element.ofText) (pieces_canonicalText s)

theorem text_eq_joined (a : Address) : a.text = joined (a.map (·.text.toList)) := by
  cases a with
  | nil => rfl
  | cons e es =>
    rw [joined, List.map_cons, if_neg (by simp)]
    induction es generalizing e with
    | nil => simp [text, String.ofList_cons]
    | cons e' es ih =>
      rw [text, ih e', if_neg (by simp)]
      simp [String.ofList_cons, String.append_assoc]

theorem mapM_ofText_eq_ok {ps : List (List Char)} {a : Address}
    (h : ps.mapM Element.ofText = .ok a) : ps = a.map (·.text.toList) := by
  induction ps generalizing a with
  | nil =>
    obtain rfl := Except.ok.inj h
    rfl
  | cons p ps ih =>
    rw [List.mapM_cons] at h
    cases hp : Element.ofText p with
    | error e =>
      rw [hp] at h
      cases h
    | ok e =>
      cases hps : ps.mapM Element.ofText with
      | error e' =>
        rw [hp, hps] at h
        cases h
      | ok es =>
        rw [hp, hps] at h
        obtain rfl := Except.ok.inj h
        rw [List.map_cons, ← ih hps, ← (Element.ofText_eq_ok.mp hp).1]

theorem pieces_of_ofText {s : String} {a : Address} (h : ofText s = .ok a) :
    pieces s = a.map (·.text.toList) := mapM_ofText_eq_ok h

/-- The text of an address that was read is what was read, without its empty pieces. -/
theorem text_of_ofText {s : String} {a : Address} (h : ofText s = .ok a) :
    a.text = canonicalText s := by
  rw [text_eq_joined, canonicalText, pieces_of_ofText h]

theorem ofText_text {s : String} {a : Address} (h : ofText s = .ok a) : ofText a.text = .ok a := by
  rw [text_of_ofText h, ofText_canonicalText, h]

/-- **Both forms of an address keep it.**  The structured form does so whatever its keys and values
are, also in an operation that is addressed anew; the text form does so for every address that was
read from a text, up to the empty pieces of that text, so that texts stand for the same address when
they come to the same text. -/
theorem codecs_faithful :
    (∀ a : Address, ofValue a.toValue = .ok a) ∧
    (∀ (operation : Value) (a : Address),
      Operation.addressOf (operation.set Key.address a.toValue) = .ok a) ∧
    (∀ s a, ofText s = .ok a → ofText a.text = .ok a ∧ a.text = canonicalText s) ∧
    ∀ s t a b, ofText s = .ok a → ofText t = .ok b → (a = b ↔ a.text = b.text) := by
  refine ⟨ofValue_toValue, Operation.addressOf_set, fun s a h => ⟨ofText_text h, text_of_ofText h⟩,
    fun s t a b ha hb => ⟨congrArg text, fun h => ?_⟩⟩
  have hread := ofText_text ha
  rw [h, ofText_text hb] at hread
  exact (Except.ok.inj hread).symm

/-- An address whose first value begins with an equals sign. -/
def signed : Address := [⟨"a", "=b"⟩, ⟨"type", "*"⟩]

/-- Two texts that stand for it come to the same text. -/
theorem codecs_faithful_signed : ofText "/a==b//type=*/" = .ok signed ∧
    ofText "a==b/type=*" = .ok signed ∧ ofText signed.text = .ok signed ∧
    canonicalText "/a==b//type=*/" = signed.text ∧ canonicalText "a==b/type=*" = signed.text := by
  have hfirst : ofText "/a==b//type=*/" = .ok signed := by rfl
  have hsecond : ofText "a==b/type=*" = .ok signed := by rfl
  obtain ⟨-, -, hreads, -⟩ := codecs_faithful
  obtain ⟨htext, hcanonical⟩ := hreads _ _ hfirst
  exact ⟨hfirst, hsecond, htext, hcanonical.symm, (hreads _ _ hsecond).2.symm⟩

end Address

end ManagementPlane
