import Mathlib.Algebra.BigOperators.Group.List.Basic
import Mathlib.Tactic

/-!
# JSON texts of nested integer arrays

`Renders v t`: the characters `t` are a JSON text of the value `v`, with blanks
wherever the grammar allows them. Without its blanks such a text is the compact
one, `v.text`, so its brackets and commas are those of the compact text.
-/

namespace SketchMonitor

/-- The JSON values made of arrays and integers. -/
inductive Json
  | int (n : ℤ)
  | arr (vs : List Json)

/-- What `%d` prints. -/
def decimal (n : ℤ) : List Char := (toString n).toList

theorem decimal_natCast (n : ℕ) : decimal n = Nat.toDigits 10 n := by
  have htext : decimal n = (toString n).toList := rfl
  rw [htext, Nat.toString_eq_repr, Nat.toList_repr]

theorem decimal_negSucc (n : ℕ) : decimal (Int.negSucc n) = '-' :: Nat.toDigits 10 (n+1) := by
  have htext : decimal (Int.negSucc n) = ("-" ++ toString (n+1)).toList := rfl
  rw [htext, String.toList_append, Nat.toString_eq_repr, Nat.toList_repr]
  rfl

/-- A sign or a digit. -/
def Numeral (c : Char) : Prop := c = '-' ∨ c.isDigit

instance : DecidablePred Numeral := fun _ => inferInstanceAs (Decidable (_ ∨ _))

theorem decimal_digits (n : ℤ) : ∀ c ∈ decimal n, Numeral c := by
  have hnat (m : ℕ) : ∀ c ∈ Nat.toDigits 10 m, c.isDigit := fun c hc =>
    Nat.isDigit_of_mem_toDigits (by decide) (by decide) hc
  intro c hc
  cases n with
  | ofNat m =>
    rw [Int.ofNat_eq_natCast, decimal_natCast] at hc
    exact .inr (hnat m c hc)
  | negSucc m =>
    rw [decimal_negSucc, List.mem_cons] at hc
    exact hc.imp id (hnat _ c)

theorem decimal_ne_nil (n : ℤ) : decimal n ≠ [] := by
  cases n with
  | ofNat m =>
    rw [Int.ofNat_eq_natCast, decimal_natCast]
    exact Nat.toDigits_ne_nil
  | negSucc m =>
    rw [decimal_negSucc]
    exact List.cons_ne_nil _ _

theorem toDigits_ten_injective : Function.Injective (Nat.toDigits 10) := by
  intro m n h
  simpa only [Nat.ofDigitChars_ten_toDigits] using congrArg (Nat.ofDigitChars 10 · 0) h

/-- Only a negative number starts with the sign. -/
theorem toDigits_ne_minus (m n : ℕ) : Nat.toDigits 10 m ≠ '-' :: Nat.toDigits 10 n := by
  intro h
  have hmem : '-' ∈ Nat.toDigits 10 m := h ▸ List.mem_cons_self
  exact absurd (Nat.isDigit_of_mem_toDigits (by decide) (by decide) hmem) (by decide)

theorem decimal_injective : Function.Injective decimal := by
  intro m n h
  cases m with
  | ofNat m =>
    cases n with
    | ofNat n =>
      rw [Int.ofNat_eq_natCast, Int.ofNat_eq_natCast, decimal_natCast, decimal_natCast] at h
      exact congrArg Int.ofNat (toDigits_ten_injective h)
    | negSucc n =>
      rw [Int.ofNat_eq_natCast, decimal_natCast, decimal_negSucc] at h
      exact absurd h (toDigits_ne_minus _ _)
  | negSucc m =>
    cases n with
    | ofNat n =>
      rw [Int.ofNat_eq_natCast, decimal_natCast, decimal_negSucc] at h
      exact absurd h.symm (toDigits_ne_minus _ _)
    | negSucc n =>
      rw [decimal_negSucc, decimal_negSucc] at h
      have hsucc := toDigits_ten_injective (List.cons.inj h).2
      exact congrArg Int.negSucc (Nat.succ_injective hsucc)

/-- The characters of `%d`: the digits, and one for the sign. -/
def width (n : ℤ) : ℕ := (if n < 0 then 1 else 0) + (Nat.log 10 n.natAbs + 1)

theorem length_toDigits_ten (n : ℕ) : (Nat.toDigits 10 n).length = Nat.log 10 n + 1 := by
  have hle (k : ℕ) : (Nat.toDigits 10 n).length ≤ k+1 ↔ Nat.log 10 n + 1 ≤ k+1 := by
    rw [Nat.length_toDigits_le_iff (by decide) (Nat.succ_pos k), Nat.add_le_add_iff_right,
      ← Nat.lt_succ_iff]
    exact ⟨Nat.log_lt_of_lt_pow' (Nat.succ_ne_zero k),Nat.lt_pow_of_log_lt (by decide)⟩
  have hpos : 0 < (Nat.toDigits 10 n).length := Nat.length_toDigits_pos
  obtain ⟨k,hk⟩ := Nat.exists_eq_succ_of_ne_zero hpos.ne'
  refine le_antisymm ((hle _).mpr le_rfl) ?_
  rw [hk]
  exact (hle k).mp hk.le

theorem length_decimal (n : ℤ) : (decimal n).length = width n := by
  cases n with
  | ofNat m =>
    rw [Int.ofNat_eq_natCast, decimal_natCast, length_toDigits_ten, width,
      if_neg (Int.natCast_nonneg m).not_gt, Nat.zero_add, Int.natAbs_natCast]
  | negSucc m =>
    rw [decimal_negSucc, List.length_cons, length_toDigits_ten, width,
      if_pos (Int.negSucc_lt_zero m), Int.natAbs_negSucc, Nat.add_comm]

/-- A number ends where the text after it does not continue it. -/
theorem decimal_append_inj {m n : ℤ} {t u : List Char} (ht : ∀ c ∈ t.head?, ¬ Numeral c)
    (hu : ∀ c ∈ u.head?, ¬ Numeral c) (h : decimal m ++ t = decimal n ++ u) : m = n ∧ t = u := by
  have hread (k : ℤ) {r : List Char} (hr : ∀ c ∈ r.head?, ¬ Numeral c) :
      (decimal k ++ r).takeWhile (fun c => decide (Numeral c)) = decimal k := by
    rw [List.takeWhile_append_of_pos fun c hc => decide_eq_true (decimal_digits k c hc)]
    cases r with
    | nil => simp
    | cons c r => rw [List.takeWhile_cons_of_neg (by simpa using hr c), List.append_nil]
  have hdecimal : decimal m = decimal n := by
    rw [← hread m ht, h, hread n hu]
  refine ⟨decimal_injective hdecimal,?_⟩
  rw [hdecimal] at h
  exact List.append_cancel_left h

namespace Json

mutual

/-- The text without blanks. -/
def text : Json → List Char
  | .int n => decimal n
  | .arr vs => '[' :: (itemsText vs ++ [']'])

def itemsText : List Json → List Char
  | [] => []
  | [v] => v.text
  | v :: w :: vs => v.text ++ ',' :: itemsText (w :: vs)

end

def Blank (c : Char) : Prop := c = ' ' ∨ c = '\t' ∨ c = '\n' ∨ c = '\r'

instance : DecidablePred Blank := fun _ => inferInstanceAs (Decidable (_ ∨ _))

mutual

inductive Renders : Json → List Char → Prop
  | int (n : ℤ) : Renders (.int n) (decimal n)
  | arr {vs : List Json} {t : List Char} (h : RendersItems vs t) :
      Renders (.arr vs) ('[' :: (t ++ [']']))

/-- The items of an array, each with blanks around it and a comma between two. -/
inductive RendersItems : List Json → List Char → Prop
  | nil {w : List Char} (hw : ∀ c ∈ w, Blank c) : RendersItems [] w
  | single {v : Json} {w t w' : List Char} (hw : ∀ c ∈ w, Blank c) (h : Renders v t)
      (hw' : ∀ c ∈ w', Blank c) : RendersItems [v] (w ++ (t ++ w'))
  | cons {v v' : Json} {vs : List Json} {w t w' u : List Char} (hw : ∀ c ∈ w, Blank c)
      (h : Renders v t) (hw' : ∀ c ∈ w', Blank c) (hrest : RendersItems (v' :: vs) u) :
      RendersItems (v :: v' :: vs) (w ++ (t ++ (w' ++ ',' :: u)))

end

/-- A text starts with a bracket or with a number, so it closes nothing. -/
theorem text_head (v : Json) : ∃ c t, v.text = c :: t ∧ c ≠ ']' := by
  cases v with
  | int n =>
    obtain ⟨c,t,ht⟩ := List.exists_cons_of_ne_nil (decimal_ne_nil n)
    refine ⟨c,t,ht,?_⟩
    rintro rfl
    exact absurd (decimal_digits n ']' (ht ▸ List.mem_cons_self)) (by decide)
  | arr vs => exact ⟨'[',_,rfl,by decide⟩

theorem int_ne_arr_append (n : ℤ) (vs : List Json) (t u : List Char) :
    (int n).text ++ t ≠ (arr vs).text ++ u := by
  intro h
  obtain ⟨c,r,hc⟩ := List.exists_cons_of_ne_nil (decimal_ne_nil n)
  have hnum : Numeral c := decimal_digits n c (hc ▸ List.mem_cons_self)
  rw [text, text, hc, List.cons_append, List.cons_append] at h
  rw [(List.cons.inj h).1] at hnum
  exact absurd hnum (by decide)

theorem close_ne_itemsText (v : Json) (vs : List Json) (t u : List Char) :
    ']' :: t ≠ itemsText (v :: vs) ++ u := by
  intro h
  obtain ⟨c,r,hc,hne⟩ := v.text_head
  have hhead : (itemsText (v :: vs)).head? = some c := by
    cases vs <;> simp [itemsText, hc]
  obtain ⟨r',hr'⟩ := List.head?_eq_some_iff.mp hhead
  rw [hr', List.cons_append] at h
  exact hne (List.cons.inj h).1.symm

mutual

/-- Where a value ends is fixed by its text, unless a number is followed by one. -/
theorem text_append_inj {t u : List Char} (ht : ∀ c ∈ t.head?, ¬ Numeral c)
    (hu : ∀ c ∈ u.head?, ¬ Numeral c) :
    (v w : Json) → v.text ++ t = w.text ++ u → v = w ∧ t = u
  | .int m, .int n, h => by
    obtain ⟨rfl,hrest⟩ := decimal_append_inj ht hu h
    exact ⟨rfl,hrest⟩
  | .int m, .arr ws, h => absurd h (int_ne_arr_append m ws t u)
  | .arr vs, .int n, h => absurd h.symm (int_ne_arr_append n vs u t)
  | .arr vs, .arr ws, h => by
    have hitems : itemsText vs ++ ']' :: t = itemsText ws ++ ']' :: u := by
      simpa [text] using h
    obtain ⟨rfl,hrest⟩ := itemsText_append_inj vs ws t u hitems
    exact ⟨rfl,hrest⟩

theorem itemsText_append_inj : (vs ws : List Json) → (t u : List Char) →
    itemsText vs ++ ']' :: t = itemsText ws ++ ']' :: u → vs = ws ∧ t = u
  | [], [], t, u, h => ⟨rfl,(List.cons.inj h).2⟩
  | [], w :: ws, t, u, h => absurd h (close_ne_itemsText w ws t _)
  | v :: vs, [], t, u, h => absurd h.symm (close_ne_itemsText v vs u _)
  | [v], [w], t, u, h => by
    obtain ⟨rfl,hrest⟩ := text_append_inj (by simp; decide) (by simp; decide) v w h
    exact ⟨rfl,(List.cons.inj hrest).2⟩
  | [v], w :: w' :: ws, t, u, h => by
    rw [itemsText, itemsText, List.append_assoc] at h
    obtain ⟨-,hrest⟩ := text_append_inj (by simp; decide) (by simp; decide) v w h
    exact absurd (List.cons.inj hrest).1 (by decide)
  | v :: v' :: vs, [w], t, u, h => by
    rw [itemsText, itemsText, List.append_assoc] at h
    obtain ⟨-,hrest⟩ := text_append_inj (by simp; decide) (by simp; decide) v w h
    exact absurd (List.cons.inj hrest).1 (by decide)
  | v :: v' :: vs, w :: w' :: ws, t, u, h => by
    rw [itemsText, itemsText, List.append_assoc, List.append_assoc] at h
    obtain ⟨rfl,hrest⟩ := text_append_inj (by simp; decide) (by simp; decide) v w h
    obtain ⟨hitems,hend⟩ := itemsText_append_inj (v' :: vs) (w' :: ws) t u (List.cons.inj hrest).2
    exact ⟨congrArg (v :: ·) hitems,hend⟩

end

theorem text_injective : Function.Injective text := by
  intro v w h
  exact (text_append_inj (t := []) (u := []) (by simp) (by simp) v w (by simpa using h)).1

/-- The characters of a text that are not blank. -/
def visible (t : List Char) : List Char := t.filter fun c => ¬ Blank c

theorem visible_of_blank {w : List Char} (hw : ∀ c ∈ w, Blank c) : visible w = [] := by
  simpa [visible] using hw

theorem blank_nil : ∀ c ∈ ([] : List Char), Blank c := by simp

theorem visible_append (t u : List Char) : visible (t ++ u) = visible t ++ visible u :=
  List.filter_append ..

theorem visible_cons {c : Char} (hc : ¬ Blank c) (t : List Char) :
    visible (c :: t) = c :: visible t := List.filter_cons_of_pos (by simpa using hc)

theorem visible_decimal (n : ℤ) : visible (decimal n) = decimal n := by
  refine List.filter_eq_self.mpr fun c hc => ?_
  rcases decimal_digits n c hc with rfl | hdigit
  · decide
  · simp only [decide_not, Bool.not_eq_true', decide_eq_false_iff_not]
    rintro (rfl | rfl | rfl | rfl) <;> exact absurd hdigit (by decide)

mutual

theorem Renders.visible_eq {v : Json} {t : List Char} : Renders v t → visible t = v.text
  | .int n => by
    rw [visible_decimal]
    rfl
  | .arr h => by
    rw [visible_cons (by decide), visible_append, h.visible_eq, visible_cons (by decide)]
    rfl

theorem RendersItems.visible_eq {vs : List Json} {t : List Char} :
    RendersItems vs t → visible t = itemsText vs
  | .nil hw => visible_of_blank hw
  | .single hw h hw' => by
    rw [visible_append, visible_append, visible_of_blank hw, visible_of_blank hw', h.visible_eq]
    simp [itemsText]
  | .cons hw h hw' hrest => by
    rw [visible_append, visible_append, visible_append, visible_of_blank hw, visible_of_blank hw',
      visible_cons (by decide), h.visible_eq, hrest.visible_eq]
    rfl

end

/-- A text has only one value. -/
theorem Renders.unique {v w : Json} {t : List Char} (hv : Renders v t) (hw : Renders w t) : v = w :=
  text_injective (hv.visible_eq.symm.trans hw.visible_eq)

mutual

theorem renders_text : (v : Json) → Renders v v.text
  | .int n => .int n
  | .arr vs => .arr (rendersItems_text vs)

theorem rendersItems_text : (vs : List Json) → RendersItems vs (itemsText vs)
  | [] => .nil blank_nil
  | [v] => by
    simpa [itemsText] using RendersItems.single blank_nil (renders_text v) blank_nil
  | v :: w :: vs => by
    simpa [itemsText] using
      RendersItems.cons blank_nil (renders_text v) blank_nil (rendersItems_text (w :: vs))

end

theorem count_visible {c : Char} (hc : ¬ Blank c) (t : List Char) :
    (visible t).count c = t.count c := List.count_filter (by simpa using hc)

theorem itemsText_eq (vs : List Json) : itemsText vs = List.intercalate [','] (vs.map text) := by
  induction vs with
  | nil => rfl
  | cons v vs ih =>
    cases vs with
    | nil => simp [itemsText, List.intercalate]
    | cons w vs => simp [itemsText, ih, List.intercalate_cons_cons]

end Json

section Separated

variable {α : Type*}

/-- A loop over `0..n` that writes `f i` for the selected indices, followed by the
separator unless the index is the last one of the loop. -/
def separated (n : ℕ) (p : ℕ → Bool) (sep : List α) (f : ℕ → List α) : List α :=
  (List.range n).flatMap fun i => if p i then f i ++ (if i+1 < n then sep else []) else []

theorem intercalate_concat (sep : List α) (xs : List (List α)) (x : List α) :
    List.intercalate sep (xs ++ [x]) = xs.flatMap (· ++ sep) ++ x := by
  induction xs with
  | nil => simp
  | cons y ys ih =>
    cases ys with
    | nil => simp [List.intercalate_cons_cons]
    | cons z zs =>
      rw [List.cons_append, List.cons_append, List.intercalate_cons_cons, ← List.cons_append, ih]
      simp

theorem count_intercalate [DecidableEq α] (c : α) (sep : List α) (xs : List (List α)) :
    (List.intercalate sep xs).count c =
      (xs.map fun x => x.count c).sum + (xs.length - 1) * sep.count c := by
  induction xs using List.reverseRecOn with
  | nil => simp
  | append_singleton xs x =>
    rw [intercalate_concat, List.count_append, List.count_flatMap]
    simp [Function.comp_def, List.sum_map_add]
    ring

theorem length_intercalate (sep : List α) (xs : List (List α)) :
    (List.intercalate sep xs).length =
      (xs.map List.length).sum + (xs.length - 1) * sep.length := by
  induction xs using List.reverseRecOn with
  | nil => simp
  | append_singleton xs x =>
    rw [intercalate_concat, List.length_append, List.length_flatMap]
    simp [List.sum_map_add]
    ring

theorem flatMap_if_filter {β : Type*} (xs : List β) (p : β → Bool) (g : β → List α) :
    (xs.flatMap fun i => if p i then g i else []) = (xs.filter p).flatMap g := by
  induction xs with
  | nil => rfl
  | cons x xs ih => by_cases hx : p x <;> simp [hx, ih]

/-- Where the last index of the loop is selected, the separators come out right. -/
theorem separated_eq_intercalate (n : ℕ) (p : ℕ → Bool) (sep : List α) (f : ℕ → List α)
    (hlast : ∀ i < n, p i → p (n-1)) :
    separated n p sep f = List.intercalate sep (((List.range n).filter p).map f) := by
  rw [separated, flatMap_if_filter]
  cases n with
  | zero => rfl
  | succ m =>
    by_cases hm : p m
    · rw [List.range_succ, List.filter_append, List.filter_cons_of_pos hm, List.filter_nil,
        List.flatMap_append, List.map_append, List.map_singleton, intercalate_concat, List.flatMap_map]
      congr 1
      · refine List.flatMap_congr fun i hi => ?_
        have him : i < m := List.mem_range.mp (List.mem_filter.mp hi).1
        rw [if_pos (by omega)]
      · simp
    · have hnone : (List.range (m+1)).filter p = [] := by
        refine List.filter_eq_nil_iff.mpr fun i hi hp => hm ?_
        simpa using hlast i (List.mem_range.mp hi) hp
      rw [hnone]
      rfl

/-- The number of separators the loop writes. -/
def separators (n : ℕ) (p : ℕ → Bool) : ℕ := (List.range n).countP fun i => p i && decide (i+1 < n)

theorem separators_add_last (n : ℕ) (p : ℕ → Bool) :
    separators n p + (if 0 < n ∧ p (n-1) then 1 else 0) = (List.range n).countP p := by
  cases n with
  | zero => rfl
  | succ m =>
    have hinner : (List.range m).countP (fun i => p i && decide (i+1 < m+1)) =
        (List.range m).countP p := by
      refine List.countP_congr fun i hi => ?_
      have him := List.mem_range.mp hi
      simp [him]
    rw [separators, List.range_succ, List.countP_append, List.countP_append, hinner]
    simp [List.countP_singleton]

theorem separators_true (n : ℕ) : separators n (fun _ => true) = n - 1 := by
  have h := separators_add_last n fun _ => true
  simp only [and_true, List.countP_true, List.length_range] at h
  split_ifs at h <;> omega

theorem count_separated [DecidableEq α] (c : α) (n : ℕ) (p : ℕ → Bool) (sep : List α)
    (f : ℕ → List α) :
    (separated n p sep f).count c = (((List.range n).filter p).map fun i => (f i).count c).sum +
      separators n p * sep.count c := by
  rw [separated, separators]
  induction List.range n with
  | nil => simp
  | cons i is ih =>
    rw [List.flatMap_cons, List.count_append, ih, List.countP_cons]
    by_cases hp : p i <;> by_cases hi : i+1 < n <;> simp [hp, hi] <;> ring

theorem length_separated (n : ℕ) (p : ℕ → Bool) (sep : List α) (f : ℕ → List α) :
    (separated n p sep f).length = (((List.range n).filter p).map fun i => (f i).length).sum +
      separators n p * sep.length := by
  rw [separated, separators]
  induction List.range n with
  | nil => simp
  | cons i is ih =>
    rw [List.flatMap_cons, List.length_append, ih, List.countP_cons]
    by_cases hp : p i <;> by_cases hi : i+1 < n <;> simp [hp, hi] <;> ring

end Separated

namespace Json

theorem count_open_arr (vs : List Json) :
    (arr vs).text.count '[' = 1 + (vs.map fun v => v.text.count '[').sum := by
  have hclose : [']'].count '[' = 0 := rfl
  rw [text, List.count_cons_self, List.count_append, itemsText_eq, count_intercalate, hclose]
  simp [Function.comp_def, add_comm]

theorem count_comma_arr (vs : List Json) :
    (arr vs).text.count ',' = (vs.map fun v => v.text.count ',').sum + (vs.length - 1) := by
  have hclose : [']'].count ',' = 0 := rfl
  rw [text, List.count_cons_of_ne (by decide), List.count_append, itemsText_eq, count_intercalate,
    hclose]
  simp [Function.comp_def]

theorem length_int (n : ℤ) : (int n).text.length = width n := length_decimal n

/-- Two brackets, the values and the commas between them. -/
theorem length_arr (vs : List Json) :
    (arr vs).text.length = 2 + (vs.map fun v => v.text.length).sum + (vs.length - 1) := by
  rw [text, List.length_cons, List.length_append, itemsText_eq, length_intercalate]
  simp only [List.map_map, List.length_map, List.length_singleton, mul_one, Function.comp_def]
  omega

theorem count_int {c : Char} (hminus : c ≠ '-') (hdigit : ¬ c.isDigit) (n : ℤ) :
    (int n).text.count c = 0 := by
  refine List.count_eq_zero.mpr fun hc => ?_
  rcases decimal_digits n c hc with h | h
  · exact hminus h
  · exact hdigit h

end Json
end SketchMonitor
