import SketchMonitor.FiniteSums
import SketchMonitor.JsonText
import SketchMonitor.Param
import SketchMonitor.Runs

/-!
# The Distribution member of the report

`writeDist` decides the comma after a pair from the loop index, but writes only
the pairs of positive entries, and it never checks the size of its buffer. The text
is compared with the array it should spell out by counting its opening brackets and
its commas.
-/

namespace SketchMonitor

section Sprintf

variable (capacity : ℕ)

/-- `offset += sprintf(str + offset, ...)`: the characters and the terminator lie in the
buffer, and the sum is an `int`. -/
def sprintf (text piece : List Char) : Option (List Char) :=
  let offset := text.length + piece.length
  if offset < capacity ∧ offset < 2^31 then some (text ++ piece) else none

/-- Calls in a row write their texts in a row, provided that the whole fits. -/
theorem run_sprintf (text piece : List Char) (pieces : List (List Char)) :
    Runs.run (sprintf capacity) text (piece :: pieces) =
      let all := text ++ (piece :: pieces).flatten
      if all.length < capacity ∧ all.length < 2^31 then some all else none := by
  induction pieces generalizing text piece with
  | nil => simp [sprintf]
  | cons next pieces ih =>
    rw [Runs.run_cons, sprintf]
    split_ifs with hfits
    · rw [Option.bind_some, ih]
      simp only [List.flatten_cons, List.append_assoc]
    · rw [Option.bind_none]
      refine (if_neg fun hall => hfits ?_).symm
      simp only [List.flatten_cons, List.length_append] at hall
      omega

end Sprintf

/-- `MAX_LENGTH`, the size of the buffers that `makeJSON` and `sendMsg` allocate. -/
def maxLength : ℕ := 500000

/-- The iterations of a loop that an `int` copy of a `size()` bounds. -/
def intSize (n : ℕ) : ℕ := (toInt32 n).toNat

/-- `sprintf` with `"[%d,%d]"`. -/
def writePair (j : ℕ) (v : ℤ) : List Char := '[' :: (decimal j ++ ',' :: (decimal v ++ [']']))

/-- The texts of the calls of `sprintf` in the loop over `tmp`, in order. -/
def tmpPieces (tmp : List ℤ) : List (List Char) :=
  let tsize := toInt32 tmp.length
  (List.range tsize.toNat).flatMap fun j =>
    if tmp.getD j 0 > 0 then
      writePair j (tmp.getD j 0) :: (if (j : ℤ) < tsize - 1 then [[',']] else [])
    else []

def distLabel : List Char := "\"Distribution\":".toList

/-- The texts of all calls. -/
def distPieces (dist : List (List ℤ)) : List (List Char) :=
  let dsize := toInt32 dist.length
  (distLabel ++ ['[']) :: ((List.range dsize.toNat).flatMap (fun i =>
    ['['] :: (tmpPieces (dist.getD i []) ++
      [']'] :: (if (i : ℤ) < dsize - 1 then [[',']] else []))) ++ [[']']])

/-- What `str` holds at the end; `none` when a call writes outside it. -/
def writeDist (capacity : ℕ) (dist : List (List ℤ)) : Option (List Char) :=
  Runs.run (sprintf capacity) [] (distPieces dist)

/-- The text of the loop over `tmp`. -/
def tmpText (tmp : List ℤ) : List Char := (tmpPieces tmp).flatten

/-- The text behind the name of the member. -/
def distArray (dist : List (List ℤ)) : List Char :=
  '[' :: (separated (intSize dist.length) (fun _ => true) [',']
    (fun i => '[' :: (tmpText (dist.getD i []) ++ [']'])) ++ [']'])

/-- The entry at `j` is written. -/
def isPositive (tmp : List ℤ) (j : ℕ) : Bool := tmp.getD j 0 > 0

/-- The pairs of one client, in increasing order of the index. -/
def pairsJson (tmp : List ℤ) : Json :=
  .arr (((List.range tmp.length).filter (isPositive tmp)).map fun (j : ℕ) =>
    .arr [.int j,.int (tmp.getD j 0)])

/-- What the member should hold: one array for each client in order. -/
def distJson (dist : List (List ℤ)) : Json := .arr (dist.map pairsJson)

theorem lt_intSize {n i : ℕ} (hi : i < intSize n) : (i : ℤ) < toInt32 n - 1 ↔ i+1 < intSize n := by
  unfold intSize at *
  omega

/-- A comma after all but the last round. -/
theorem comma_eq {n i : ℕ} (hi : i ∈ List.range (intSize n)) :
    (if (i : ℤ) < toInt32 n - 1 then [[',']] else []) = if i+1 < intSize n then [[',']] else [] :=
  if_congr (lt_intSize (List.mem_range.mp hi)) rfl rfl

theorem tmpText_eq (tmp : List ℤ) :
    tmpText tmp = separated (intSize tmp.length) (isPositive tmp) [','] fun j =>
      writePair j (tmp.getD j 0) := by
  rw [tmpText, tmpPieces, ← List.flatMap_id, List.flatMap_assoc]
  refine List.flatMap_congr fun j hj => ?_
  rw [comma_eq hj]
  by_cases hpos : tmp.getD j 0 > 0
  · have hselected : isPositive tmp j := decide_eq_true hpos
    rw [if_pos hpos, if_pos hselected]
    split_ifs <;> simp
  · have hselected : ¬ isPositive tmp j := by simpa [isPositive] using hpos
    rw [if_neg hpos, if_neg hselected]
    rfl

theorem flatMap_bracketed (pieces tail : List (List Char)) :
    List.flatMap id (['['] :: (pieces ++ [']'] :: tail)) =
      '[' :: (pieces.flatten ++ [']']) ++ tail.flatten := by
  simp

theorem label_bracketed (label items : List Char) :
    label ++ ['['] ++ (items ++ [[']']].flatten) = label ++ '[' :: (items ++ [']']) := by
  simp

/-- All texts together. -/
theorem flatten_distPieces (dist : List (List ℤ)) :
    (distPieces dist).flatten = distLabel ++ distArray dist := by
  have hloop : ((List.range (intSize dist.length)).flatMap fun i =>
      ['['] :: (tmpPieces (dist.getD i []) ++
        [']'] :: (if (i : ℤ) < toInt32 dist.length - 1 then [[',']] else []))).flatten =
      separated (intSize dist.length) (fun _ => true) [',']
        (fun i => '[' :: (tmpText (dist.getD i []) ++ [']'])) := by
    rw [← List.flatMap_id, List.flatMap_assoc]
    refine List.flatMap_congr fun i hi => ?_
    rw [comma_eq hi, flatMap_bracketed, if_pos rfl]
    split_ifs
    · rfl
    · rfl
  rw [distPieces, List.flatten_cons, List.flatten_append, ← intSize, hloop, label_bracketed,
    distArray]

theorem intSize_le (n : ℕ) : intSize n ≤ n := by
  unfold intSize toInt32
  omega

theorem intSize_eq_iff (n : ℕ) : intSize n = n ↔ n < 2^31 := by
  unfold intSize toInt32
  omega

/-- The pairs a loop of `n` iterations writes. -/
def pairs (tmp : List ℤ) (n : ℕ) : ℕ := (List.range n).countP (isPositive tmp)

/-- What `sprintf` writes for a pair is its compact text. -/
theorem text_pair (j : ℕ) (v : ℤ) : (Json.arr [.int j,.int v]).text = writePair j v := by
  simp [Json.text, Json.itemsText, writePair]

theorem count_writePair (j : ℕ) (v : ℤ) :
    (writePair j v).count '[' = 1 ∧ (writePair j v).count ',' = 1 := by
  have hopen (n : ℤ) := Json.count_int (c := '[') (by decide) (by decide) n
  have hcomma (n : ℤ) := Json.count_int (c := ',') (by decide) (by decide) n
  rw [← text_pair, Json.count_open_arr, Json.count_comma_arr]
  simp [hopen, hcomma]

theorem count_tmpText (tmp : List ℤ) :
    (tmpText tmp).count '[' = pairs tmp (intSize tmp.length) ∧
      (tmpText tmp).count ',' = pairs tmp (intSize tmp.length) +
        separators (intSize tmp.length) (isPositive tmp) := by
  rw [tmpText_eq, count_separated, count_separated]
  simp [count_writePair, pairs, List.countP_eq_length_filter]

theorem count_distArray (dist : List (List ℤ)) :
    (distArray dist).count '[' = 1 + ∑ i ∈ Finset.range (intSize dist.length),
        (1 + pairs (dist.getD i []) (intSize (dist.getD i []).length)) ∧
      (distArray dist).count ',' = ∑ i ∈ Finset.range (intSize dist.length),
        (pairs (dist.getD i []) (intSize (dist.getD i []).length) +
          separators (intSize (dist.getD i []).length) (isPositive (dist.getD i []))) +
        separators (intSize dist.length) fun _ => true := by
  rw [distArray, List.count_cons, List.count_cons, List.count_append, List.count_append,
    count_separated, count_separated, List.filter_true, FiniteSums.sum_map_range,
    FiniteSums.sum_map_range]
  simp [count_tmpText, add_comm]

theorem count_pairsJson (tmp : List ℤ) :
    (pairsJson tmp).text.count '[' = 1 + pairs tmp tmp.length ∧
      (pairsJson tmp).text.count ',' = pairs tmp tmp.length + (pairs tmp tmp.length - 1) := by
  rw [pairsJson, Json.count_open_arr, Json.count_comma_arr]
  simp [text_pair, count_writePair, Function.comp_def, pairs, List.countP_eq_length_filter]

/-- The compact text of the array, counted in the same way. -/
theorem count_distJson (dist : List (List ℤ)) :
    (distJson dist).text.count '[' = 1 + ∑ i ∈ Finset.range dist.length,
        (1 + pairs (dist.getD i []) (dist.getD i []).length) ∧
      (distJson dist).text.count ',' = ∑ i ∈ Finset.range dist.length,
        (pairs (dist.getD i []) (dist.getD i []).length +
          (pairs (dist.getD i []) (dist.getD i []).length - 1)) + (dist.length - 1) := by
  rw [distJson, Json.count_open_arr, Json.count_comma_arr, List.map_map, List.map_map,
    List.length_map, FiniteSums.sum_map_eq_sum_range dist [], FiniteSums.sum_map_eq_sum_range dist []]
  simp only [Function.comp_apply, count_pairsJson]
  exact ⟨trivial,trivial⟩

theorem pairs_le {n m : ℕ} (tmp : List ℤ) (h : n ≤ m) : pairs tmp n ≤ pairs tmp m := by
  obtain ⟨k,rfl⟩ := Nat.exists_eq_add_of_le h
  rw [pairs, pairs, List.range_add, List.countP_append]
  exact Nat.le_add_right _ _

theorem pairs_lt {n m j : ℕ} {tmp : List ℤ} (hn : n ≤ j) (hm : j < m) (hj : isPositive tmp j) :
    pairs tmp n < pairs tmp m := by
  have hsucc : pairs tmp (j+1) = pairs tmp j + 1 := by
    simp [pairs, List.range_succ, hj]
  have h₁ := pairs_le tmp hn
  have h₂ : pairs tmp (j+1) ≤ pairs tmp m := pairs_le tmp hm
  omega

/-- The loop over `tmp` reaches every positive entry, and the last one it reaches is
positive unless none is. -/
def TailOk (tmp : List ℤ) : Prop :=
  ∀ j, 0 < tmp.getD j 0 → j < intSize tmp.length ∧ 0 < tmp.getD (intSize tmp.length - 1) 0

/-- The member is a JSON text of the array of pairs, all of it in the buffer. -/
def WellFormed (capacity : ℕ) (dist : List (List ℤ)) : Prop :=
  ∃ t, writeDist capacity dist = some (distLabel ++ t) ∧ Json.Renders (distJson dist) t

/-- A number of characters that fits the buffer together with the terminator, and an `int`. -/
def FitsBuffer (capacity n : ℕ) : Prop := n + 1 ≤ capacity ∧ n < 2^31

theorem writeDist_eq_some_iff {dist : List (List ℤ)} {capacity : ℕ} {t : List Char} :
    writeDist capacity dist = some t ↔ t = distLabel ++ distArray dist ∧
      FitsBuffer capacity (distLabel ++ distArray dist).length := by
  have hflat := flatten_distPieces dist
  rw [distPieces] at hflat
  rw [writeDist, distPieces, run_sprintf, List.nil_append, hflat]
  simp only [Option.ite_none_right_eq_some, Option.some.injEq]
  rw [and_comm, eq_comm (a := t)]
  rfl

theorem WellFormed.text {dist : List (List ℤ)} {capacity : ℕ} (h : WellFormed capacity dist) :
    Json.Renders (distJson dist) (distArray dist) ∧
      FitsBuffer capacity (distLabel ++ distArray dist).length := by
  obtain ⟨t,hwrite,hrender⟩ := h
  obtain ⟨htext,hfits⟩ := writeDist_eq_some_iff.mp hwrite
  obtain rfl : t = distArray dist := List.append_cancel_left htext
  exact ⟨hrender,hfits⟩

theorem WellFormed.counts {dist : List (List ℤ)} {capacity : ℕ} (h : WellFormed capacity dist)
    {c : Char} (hc : ¬ Json.Blank c) :
    (distArray dist).count c = (distJson dist).text.count c := by
  rw [← h.text.1.visible_eq, Json.count_visible hc]

theorem pairs_sub_one_le_separators (tmp : List ℤ) (n : ℕ) :
    pairs tmp n - 1 ≤ separators n (isPositive tmp) := by
  have h := separators_add_last n (isPositive tmp)
  change _ = pairs tmp n at h
  split_ifs at h <;> omega

/-- As many separators as pairs, less one, means that the last index is selected. -/
theorem isPositive_last {tmp : List ℤ} {n : ℕ} (hpairs : 0 < pairs tmp n)
    (hsep : separators n (isPositive tmp) = pairs tmp n - 1) : isPositive tmp (n-1) := by
  have h := separators_add_last n (isPositive tmp)
  change _ = pairs tmp n at h
  split_ifs at h with hlast
  · exact hlast.2
  · omega

theorem tailOk_of_counts {tmp : List ℤ}
    (hpairs : pairs tmp (intSize tmp.length) = pairs tmp tmp.length)
    (hsep : separators (intSize tmp.length) (isPositive tmp) = pairs tmp (intSize tmp.length) - 1) :
    TailOk tmp := by
  intro j hj
  have hpos : isPositive tmp j := decide_eq_true hj
  have hlen : j < tmp.length := by
    by_contra hge
    rw [List.getD_eq_default _ _ (not_lt.mp hge)] at hj
    exact lt_irrefl 0 hj
  have hlt : j < intSize tmp.length := by
    by_contra hge
    exact (pairs_lt (not_lt.mp hge) hlen hpos).ne hpairs
  have hsome : 0 < pairs tmp (intSize tmp.length) :=
    (Nat.zero_le _).trans_lt (pairs_lt (Nat.zero_le j) hlt hpos)
  exact ⟨hlt,of_decide_eq_true (isPositive_last hsome hsep)⟩

theorem WellFormed.tailOk {dist : List (List ℤ)} {capacity : ℕ} (h : WellFormed capacity dist) :
    dist.length < 2^31 ∧ ∀ tmp ∈ dist, TailOk tmp := by
  have hopen := h.counts (c := '[') (by decide)
  have hcomma := h.counts (c := ',') (by decide)
  rw [(count_distArray dist).1, (count_distJson dist).1, Nat.add_left_cancel_iff,
    FiniteSums.sum_range_eq_iff_of_le (intSize_le _)
      (fun i => Nat.add_le_add_left (pairs_le _ (intSize_le _)) 1) (fun i => by omega)] at hopen
  obtain ⟨hsize,hpairs⟩ := hopen
  rw [hsize] at hpairs
  have hsame (i) (hi : i < dist.length) := Nat.add_left_cancel (hpairs i hi)
  rw [(count_distArray dist).2, (count_distJson dist).2, hsize, separators_true,
    Nat.add_right_cancel_iff, eq_comm, Finset.sum_eq_sum_iff_of_le] at hcomma
  · refine ⟨(intSize_eq_iff _).mp hsize,fun tmp htmp => ?_⟩
    obtain ⟨i,hi,rfl⟩ := List.getElem_of_mem htmp
    have hcount := hcomma i (Finset.mem_range.mpr hi)
    have hpair := hsame i hi
    rw [List.getD_eq_getElem _ _ hi] at hcount hpair
    exact tailOk_of_counts hpair (by omega)
  · intro i hi
    have hpair := hsame i (Finset.mem_range.mp hi)
    have hle := pairs_sub_one_le_separators (dist.getD i []) (intSize (dist.getD i []).length)
    omega

theorem filter_of_tailOk {tmp : List ℤ} (h : TailOk tmp) :
    (List.range (intSize tmp.length)).filter (isPositive tmp) =
      (List.range tmp.length).filter (isPositive tmp) := by
  obtain ⟨k,hk⟩ := Nat.exists_eq_add_of_le (intSize_le tmp.length)
  conv_rhs => rw [hk]
  rw [List.range_add, List.filter_append, List.self_eq_append_right, List.filter_eq_nil_iff]
  intro j hj hpos
  obtain ⟨i,-,rfl⟩ := List.mem_map.mp hj
  have hlt := (h _ (of_decide_eq_true hpos)).1
  omega

/-- The text of one client's array. -/
theorem text_pairsJson {tmp : List ℤ} (h : TailOk tmp) :
    (pairsJson tmp).text = '[' :: (tmpText tmp ++ [']']) := by
  have hlast : ∀ j < intSize tmp.length, isPositive tmp j → isPositive tmp (intSize tmp.length - 1) :=
    fun j _ hj => decide_eq_true (h j (of_decide_eq_true hj)).2
  rw [tmpText_eq, separated_eq_intercalate _ _ _ _ hlast, filter_of_tailOk h, pairsJson, Json.text,
    Json.itemsText_eq, List.map_map]
  simp only [Function.comp_def, text_pair]

theorem distArray_of_tailOk {dist : List (List ℤ)} (hlen : dist.length < 2^31)
    (htail : ∀ tmp ∈ dist, TailOk tmp) : distArray dist = (distJson dist).text := by
  have htext : dist.map (fun tmp => '[' :: (tmpText tmp ++ [']'])) =
      (dist.map pairsJson).map Json.text := by
    rw [List.map_map]
    exact List.map_congr_left fun tmp htmp => (text_pairsJson (htail tmp htmp)).symm
  rw [distArray, separated_eq_intercalate _ _ _ _ fun _ _ _ => rfl, List.filter_true,
    (intSize_eq_iff _).mpr hlen,
    FiniteSums.map_range_getD dist [] fun tmp => '[' :: (tmpText tmp ++ [']']), htext, distJson,
    Json.text, Json.itemsText_eq]

/-- The characters of one client's array: its brackets, the pairs and the commas between them. -/
def pairsLength (tmp : List ℤ) : ℕ :=
  2 + (((List.range tmp.length).filter (isPositive tmp)).map fun (j : ℕ) =>
    3 + width j + width (tmp.getD j 0)).sum + (pairs tmp tmp.length - 1)

/-- The characters of the member: the label, the brackets, the arrays and the commas between
them. -/
def distJsonLength (dist : List (List ℤ)) : ℕ :=
  distLabel.length + 2 + (dist.map pairsLength).sum + (dist.length - 1)

theorem length_pairsJson (tmp : List ℤ) : (pairsJson tmp).text.length = pairsLength tmp := by
  have hpair (j : ℕ) : (Json.arr [.int j,.int (tmp.getD j 0)]).text.length =
      3 + width j + width (tmp.getD j 0) := by
    rw [Json.length_arr]
    simp only [Json.length_int, List.map_cons, List.map_nil, List.sum_cons, List.sum_nil,
      List.length_cons, List.length_nil]
    omega
  rw [pairsJson, Json.length_arr, List.map_map, List.length_map, pairsLength]
  simp only [Function.comp_def, hpair, pairs, List.countP_eq_length_filter]

theorem length_distJson (dist : List (List ℤ)) :
    (distLabel ++ (distJson dist).text).length = distJsonLength dist := by
  have hclients : dist.map (fun tmp => (pairsJson tmp).text.length) = dist.map pairsLength :=
    List.map_congr_left fun tmp _ => length_pairsJson tmp
  rw [distJson, List.length_append, Json.length_arr, List.map_map, List.length_map]
  simp only [Function.comp_def, hclients, distJsonLength]
  omega

theorem length_le_distJsonLength (dist : List (List ℤ)) : dist.length ≤ distJsonLength dist := by
  have hone : ∀ x ∈ dist.map pairsLength, 1 ≤ x := by
    intro x hx
    obtain ⟨tmp,-,rfl⟩ := List.mem_map.mp hx
    unfold pairsLength
    omega
  have hsum := List.length_le_sum_of_one_le _ hone
  rw [List.length_map] at hsum
  unfold distJsonLength
  omega

/-- The member is well formed exactly when the last entry that the loop over a client reaches
is positive, unless none is, and the text fits the buffer and the `int` offset. -/
theorem wellFormed_iff (capacity : ℕ) (dist : List (List ℤ)) :
    WellFormed capacity dist ↔
      (∀ tmp ∈ dist, TailOk tmp) ∧ FitsBuffer capacity (distJsonLength dist) := by
  constructor
  · intro h
    obtain ⟨hlen,htail⟩ := h.tailOk
    have hfits := h.text.2
    rw [distArray_of_tailOk hlen htail, length_distJson] at hfits
    exact ⟨htail,hfits⟩
  · rintro ⟨htail,hfits⟩
    have hlen : dist.length < 2^31 := (length_le_distJsonLength dist).trans_lt hfits.2
    refine ⟨(distJson dist).text,writeDist_eq_some_iff.mpr ?_,Json.renders_text _⟩
    rw [distArray_of_tailOk hlen htail, length_distJson]
    exact ⟨rfl,hfits⟩

/-- Five flows of size one and none of size two: the text ends in `[1,5],]]`. -/
theorem wellFormed_fails_trailing_zero : ¬ WellFormed maxLength [[0,5,0]] := by
  have htail : ¬ TailOk [0,5,0] := fun h => absurd (h 1 (by simp)) (by decide)
  exact fun h => htail (h.tailOk.2 _ (List.mem_singleton_self _))

end SketchMonitor
