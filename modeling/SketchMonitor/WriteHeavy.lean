import SketchMonitor.ProcessData
import SketchMonitor.WriteDist

/-!
# The HeavyPart member of the report

`writeHeavy` writes entry after entry into a buffer whose size it never checks. Whatever the
buffer holds when all calls of `sprintf` stay inside is the compact text of an array of 7-element
arrays, and such a text is read back in only one way. So the member is faithful exactly for the
lists whose text fits.
-/

namespace SketchMonitor

def heavyLabel : List Char := "\"HeavyPart\":".toList

/-- `sprintf` with `"[%u,%u,%d,%d,%d,%d,%d]"`: the count is read as an `int`, and the
flag is promoted to one. -/
def writeEntry (quintet : FiveTuple) (packet : PktDat) : List Char :=
  '[' :: (decimal quintet.srcIP.toNat ++ ',' :: (decimal quintet.dstIP.toNat ++
    ',' :: (decimal quintet.srcPort.toNat ++ ',' :: (decimal quintet.dstPort.toNat ++
    ',' :: (decimal quintet.protocal.toNat ++ ',' :: (decimal (toInt32 packet.val.toNat) ++
    ',' :: (decimal packet.swapFlag.toNat ++ [']'])))))))

/-- What a read outside the vector would give; no iteration reads there. -/
def noEntry : FiveTuple × PktDat := (⟨0,0,0,0,0⟩,⟨0,false⟩)

/-- The texts of the calls of `sprintf` in the loop, in order. -/
def entryPieces (heavyPart : List (FiveTuple × PktDat)) : List (List Char) :=
  let hsize := toInt32 heavyPart.length
  (List.range hsize.toNat).flatMap fun i =>
    let entry := heavyPart.getD i noEntry
    writeEntry entry.1 entry.2 :: (if (i : ℤ) < hsize - 1 then [[',']] else [])

/-- The texts of all calls. -/
def heavyPieces (heavyPart : List (FiveTuple × PktDat)) : List (List Char) :=
  (heavyLabel ++ ['[']) :: (entryPieces heavyPart ++ [[']',',']])

/-- What `str` holds at the end; `none` when a call writes outside it. -/
def writeHeavy (capacity : ℕ) (heavyPart : List (FiveTuple × PktDat)) : Option (List Char) :=
  Runs.run (sprintf capacity) [] (heavyPieces heavyPart)

/-- An entry as the array that the report documents. -/
def entryJson (entry : FiveTuple × PktDat) : Json :=
  .arr [.int entry.1.srcIP.toNat,.int entry.1.dstIP.toNat,.int entry.1.srcPort.toNat,
    .int entry.1.dstPort.toNat,.int entry.1.protocal.toNat,.int entry.2.val.toNat,
    .int entry.2.swapFlag.toNat]

def heavyJson (heavyPart : List (FiveTuple × PktDat)) : Json := .arr (heavyPart.map entryJson)

/-- Every count is below 2^31. -/
def CountsOk (heavyPart : List (FiveTuple × PktDat)) : Prop :=
  ∀ entry ∈ heavyPart, entry.2.val.toNat < 2^31

theorem entryJson_injective : Function.Injective entryJson := by
  rintro ⟨⟨a,b,c,d,e⟩,⟨v,flag⟩⟩ ⟨⟨a',b',c',d',e'⟩,⟨v',flag'⟩⟩ h
  simp only [entryJson, Json.arr.injEq, List.cons.injEq, Json.int.injEq, Nat.cast_inj,
    UInt32.toNat_inj, UInt16.toNat_inj, UInt8.toNat_inj, and_true] at h
  obtain ⟨rfl,rfl,rfl,rfl,rfl,rfl,hflag⟩ := h
  cases flag <;> cases flag' <;> first | rfl | cases hflag

theorem heavyJson_injective : Function.Injective heavyJson := by
  intro hp hp' h
  exact List.map_injective_iff.mpr entryJson_injective (Json.arr.inj h)

theorem text_entryJson {entry : FiveTuple × PktDat} (h : entry.2.val.toNat < 2^31) :
    (entryJson entry).text = writeEntry entry.1 entry.2 := by
  have hval : toInt32 entry.2.val.toNat = entry.2.val.toNat := toInt32_of_bounds (by omega) (by omega)
  simp [entryJson, Json.text, Json.itemsText, writeEntry, hval]

/-- The entries that the loop over the `int` copy of `size()` reaches. -/
def reached (heavyPart : List (FiveTuple × PktDat)) : List (FiveTuple × PktDat) :=
  heavyPart.take (intSize heavyPart.length)

theorem entryPieces_eq (heavyPart : List (FiveTuple × PktDat)) :
    entryPieces heavyPart = (List.range (intSize heavyPart.length)).flatMap fun i =>
      writeEntry (heavyPart.getD i noEntry).1 (heavyPart.getD i noEntry).2 ::
        (if i+1 < intSize heavyPart.length then [[',']] else []) := by
  refine List.flatMap_congr fun i hi => ?_
  have hiff := lt_intSize (List.mem_range.mp hi)
  by_cases hlast : i+1 < intSize heavyPart.length
  · simp only [if_pos hlast, if_pos (hiff.mpr hlast)]
  · simp only [if_neg hlast, if_neg (mt hiff.mp hlast)]

theorem getD_reached (heavyPart : List (FiveTuple × PktDat)) {i : ℕ}
    (hi : i < intSize heavyPart.length) :
    (reached heavyPart).getD i noEntry = heavyPart.getD i noEntry := by
  rw [reached, List.getD_eq_getElem?_getD, List.getElem?_take_of_lt hi, List.getD_eq_getElem?_getD]

theorem length_reached (heavyPart : List (FiveTuple × PktDat)) :
    (reached heavyPart).length = intSize heavyPart.length := by
  rw [reached, List.length_take, Nat.min_eq_left (intSize_le _)]

/-- The loop writes the entries reached, with a comma between two of them. -/
theorem flatten_entryPieces (heavyPart : List (FiveTuple × PktDat)) :
    (entryPieces heavyPart).flatten =
      List.intercalate [','] ((reached heavyPart).map fun entry => writeEntry entry.1 entry.2) := by
  have hloop : (entryPieces heavyPart).flatten =
      separated (intSize heavyPart.length) (fun _ => true) [','] fun i =>
        writeEntry ((reached heavyPart).getD i noEntry).1 ((reached heavyPart).getD i noEntry).2 := by
    rw [entryPieces_eq, ← List.flatMap_id, List.flatMap_assoc]
    refine List.flatMap_congr fun i hi => ?_
    simp only [getD_reached heavyPart (List.mem_range.mp hi), if_true]
    split_ifs <;> simp
  rw [hloop, separated_eq_intercalate _ _ _ _ fun _ _ _ => rfl, List.filter_true, ← length_reached,
    FiniteSums.map_range_getD _ noEntry fun entry => writeEntry entry.1 entry.2]

theorem close_bracket (label items : List Char) :
    label ++ ['['] ++ (items ++ [[']',',']].flatten) =
      label ++ ('[' :: (items ++ [']']) ++ [',']) := by
  simp

/-- All texts together: the member with the entries reached. -/
theorem flatten_heavyPieces {heavyPart : List (FiveTuple × PktDat)} (h : CountsOk heavyPart) :
    (heavyPieces heavyPart).flatten =
      heavyLabel ++ ((heavyJson (reached heavyPart)).text ++ [',']) := by
  have htext : (reached heavyPart).map (fun entry => writeEntry entry.1 entry.2) =
      ((reached heavyPart).map entryJson).map Json.text := by
    rw [List.map_map]
    refine List.map_congr_left fun entry hentry => ?_
    rw [reached] at hentry
    rw [Function.comp_apply, text_entryJson (h entry (List.mem_of_mem_take hentry))]
  rw [heavyPieces, List.flatten_cons, List.flatten_append, flatten_entryPieces, htext,
    ← Json.itemsText_eq, heavyJson, Json.text]
  exact close_bracket _ _

theorem reached_eq_self {heavyPart : List (FiveTuple × PktDat)} (h : heavyPart.length < 2^31) :
    reached heavyPart = heavyPart := by
  rw [reached, (intSize_eq_iff _).mpr h, List.take_length]

/-- The characters of an entry. -/
def entryLength (entry : FiveTuple × PktDat) : ℕ :=
  8 + width entry.1.srcIP.toNat + width entry.1.dstIP.toNat + width entry.1.srcPort.toNat +
    width entry.1.dstPort.toNat + width entry.1.protocal.toNat + width entry.2.val.toNat +
    width entry.2.swapFlag.toNat

/-- The characters of the member: the label, its brackets and the comma after it, the
entries, and a comma between two of them. -/
def heavyLength (heavyPart : List (FiveTuple × PktDat)) : ℕ :=
  heavyLabel.length + 3 + (heavyPart.map entryLength).sum + (heavyPart.length - 1)

theorem length_entryJson (entry : FiveTuple × PktDat) :
    (entryJson entry).text.length = entryLength entry := by
  rw [entryJson, Json.length_arr]
  simp only [Json.length_int, List.map_cons, List.map_nil, List.sum_cons, List.sum_nil,
    List.length_cons, List.length_nil, entryLength]
  omega

theorem length_heavyJson (heavyPart : List (FiveTuple × PktDat)) :
    (heavyLabel ++ ((heavyJson heavyPart).text ++ [','])).length = heavyLength heavyPart := by
  have hentries : heavyPart.map (fun entry => (entryJson entry).text.length) =
      heavyPart.map entryLength := List.map_congr_left fun entry _ => length_entryJson entry
  rw [heavyJson, List.length_append, List.length_append, Json.length_arr, List.map_map,
    List.length_map, List.length_singleton]
  simp only [Function.comp_def, hentries, heavyLength]
  omega

theorem length_le_heavyLength (heavyPart : List (FiveTuple × PktDat)) :
    heavyPart.length ≤ heavyLength heavyPart := by
  have hsum : heavyPart.length ≤ (heavyPart.map entryLength).sum := by
    have hone : ∀ x ∈ heavyPart.map entryLength, 1 ≤ x := by
      intro x hx
      obtain ⟨entry,-,rfl⟩ := List.mem_map.mp hx
      unfold entryLength
      omega
    simpa using List.length_le_sum_of_one_le _ hone
  unfold heavyLength
  omega

/-- The member is a JSON text of the entries in order, all of it in the buffer. -/
def HeavyFaithful (capacity : ℕ) (heavyPart : List (FiveTuple × PktDat)) : Prop :=
  ∃ t, writeHeavy capacity heavyPart = some (heavyLabel ++ (t ++ [','])) ∧
    Json.Renders (heavyJson heavyPart) t

/-- The text and its terminator fit the buffer, and its length is an `int`. -/
def HeavyFits (capacity : ℕ) (heavyPart : List (FiveTuple × PktDat)) : Prop :=
  heavyLength heavyPart + 1 ≤ capacity ∧ heavyLength heavyPart < 2^31

theorem writeHeavy_eq_some_iff {heavyPart : List (FiveTuple × PktDat)} {capacity : ℕ}
    (h : CountsOk heavyPart) {t : List Char} : writeHeavy capacity heavyPart = some t ↔
      t = heavyLabel ++ ((heavyJson (reached heavyPart)).text ++ [',']) ∧
        HeavyFits capacity (reached heavyPart) := by
  have hflat := flatten_heavyPieces h
  rw [heavyPieces] at hflat
  rw [writeHeavy, heavyPieces, run_sprintf, List.nil_append, hflat]
  simp only [length_heavyJson, Option.ite_none_right_eq_some, Option.some.injEq]
  rw [and_comm, eq_comm (a := t)]
  rfl

/-- A faithful member has reached every entry, so its text has the length of the whole. -/
theorem HeavyFaithful.fits {heavyPart : List (FiveTuple × PktDat)} {capacity : ℕ}
    (h : CountsOk heavyPart) (hfaithful : HeavyFaithful capacity heavyPart) :
    HeavyFits capacity heavyPart := by
  obtain ⟨t,hwrite,hrender⟩ := hfaithful
  obtain ⟨htext,hfits⟩ := (writeHeavy_eq_some_iff h).mp hwrite
  have ht : t = (heavyJson (reached heavyPart)).text :=
    List.append_cancel_right (List.append_cancel_left htext)
  have hreached : heavyJson heavyPart = heavyJson (reached heavyPart) :=
    hrender.unique (ht ▸ Json.renders_text _)
  rwa [← heavyJson_injective hreached] at hfits

theorem HeavyFits.faithful {heavyPart : List (FiveTuple × PktDat)} {capacity : ℕ}
    (h : CountsOk heavyPart) (hfits : HeavyFits capacity heavyPart) :
    HeavyFaithful capacity heavyPart := by
  have hlen : heavyPart.length < 2^31 := (length_le_heavyLength heavyPart).trans_lt hfits.2
  refine ⟨(heavyJson heavyPart).text,(writeHeavy_eq_some_iff h).mpr ?_,Json.renders_text _⟩
  rw [reached_eq_self hlen]
  exact ⟨rfl,hfits⟩

/-- Two lists with the same text are the same list. -/
theorem HeavyFaithful.eq_of_text {heavyPart heavyPart' : List (FiveTuple × PktDat)} {capacity : ℕ}
    (h : HeavyFaithful capacity heavyPart) (h' : HeavyFaithful capacity heavyPart')
    (htext : writeHeavy capacity heavyPart = writeHeavy capacity heavyPart') :
    heavyPart = heavyPart' := by
  obtain ⟨t,hwrite,hrender⟩ := h
  obtain ⟨t',hwrite',hrender'⟩ := h'
  have hsame := Option.some.inj ((hwrite.symm.trans htext).trans hwrite')
  obtain rfl : t = t' := List.append_cancel_right (List.append_cancel_left hsame)
  exact heavyJson_injective (hrender.unique hrender')

/-- With counts below 2^31, two lists both have faithful members with a text of their own
exactly when both texts fit the buffer and the `int` offset. -/
theorem writeHeavy_faithful_iff (capacity : ℕ) (heavyPart heavyPart' : List (FiveTuple × PktDat))
    (hcounts : CountsOk heavyPart) (hcounts' : CountsOk heavyPart') :
    (HeavyFaithful capacity heavyPart ∧ HeavyFaithful capacity heavyPart' ∧
      (heavyPart ≠ heavyPart' → writeHeavy capacity heavyPart ≠ writeHeavy capacity heavyPart')) ↔
    HeavyFits capacity heavyPart ∧ HeavyFits capacity heavyPart' := by
  constructor
  · rintro ⟨h,h',-⟩
    exact ⟨h.fits hcounts,h'.fits hcounts'⟩
  · rintro ⟨h,h'⟩
    have hfaithful := h.faithful hcounts
    have hfaithful' := h'.faithful hcounts'
    exact ⟨hfaithful,hfaithful',fun hne htext => hne (hfaithful.eq_of_text hfaithful' htext)⟩

def tenNetEntry : FiveTuple × PktDat := (⟨167772161,167772162,4000,80,6⟩,⟨12,true⟩)

def widestEntry : FiveTuple × PktDat :=
  (⟨4294967295,4294967295,65535,65535,255⟩,⟨2147483647,true⟩)

theorem entryLength_widestEntry : entryLength widestEntry = 52 := by
  decide +kernel

theorem heavyLength_replicate (n : ℕ) (entry : FiveTuple × PktDat) :
    heavyLength (List.replicate n entry) = 15 + n * entryLength entry + (n-1) := by
  have hlabel : heavyLabel.length = 12 := rfl
  rw [heavyLength, List.map_replicate, List.sum_replicate, List.length_replicate, smul_eq_mul, hlabel]

/-- The empty member and a member with one entry. -/
theorem writeHeavy_faithful_one_entry :
    HeavyFaithful maxLength [] ∧ HeavyFaithful maxLength [tenNetEntry] ∧
      ([] ≠ [tenNetEntry] → writeHeavy maxLength [] ≠ writeHeavy maxLength [tenNetEntry]) := by
  refine (writeHeavy_faithful_iff maxLength [] [tenNetEntry] (by simp [CountsOk]) ?_).mpr ?_
  · simp only [CountsOk, List.mem_singleton, forall_eq]
    decide
  · exact ⟨⟨by decide,by decide⟩,by decide +kernel,by decide +kernel⟩

/-- Ten thousand entries of 52 characters in a buffer of 500000 bytes. -/
theorem heavyFaithful_fails_widest :
    ¬ HeavyFaithful maxLength (List.replicate 10000 widestEntry) := by
  have hcounts : CountsOk (List.replicate 10000 widestEntry) := by
    intro entry hentry
    rw [List.eq_of_mem_replicate hentry]
    decide
  intro h
  have hfits := (h.fits hcounts).1
  rw [heavyLength_replicate, entryLength_widestEntry, maxLength] at hfits
  omega

end SketchMonitor
