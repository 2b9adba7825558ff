import SketchMonitor.ReportEntropy
import SketchMonitor.WriteHeavy

/-!
# The texts of a report

`makeJSON` assembles the report from two worker buffers and `sendMsg` copies it
behind a header. All four buffers have `MAX_LENGTH` bytes, none of the calls checks a
length, and each text is part of the next one, so the request decides. Its length is
computed from the decimal widths of what is reported.
-/

namespace SketchMonitor

/-- All that `writeHeavy` writes in front of the last terminator. -/
def heavyText (heavyPart : List (FiveTuple × PktDat)) : List Char := (heavyPieces heavyPart).flatten

/-- All that `writeDist` writes. -/
def distText (dist : List (List ℤ)) : List Char := (distPieces dist).flatten

def idLabel : List Char := "\"ID\":".toList

def algorithmMember : List Char := "\"Algorithm\":\"elastic\",".toList

def timeLabel : List Char := "\"Time\":\"".toList

def cardinalityLabel : List Char := "\",\"Cardinality\":".toList

def entropyLabel : List Char := "\"Entropy\":".toList

/-- The text of a report around the texts of the two workers, with what `asctime` returns
and the text of `entropy` that `%lf` writes. The newline at the end of the time is
overwritten. -/
def jsonText (id : ℤ) (asctime : List Char) (cardinality : ℤ) (entropy bufH bufD : List Char) :
    List Char :=
  [['{'],idLabel,decimal id,[','],algorithmMember,timeLabel,asctime.dropLast,cardinalityLabel,
    decimal cardinality,[','],entropyLabel,entropy,[','],bufH,bufD,['}','\r','\n']].flatten

/-- What a report is printed with besides its totals: the address of the collector, the
number of the report, what `asctime` returns, and what `%lf` writes. -/
structure Printing (R : Type*) where
  servIp : List Char
  servPort : ℤ
  id : ℤ
  asctime : List Char
  lf : R → List Char

variable {R : Type*} [DivisionRing R] (log2 : ℤ → R) (p : Printing R)

/-- `makeJSON` after its threads have finished. -/
def makeJson (t : Totals R) : List Char :=
  jsonText p.id p.asctime t.cardinality (p.lf (reportEntropy log2 t.tot t.entr))
    (heavyText t.heavyPart) (distText t.dist)

def postLine : List Char := "POST /post HTTP/1.1\r\n".toList

def hostLabel : List Char := "Host: http://".toList

def typeLine : List Char := "Content-Type: application/json\r\n".toList

def lengthLabel : List Char := "Content-Length: ".toList

/-- What `sendMsg` assembles in `buf`: the header, the length of the text, a blank line and
the text with another one. -/
def request (servIp : List Char) (servPort : ℤ) (json : List Char) : List Char :=
  [postLine,hostLabel,servIp,[':'],decimal servPort,['\r','\n'],typeLine,lengthLabel,
    decimal json.length,['\r','\n','\r','\n'],json,['\r','\n','\r','\n']].flatten

/-- Each text fits its buffer together with the terminator. -/
structure Fits (t : Totals R) : Prop where
  heavy : (heavyText t.heavyPart).length + 1 ≤ maxLength
  dist : (distText t.dist).length + 1 ≤ maxLength
  json : (makeJson log2 p t).length + 1 ≤ maxLength
  buf : (request p.servIp p.servPort (makeJson log2 p t)).length + 1 ≤ maxLength

/-- The array of one client: two brackets, the pairs and the commas that follow them. -/
def tmpLength (tmp : List ℤ) : ℕ :=
  2 + (((List.range (intSize tmp.length)).filter (isPositive tmp)).map fun (j : ℕ) =>
    3 + width j + width (tmp.getD j 0)).sum + separators (intSize tmp.length) (isPositive tmp)

/-- The Distribution member with `n` arrays of the given lengths: the label, two brackets, the
arrays and the commas between them. -/
def distTextLength (n : ℕ) (arrays : ℕ → ℕ) : ℕ :=
  17 + ((List.range n).map arrays).sum + (n - 1)

/-- A report whose two members have the lengths `heavy` and `dist`. -/
def jsonLength (cardinality tot : ℤ) (entr : R) (heavy dist : ℕ) : ℕ :=
  68 + width p.id + (p.asctime.length - 1) + width cardinality +
    (p.lf (reportEntropy log2 tot entr)).length + heavy + dist

/-- The request for a text of `json` characters. -/
def requestLength (json : ℕ) : ℕ := 93 + p.servIp.length + width p.servPort + width json + json

theorem length_heavyText {heavyPart : List (FiveTuple × PktDat)} (h : CountsOk heavyPart) :
    (heavyText heavyPart).length = heavyLength (reached heavyPart) := by
  rw [heavyText, flatten_heavyPieces h, length_heavyJson]

theorem length_writePair (j : ℕ) (v : ℤ) : (writePair j v).length = 3 + width j + width v := by
  simp only [writePair, List.length_cons, List.length_append, length_decimal, List.length_nil]
  omega

theorem length_tmpText (tmp : List ℤ) : (tmpText tmp).length + 2 = tmpLength tmp := by
  rw [tmpText_eq, length_separated, tmpLength]
  simp only [length_writePair, List.length_singleton, mul_one]
  omega

theorem length_distText (dist : List (List ℤ)) : (distText dist).length =
    distTextLength (intSize dist.length) fun i => tmpLength (dist.getD i []) := by
  have hlabel : distLabel.length = 15 := rfl
  have htmp (i : ℕ) : ('[' :: (tmpText (dist.getD i []) ++ [']'])).length =
      tmpLength (dist.getD i []) := by
    rw [← length_tmpText, List.length_cons, List.length_append, List.length_singleton]
  rw [distText, flatten_distPieces, List.length_append, hlabel, distArray, List.length_cons,
    List.length_append, length_separated, separators_true, List.filter_true, distTextLength]
  simp only [htmp, List.length_singleton, mul_one]
  omega

theorem length_jsonLabels : idLabel.length = 5 ∧ algorithmMember.length = 22 ∧
    timeLabel.length = 8 ∧ cardinalityLabel.length = 16 ∧ entropyLabel.length = 10 :=
  ⟨rfl,rfl,rfl,rfl,rfl⟩

theorem length_requestLabels : postLine.length = 21 ∧ hostLabel.length = 13 ∧
    typeLine.length = 32 ∧ lengthLabel.length = 16 := ⟨rfl,rfl,rfl,rfl⟩

theorem length_jsonText (id : ℤ) (asctime : List Char) (cardinality : ℤ)
    (entropy bufH bufD : List Char) :
    (jsonText id asctime cardinality entropy bufH bufD).length =
      68 + width id + (asctime.length - 1) + width cardinality + entropy.length + bufH.length +
        bufD.length := by
  simp only [jsonText, List.length_flatten, List.map_cons, List.map_nil, List.sum_cons,
    List.sum_nil, length_jsonLabels, length_decimal, List.length_dropLast, List.length_cons,
    List.length_nil]
  omega

theorem length_makeJson (t : Totals R) : (makeJson log2 p t).length =
    jsonLength log2 p t.cardinality t.tot t.entr (heavyText t.heavyPart).length
      (distText t.dist).length := length_jsonText _ _ _ _ _ _

omit [DivisionRing R] in
theorem length_request (json : List Char) :
    (request p.servIp p.servPort json).length = requestLength p json.length := by
  simp only [request, List.length_flatten, List.map_cons, List.map_nil, List.sum_cons,
    List.sum_nil, length_requestLabels, length_decimal, List.length_cons, List.length_nil,
    requestLength]
  omega

/-- The texts are nested: the report fits its buffers exactly when the request does. -/
theorem fits_iff (t : Totals R) :
    Fits log2 p t ↔ requestLength p (makeJson log2 p t).length + 1 ≤ maxLength := by
  have hrequest := length_request p (makeJson log2 p t)
  constructor
  · intro h
    rw [← hrequest]
    exact h.buf
  · intro h
    have hmake := length_makeJson log2 p t
    unfold jsonLength at hmake
    have hjson : (makeJson log2 p t).length ≤ requestLength p (makeJson log2 p t).length :=
      Nat.le_add_left _ _
    exact ⟨by omega,by omega,by omega,by omega⟩

theorem one_le_width (n : ℤ) : 1 ≤ width n := by
  unfold width
  omega

/-- No entry takes less than 15 characters. -/
theorem fifteen_mul_length_le (entries : List (FiveTuple × PktDat)) :
    15 * entries.length ≤ heavyLength entries := by
  have hentry : ∀ x ∈ entries.map entryLength, 15 ≤ x := by
    intro x hx
    obtain ⟨entry,-,rfl⟩ := List.mem_map.mp hx
    have h₁ := one_le_width entry.1.srcIP.toNat
    have h₂ := one_le_width entry.1.dstIP.toNat
    have h₃ := one_le_width entry.1.srcPort.toNat
    have h₄ := one_le_width entry.1.dstPort.toNat
    have h₅ := one_le_width entry.1.protocal.toNat
    have h₆ := one_le_width entry.2.val.toNat
    have h₇ := one_le_width entry.2.swapFlag.toNat
    unfold entryLength
    omega
  have hsum := List.card_nsmul_le_sum _ 15 hentry
  rw [List.length_map, smul_eq_mul, mul_comm] at hsum
  unfold heavyLength
  omega

end SketchMonitor
