import SketchMonitor.ElasticSketch

/-!
# Parsing captured packets

`packetHandler` copies a captured frame over a fresh buffer and reads fixed offsets of
it, without a look at the type, the header length or the length of the frame.
`Frame.Relevant` and `Frame.flowKey` say what it should make of a frame.
-/

namespace SketchMonitor

section DottedDecimal

/-- An IPv4 address, in network order. -/
abbrev Address := Fin 4 → UInt8

/-- What `%u` prints for a byte. -/
def unsignedDecimal (b : UInt8) : List Char := Nat.toDigits 10 b.toNat

/-- What `"%u.%u.%u.%u"` prints. `inet_ntop` writes the same text for the device's own
address, and `inet_pton` reads no other for the server's. -/
def dotted (a : Address) : List Char :=
  unsignedDecimal (a 0) ++ '.' :: (unsignedDecimal (a 1) ++ '.' :: (unsignedDecimal (a 2) ++
    '.' :: unsignedDecimal (a 3)))

theorem unsignedDecimal_injective : Function.Injective unsignedDecimal := by
  intro a b h
  have hdigits := congrArg (Nat.ofDigitChars 10 · 0) h
  simp only [unsignedDecimal, Nat.ofDigitChars_ten_toDigits] at hdigits
  exact UInt8.toNat_inj.mp hdigits

theorem dot_notMem (b : UInt8) : '.' ∉ unsignedDecimal b := fun h => by
  have hdigit := Nat.isDigit_of_mem_toDigits (by decide) (by decide) h
  exact absurd hdigit (by decide)

/-- Lists with one separator each, the separator at its first place. -/
theorem append_cons_inj {α : Type*} {a : α} {x x' z z' : List α} (hx : a ∉ x) (hx' : a ∉ x')
    (h : x ++ a :: z = x' ++ a :: z') : x = x' ∧ z = z' := by
  induction x generalizing x' with
  | nil =>
    cases x' with
    | nil => exact ⟨rfl,by simpa using h⟩
    | cons b x' =>
      obtain ⟨rfl,-⟩ := List.cons.inj h
      exact absurd List.mem_cons_self hx'
  | cons b x ih =>
    cases x' with
    | nil =>
      obtain ⟨rfl,-⟩ := List.cons.inj h
      exact absurd List.mem_cons_self hx
    | cons b' x' =>
      obtain ⟨rfl,hrest⟩ := List.cons.inj h
      obtain ⟨rfl,hz⟩ := ih (fun hmem => hx (List.mem_cons_of_mem _ hmem))
        (fun hmem => hx' (List.mem_cons_of_mem _ hmem)) hrest
      exact ⟨rfl,hz⟩

/-- Comparing the texts is comparing the addresses. -/
theorem dotted_injective : Function.Injective dotted := by
  intro a b h
  obtain ⟨h₀,h⟩ := append_cons_inj (dot_notMem _) (dot_notMem _) h
  obtain ⟨h₁,h⟩ := append_cons_inj (dot_notMem _) (dot_notMem _) h
  obtain ⟨h₂,h₃⟩ := append_cons_inj (dot_notMem _) (dot_notMem _) h
  funext k
  fin_cases k
  · exact unsignedDecimal_injective h₀
  · exact unsignedDecimal_injective h₁
  · exact unsignedDecimal_injective h₂
  · exact unsignedDecimal_injective h₃

end DottedDecimal

/-- `BUFSIZ`, the size of the buffer and the limit of the capture. -/
def bufsiz : ℕ := 8192

/-- The captured bytes of a packet, `caplen` of them. -/
structure Frame where
  bytes : List UInt8
  caplen_le : bytes.length ≤ bufsiz

/-- The four bytes at an offset. -/
def addressAt (content : ℕ → UInt8) (i : ℕ) : Address := fun k => content (i + k)

namespace Frame

/-- The buffer after `memcpy`; beyond the frame it holds what the heap left there. -/
def content (f : Frame) (heap : ℕ → UInt8) (i : ℕ) : UInt8 := f.bytes.getD i (heap i)

end Frame

/-- The struct `quintet` in memory: each field is loaded from the buffer and stored as it is. -/
def quintet (content : ℕ → UInt8) : Key :=
  ⟨[content 26,content 27,content 28,content 29,content 30,content 31,content 32,content 33,
    content 34,content 35,content 36,content 37,content 23],rfl⟩

/-- The test on the protocol, on `dip` and on `sip`. -/
def Accepts (ip servIp : List Char) (content : ℕ → UInt8) : Prop :=
  (content 23 = 6 ∨ content 23 = 17) ∧ dotted (addressAt content 30) = ip ∧
    dotted (addressAt content 26) ≠ servIp

instance (ip servIp : List Char) (content : ℕ → UInt8) : Decidable (Accepts ip servIp content) :=
  inferInstanceAs (Decidable (_ ∧ _ ∧ _))

/-- The key that the handler passes to `insert`, if it does. -/
def insertedKey (ip servIp : List Char) (content : ℕ → UInt8) : Option Key :=
  if Accepts ip servIp content then some (quintet content) else none

variable {hh lh : Hashing}

/-- `packetHandler`, with the length 1 for every packet. -/
def packetHandler (ip servIp : List Char) (heap : ℕ → UInt8) (f : Frame)
    (s : ElasticSketch hh lh) : Option (ElasticSketch hh lh) :=
  match insertedKey ip servIp (f.content heap) with
  | some key => s.insert key 1
  | none => some s

/-- A capture is a run of insertions: the frames that are not accepted leave no trace. -/
theorem run_packetHandler (ip servIp : List Char) (capture : List (Frame × (ℕ → UInt8)))
    (s : ElasticSketch hh lh) :
    Runs.run (fun s p => packetHandler ip servIp p.2 p.1 s) s capture =
      Runs.run (fun s key => s.insert key 1) s
        (capture.filterMap fun p => insertedKey ip servIp (p.1.content p.2)) := by
  induction capture generalizing s with
  | nil => rfl
  | cons p capture ih =>
    rw [Runs.run_cons, packetHandler, List.filterMap_cons]
    cases insertedKey ip servIp (p.1.content p.2) with
    | none => exact ih s
    | some key =>
      rw [Runs.run_cons]
      exact congrArg _ (funext ih)

namespace Frame

variable (f : Frame)

def byte (i : ℕ) : UInt8 := f.bytes.getD i 0

/-- The length of the IPv4 header that the packet declares. -/
def headerLength : ℕ := 4 * ((f.byte 14).toNat % 16)

/-- The length of the whole IPv4 packet; what follows in the frame is padding. -/
def totalLength : ℕ := 256 * (f.byte 16).toNat + (f.byte 17).toNat

/-- The fragment offset, in units of eight bytes. Fragments behind the first have no ports. -/
def fragmentOffset : ℕ := 256 * ((f.byte 20).toNat % 32) + (f.byte 21).toNat

/-- An Ethernet IPv4 packet that has its ports, which both the packet and the captured bytes
reach past, carries TCP or UDP and is addressed to the device, but not by the server. -/
structure Relevant (dev srv : Address) : Prop where
  ethertype : f.byte 12 = 8 ∧ f.byte 13 = 0
  version : (f.byte 14).toNat / 16 = 4
  header : 20 ≤ f.headerLength
  total : f.headerLength + 4 ≤ f.totalLength
  first : f.fragmentOffset = 0
  long : 14 + f.headerLength + 4 ≤ f.bytes.length
  protocol : f.byte 23 = 6 ∨ f.byte 23 = 17
  dst : addressAt f.byte 30 = dev
  src : addressAt f.byte 26 ≠ srv

instance (dev srv : Address) : Decidable (f.Relevant dev srv) :=
  decidable_of_iff ((f.byte 12 = 8 ∧ f.byte 13 = 0) ∧ (f.byte 14).toNat / 16 = 4 ∧
    20 ≤ f.headerLength ∧ f.headerLength + 4 ≤ f.totalLength ∧ f.fragmentOffset = 0 ∧
    14 + f.headerLength + 4 ≤ f.bytes.length ∧ (f.byte 23 = 6 ∨ f.byte 23 = 17) ∧
    addressAt f.byte 30 = dev ∧ addressAt f.byte 26 ≠ srv)
    ⟨fun ⟨h₁,h₂,h₃,h₄,h₅,h₆,h₇,h₈,h₉⟩ => ⟨h₁,h₂,h₃,h₄,h₅,h₆,h₇,h₈,h₉⟩,
      fun ⟨h₁,h₂,h₃,h₄,h₅,h₆,h₇,h₈,h₉⟩ => ⟨h₁,h₂,h₃,h₄,h₅,h₆,h₇,h₈,h₉⟩⟩

/-- Addresses, ports and protocol of the packet. -/
def flowKey : Key :=
  let ports := 14 + f.headerLength
  ⟨[f.byte 26,f.byte 27,f.byte 28,f.byte 29,f.byte 30,f.byte 31,f.byte 32,f.byte 33,
    f.byte ports,f.byte (ports + 1),f.byte (ports + 2),f.byte (ports + 3),f.byte 23],rfl⟩

/-- Whatever the heap held, the handler inserts the key of the packet, and that of a
relevant packet only. -/
def Parsed (dev srv : Address) : Prop :=
  ∀ heap key, insertedKey (dotted dev) (dotted srv) (f.content heap) = some key ↔
    f.Relevant dev srv ∧ key = f.flowKey

/-- The bytes that the handler reads as ports are the ports. -/
def PortsInPlace : Prop := ∀ k < 4, f.byte (34 + k) = f.byte (14 + f.headerLength + k)

/-- A captured byte decides against the packet. -/
def Excluded (dev srv : Address) : Prop :=
  (23 < f.bytes.length ∧ f.byte 23 ≠ 6 ∧ f.byte 23 ≠ 17) ∨
    (∃ k : Fin 4, 30 + (k : ℕ) < f.bytes.length ∧ f.byte (30 + k) ≠ dev k) ∨
      (30 ≤ f.bytes.length ∧ addressAt f.byte 26 = srv)

variable {f} {dev srv : Address}

theorem content_of_lt (heap : ℕ → UInt8) {i : ℕ} (hi : i < f.bytes.length) :
    f.content heap i = f.byte i := by
  rw [content, byte, List.getD_eq_getElem _ _ hi, List.getD_eq_getElem _ _ hi]

theorem content_of_ge (heap : ℕ → UInt8) {i : ℕ} (hi : f.bytes.length ≤ i) :
    f.content heap i = heap i := List.getD_eq_default _ _ hi

theorem accepts_iff (content : ℕ → UInt8) : Accepts (dotted dev) (dotted srv) content ↔
    (content 23 = 6 ∨ content 23 = 17) ∧ addressAt content 30 = dev ∧
      addressAt content 26 ≠ srv := by
  rw [Accepts, dotted_injective.eq_iff, dotted_injective.ne_iff]

theorem addressAt_content (heap : ℕ → UInt8) {i : ℕ} (hi : i + 4 ≤ f.bytes.length) :
    addressAt (f.content heap) i = addressAt f.byte i :=
  funext fun k => content_of_lt heap (by omega)

theorem quintet_content (heap : ℕ → UInt8) (hlen : 38 ≤ f.bytes.length) :
    quintet (f.content heap) = quintet f.byte := by
  simp (disch := omega) only [quintet, content_of_lt]

theorem quintet_eq_flowKey_iff : quintet f.byte = f.flowKey ↔ f.PortsInPlace := by
  simp only [quintet, flowKey, Key.mk.injEq, List.cons.injEq, true_and, and_true, PortsInPlace]
  constructor
  · rintro ⟨h₀,h₁,h₂,h₃⟩ k hk
    interval_cases k
    · exact h₀
    · exact h₁
    · exact h₂
    · exact h₃
  · exact fun h => ⟨h 0 (by omega),h 1 (by omega),h 2 (by omega),h 3 (by omega)⟩

/-- Captured bytes that decide against the packet do so whatever follows them. -/
theorem Excluded.not_accepts (h : f.Excluded dev srv) (heap : ℕ → UInt8) :
    ¬ Accepts (dotted dev) (dotted srv) (f.content heap) := by
  rw [accepts_iff]
  rintro ⟨hprotocol,hdst,hsrc⟩
  rcases h with ⟨hlen,h6,h17⟩ | ⟨k,hlen,hk⟩ | ⟨hlen,heq⟩
  · rw [content_of_lt heap hlen] at hprotocol
    exact hprotocol.elim h6 h17
  · have hbyte := congrFun hdst k
    rw [addressAt, content_of_lt heap hlen] at hbyte
    exact hk hbyte
  · rw [addressAt_content heap (by omega)] at hsrc
    exact hsrc heq

/-- A heap that completes a frame to a packet of TCP for the device, from an address
whose last byte is not the server's. -/
def completingHeap (dev srv : Address) (i : ℕ) : UInt8 :=
  if i < 30 then (if i = 29 then srv 3 + 1 else 6) else dev (Fin.ofNat 4 (i - 30))

theorem accepts_completingHeap (h : ¬ f.Excluded dev srv) :
    Accepts (dotted dev) (dotted srv) (f.content (completingHeap dev srv)) := by
  rw [Excluded, not_or, not_or] at h
  obtain ⟨hprotocol,hdst,hsrc⟩ := h
  refine (accepts_iff _).mpr ⟨?_,funext fun k => ?_,fun heq => ?_⟩
  · rcases lt_or_ge 23 f.bytes.length with hlen | hlen
    · rw [content_of_lt _ hlen]
      by_contra hother
      rw [not_or] at hother
      exact hprotocol ⟨hlen,hother⟩
    · rw [content_of_ge _ hlen]
      exact Or.inl rfl
  · rcases lt_or_ge (30 + (k : ℕ)) f.bytes.length with hlen | hlen
    · rw [addressAt, content_of_lt _ hlen]
      by_contra hother
      exact hdst ⟨k,hlen,hother⟩
    · rw [addressAt, content_of_ge _ hlen, completingHeap, if_neg (by omega), Nat.add_sub_cancel_left]
      simp
  · rcases le_or_gt 30 f.bytes.length with hlen | hlen
    · rw [addressAt_content _ (by omega)] at heq
      exact hsrc ⟨hlen,heq⟩
    · have hlast := congrFun heq 3
      rw [addressAt, content_of_ge _ (by simp; omega)] at hlast
      simp [completingHeap] at hlast

theorem Relevant.accepts (h : f.Relevant dev srv) (heap : ℕ → UInt8) :
    Accepts (dotted dev) (dotted srv) (f.content heap) ∧ quintet (f.content heap) = quintet f.byte := by
  have hlen : 38 ≤ f.bytes.length := by
    have := h.header
    have := h.long
    omega
  refine ⟨(accepts_iff _).mpr ⟨?_,?_,?_⟩,quintet_content heap hlen⟩
  · rw [content_of_lt heap (by omega)]
    exact h.protocol
  · rw [addressAt_content heap (by omega)]
    exact h.dst
  · rw [addressAt_content heap (by omega)]
    exact h.src

theorem Parsed.insertedKey_eq (h : f.Parsed dev srv) (heap : ℕ → UInt8) :
    insertedKey (dotted dev) (dotted srv) (f.content heap) =
      if f.Relevant dev srv then some f.flowKey else none := by
  ext key
  rw [h heap key, Option.ite_none_right_eq_some, Option.some.injEq, eq_comm]

/-- A capture of frames that are parsed right leaves the sketch of their flow keys. -/
theorem run_packetHandler_of_parsed {capture : List (Frame × (ℕ → UInt8))}
    (h : ∀ p ∈ capture, p.1.Parsed dev srv) :
    Runs.run (fun s p => packetHandler (dotted dev) (dotted srv) p.2 p.1 s)
        (ElasticSketch.clear hh lh) capture =
      ElasticSketch.insertAll hh lh (capture.filterMap fun p =>
        if p.1.Relevant dev srv then some p.1.flowKey else none) := by
  rw [run_packetHandler, ElasticSketch.insertAll]
  congr 1
  exact List.filterMap_congr fun p hp => (h p hp).insertedKey_eq p.2

/-- The handler parses a frame exactly when it is relevant and has its ports where they
are without IP options, or is irrelevant and shows it in the fields that are compared. -/
theorem parsed_iff (f : Frame) (dev srv : Address) : f.Parsed dev srv ↔
    (f.Relevant dev srv → f.PortsInPlace) ∧ (¬ f.Relevant dev srv → f.Excluded dev srv) := by
  constructor
  · refine fun h => ⟨fun hrel => ?_,fun hirr => ?_⟩
    · obtain ⟨haccepts,hkey⟩ := hrel.accepts fun _ => 0
      have hinserted := (h (fun _ => 0) _).mp (if_pos haccepts)
      exact quintet_eq_flowKey_iff.mp (hkey.symm.trans hinserted.2)
    · by_contra hexcluded
      exact hirr ((h _ _).mp (if_pos (accepts_completingHeap hexcluded))).1
  · rintro ⟨hports,hexcluded⟩ heap key
    by_cases hrel : f.Relevant dev srv
    · obtain ⟨haccepts,hkey⟩ := hrel.accepts heap
      rw [insertedKey, if_pos haccepts, hkey, quintet_eq_flowKey_iff.mpr (hports hrel),
        Option.some.injEq, eq_comm]
      exact (and_iff_right hrel).symm
    · rw [insertedKey, if_neg ((hexcluded hrel).not_accepts heap)]
      exact ⟨fun h => absurd h (by simp),fun h => absurd h.1 hrel⟩

/-- A TCP packet from 10.0.0.1:4000 to 192.168.1.2:80 with four bytes of IP options. -/
def withOptions : Frame where
  bytes := [0,0,0,0,0,0, 0,0,0,0,0,0, 8,0, 0x46,0,0,28, 0,0,0,0, 64,6,0,0, 10,0,0,1, 192,168,1,2,
    1,1,1,1, 15,160,0,80]
  caplen_le := by decide

/-- The options of a packet are taken for its ports. -/
theorem parsed_fails_withOptions : ¬ withOptions.Parsed ![192,168,1,2] ![192,168,1,10] := by
  intro h
  have hinserted : insertedKey (dotted ![192,168,1,2]) (dotted ![192,168,1,10])
      (withOptions.content fun _ => 0) = some (quintet withOptions.byte) := by decide +kernel
  exact absurd ((h _ _).mp hinserted).2 (by decide +kernel)

end Frame
end SketchMonitor
