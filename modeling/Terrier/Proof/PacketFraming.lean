import Terrier.Network.PacketQueue

/-!
Packets stand in the queue as they were written, wherever its buffers end. The length field is
never split, so that it is found again; it has 32 bits.
-/

namespace Terrier.Network

open List PacketWriter

variable {buffers : Buffers} {src : List UInt8} {w : PacketWriter}

theorem flatten_fillBuffers (src : List UInt8) : (fillBuffers src).flatten = src := by
  fun_induction fillBuffers src with
  | case1 => simp
  | case2 src h ih => rw [flatten_cons, ih, take_append_drop]

/-- A write leaves buffers in front of the last as they are, and only adds to it. -/
theorem bufferWriteRaw_eq (front : Buffers) (buffer : List UInt8) (rest : Buffers)
    (src : List UInt8) (breakup : Bool) : ∃ more rest',
    bufferWriteRaw (front ++ buffer :: rest) src breakup = front ++ (buffer ++ more) :: rest' ∧
      more ++ rest'.flatten = rest.flatten ++ src := by
  have hlast : ∀ front tail, ∃ more rest', bufferWriteRaw (front ++ [tail]) src breakup =
      front ++ (tail ++ more) :: rest' ∧ more ++ rest'.flatten = src := by
    intro front tail
    simp only [bufferWriteRaw, getLastD_concat, dropLast_concat]
    split
    · exact ⟨src, [], rfl, append_nil src⟩
    · exact ⟨_, _, rfl, by rw [flatten_fillBuffers, take_append_drop]⟩
  obtain rfl | ⟨rest, last, rfl⟩ := rest.eq_nil_or_concat
  · exact hlast front buffer
  · obtain ⟨more, rest', heq, hsrc⟩ := hlast (front ++ buffer :: rest) last
    refine ⟨[], rest ++ (last ++ more) :: rest', ?_, ?_⟩
    · simpa using heq
    · simp [← hsrc]

theorem flatten_bufferWriteRaw (hne : buffers ≠ []) (src : List UInt8) (breakup : Bool) :
    bufferWriteRaw buffers src breakup ≠ [] ∧
      (bufferWriteRaw buffers src breakup).flatten = buffers.flatten ++ src := by
  obtain ⟨buffer, rest, rfl⟩ := exists_cons_of_ne_nil hne
  obtain ⟨more, rest', heq, hsrc⟩ := bufferWriteRaw_eq [] buffer rest src breakup
  rw [nil_append] at heq
  simp [heq, hsrc]

/-- A packet that is being written behind `before`, with `body` appended so far. -/
def PacketWriter.Holds (w : PacketWriter) (before body : List UInt8) : Prop :=
  ∃ front head field after rest,
    w = ⟨front ++ (head ++ (field ++ after)) :: rest, front.length, head.length⟩ ∧
    field.length = 4 ∧ LittleEndian.decode field = body.length % 2 ^ 32 ∧
    front.flatten ++ head = before ∧ after ++ rest.flatten = body

theorem updateLength_eq {front rest : Buffers} {head field after : List UInt8}
    (f : Nat → List UInt8) (hfield : field.length = 4) :
    updateLength ⟨front ++ (head ++ (field ++ after)) :: rest, front.length, head.length⟩ f =
      ⟨front ++ (head ++ (f (LittleEndian.decode field) ++ after)) :: rest, front.length,
        head.length⟩ := by
  simp [updateLength, ← hfield, drop_append]

/-- The length field is written to the last buffer or, where it does not fit, to a new one. -/
theorem bufferWriteRaw_unbroken (front : Buffers) (tail : List UInt8) :
    ∃ front' head, bufferWriteRaw (front ++ [tail]) [0, 0, 0, 0] false =
      front' ++ [head ++ [0, 0, 0, 0]] ∧ front'.flatten ++ head = front.flatten ++ tail := by
  simp only [bufferWriteRaw, getLastD_concat, dropLast_concat]
  split
  · exact ⟨front, tail, rfl, rfl⟩
  · have hfill : fillBuffers [0, 0, 0, 0] = [[0, 0, 0, 0]] := by
      rw [fillBuffers, if_pos (by decide)]
    exact ⟨front ++ [tail], [], by simp [hfill], by simp⟩

theorem holds_beginPacket (hne : buffers ≠ []) (type : Option UInt8) :
    (beginPacket buffers type).Holds (buffers.flatten ++ type.toList) [] := by
  obtain ⟨htyped, hflat⟩ := flatten_bufferWriteRaw hne type.toList true
  obtain ⟨front, tail, heq⟩ := (eq_nil_or_concat _).resolve_left htyped
  obtain ⟨front', head, hwrite, hbefore⟩ := bufferWriteRaw_unbroken front tail
  refine ⟨front', head, [0, 0, 0, 0], [], [], ?_, rfl, rfl, ?_, rfl⟩
  · simp [beginPacket, heq, hwrite]
  · rw [hbefore, ← hflat, heq, concat_eq_append, flatten_concat]

variable {before body : List UInt8}

theorem holds_appendRaw (h : w.Holds before body) (src : List UInt8) :
    (w.appendRaw src).Holds before (body ++ src) := by
  obtain ⟨front, head, field, after, rest, rfl, hfield, hlength, hbefore, hbody⟩ := h
  obtain ⟨more, rest', hwrite, hmore⟩ :=
    bufferWriteRaw_eq front (head ++ (field ++ after)) rest src true
  refine ⟨front, head, LittleEndian.encode 4 (LittleEndian.decode field + src.length),
    after ++ more, rest', ?_, LittleEndian.length_encode _ _, ?_, hbefore, ?_⟩
  · simp only [appendRaw, hwrite, append_assoc]
    exact updateLength_eq _ hfield
  · rw [LittleEndian.decode_encode_mod, hlength, length_append]
    exact Nat.mod_add_mod _ _ _
  · rw [append_assoc, hmore, ← append_assoc, hbody]

theorem holds_appends (appends : List Append) (h : w.Holds before body) :
    (appends.foldl (fun w a => w.appendRaw a.bytes) w).Holds before
      (body ++ appends.flatMap Append.bytes) := by
  induction appends generalizing w body with
  | nil => rwa [flatMap_nil, append_nil]
  | cons a appends ih =>
    rw [foldl_cons, flatMap_cons, ← append_assoc]
    exact ih (holds_appendRaw h a.bytes)

theorem flatten_endPacket (h : w.Holds before body) : ∃ field,
    field.length = 4 ∧ BigEndian.decode field = (4 + body.length) % 2 ^ 32 ∧
      w.endPacket ≠ [] ∧ w.endPacket.flatten = before ++ (field ++ body) := by
  obtain ⟨front, head, field, after, rest, rfl, hfield, hlength, rfl, rfl⟩ := h
  refine ⟨BigEndian.encode 4 (LittleEndian.decode field + 4), BigEndian.length_encode _ _, ?_, ?_⟩
  · rw [BigEndian.decode_encode_mod, hlength, Nat.add_comm 4]
    exact Nat.mod_add_mod _ _ _
  · rw [endPacket, updateLength_eq _ hfield]
    simp

/-- The bytes of packets whose length fields say how long they are. -/
def IsFramed : List Packet → List UInt8 → Prop
  | [], bytes => bytes = []
  | p :: packets, bytes => ∃ field rest, bytes = p.type.toList ++ (field ++ p.body) ++ rest ∧
    field.length = 4 ∧ BigEndian.decode field = 4 + p.body.length ∧ IsFramed packets rest

theorem lt_of_isFramed {packets : List Packet} {bytes : List UInt8} (h : IsFramed packets bytes)
    {p : Packet} (hp : p ∈ packets) : 4 + p.body.length < 2 ^ 32 := by
  induction packets generalizing bytes with
  | nil => cases hp
  | cons q packets ih =>
    obtain ⟨field, rest, -, hfield, hlength, hrest⟩ := h
    rcases mem_cons.mp hp with rfl | hp
    · have hlt := BigEndian.decode_lt field
      rwa [hlength, hfield] at hlt
    · exact ih hrest hp

theorem isFramed_of_lt (hne : buffers ≠ []) (packets : List Packet)
    (hlt : ∀ p ∈ packets, 4 + p.body.length < 2 ^ 32) : ∃ bytes, IsFramed packets bytes ∧
      (packets.foldl writePacket buffers).flatten = buffers.flatten ++ bytes := by
  induction packets generalizing buffers with
  | nil => exact ⟨[], rfl, (append_nil _).symm⟩
  | cons p packets ih =>
    obtain ⟨field, hfield, hlength, hne', hflat⟩ :=
      flatten_endPacket (holds_appends p.appends (holds_beginPacket hne p.type))
    obtain ⟨rest, hrest, heq⟩ := ih hne' fun q hq => hlt q (mem_cons_of_mem _ hq)
    replace hlength := hlength.trans (Nat.mod_eq_of_lt (hlt p mem_cons_self))
    refine ⟨_, ⟨field, rest, rfl, hfield, hlength, hrest⟩, heq.trans ?_⟩
    simp [hflat, Packet.body]

/-- Packets come out of the queue well framed exactly if their lengths fit into 32 bits. -/
theorem packets_framed_iff (packets : List Packet) :
    IsFramed packets (packets.foldl writePacket [[]]).flatten ↔
      ∀ p ∈ packets, 4 + p.body.length < 2 ^ 32 := by
  constructor
  · exact fun h p hp => lt_of_isFramed h hp
  · intro hlt
    obtain ⟨bytes, hframed, heq⟩ := isFramed_of_lt (cons_ne_nil [] []) packets hlt
    rw [heq]
    exact hframed

theorem exists_body (n : Nat) : ∃ p : Packet, p.body.length = n :=
  ⟨⟨none, [.raw (replicate n 0)]⟩, by simp [Packet.body, Append.bytes]⟩

/-- A packet of 4 GiB less four bytes: its length field is 0. -/
theorem long_packet_not_framed : ∃ p : Packet, p.body.length = 2 ^ 32 - 4 ∧
    ¬ IsFramed [p] (writePacket [[]] p).flatten := by
  obtain ⟨p, hp⟩ := exists_body (2 ^ 32 - 4)
  refine ⟨p, hp, fun h => ?_⟩
  have hlt := lt_of_isFramed h mem_cons_self
  omega

end Terrier.Network
