import Terrier.Network.ProtocolInterpreter

/-!
Packets as a client sends them and as the interpreter builds them from the bytes
that have arrived so far.
-/

namespace Terrier.Network

open List Option Interpreter BigEndian

/-! ### Messages on the wire -/

def frame (kind body : List UInt8) : List UInt8 :=
  kind ++ (BigEndian.encode 4 (body.length + 4) ++ body)

def parameterBytes (parameters : List (List UInt8 × List UInt8)) : List UInt8 :=
  parameters.flatMap fun p => p.1 ++ 0 :: (p.2 ++ [0])

def startupBody (version : Nat) (parameters : List (List UInt8 × List UInt8)) : List UInt8 :=
  BigEndian.encode 4 version ++ (parameterBytes parameters ++ [0])

structure StartupMessage where
  version : Nat
  parameters : List (List UInt8 × List UInt8)
  version_eq : version >>> 16 = 3
  nul_free : ∀ p ∈ parameters, 0 ∉ p.1 ∧ 0 ∉ p.2
  length_le : (startupBody version parameters).length ≤ packetLenLimit

structure TypedMessage where
  type : NetworkMessageType
  contents : List UInt8
  length_le : contents.length ≤ packetLenLimit

def StartupMessage.body (s : StartupMessage) : List UInt8 := startupBody s.version s.parameters

def StartupMessage.bytes (s : StartupMessage) : List UInt8 := frame [] s.body

def StartupMessage.received (s : StartupMessage) : Received := .startup s.version s.parameters

def TypedMessage.bytes (m : TypedMessage) : List UInt8 := frame [m.type.code] m.contents

def TypedMessage.received (m : TypedMessage) : Received := .command m.type m.contents

def messageBytes (messages : List TypedMessage) : List UInt8 := messages.flatMap TypedMessage.bytes

/-! ### The read buffer -/

variable {stream rest memory body text : List UInt8} {b : Buffer} {count n : Nat}
  {r : Transition × Buffer × List UInt8} {i : Interpreter}
  {parameters : List (List UInt8 × List UInt8)}

theorem split_append {a front : List UInt8} (h : a ++ stream = front ++ rest)
    (hle : front.length ≤ a.length) : ∃ r, a = front ++ r ∧ r ++ stream = rest := by
  obtain ⟨r, hr⟩ : front <+: a := by
    have hprefix : front <+: a ++ stream := h ▸ prefix_append front rest
    exact prefix_of_prefix_length_le hprefix (prefix_append a stream) hle
  refine ⟨r, hr.symm, ?_⟩
  rw [← hr, append_assoc] at h
  exact append_cancel_left h

namespace Buffer

theorem remaining_skip_of_eq {b : Buffer} {front rest : List UInt8}
    (h : b.remaining = front ++ rest) {n : Nat} (hn : n = front.length) :
    (b.skip n).remaining = rest := by
  rw [remaining_skip, h, hn, drop_left]

end Buffer

/-- The socket goes on delivering: it has some bytes, and the client stays connected. -/
def Arrival.Delivers (a : Arrival) : Prop :=
  (∃ n, .received n ∈ a.answers) ∧ .eof ∉ a.answers ∧ .error ∉ a.answers

structure Filled (result : Transition) (b : Buffer) (stream : List UInt8)
    (r : Transition × Buffer × List UInt8) : Prop where
  unread : r.2.1.remaining ++ r.2.2 = b.remaining ++ stream
  size_le : r.2.1.size ≤ socketBufferCapacity
  moved : r.1 = result ∧ r.2.1.remaining = b.remaining ∧ r.2.2 = stream ∨
    r.1 = .proceed ∧ r.2.2.length < stream.length

variable {result : Transition}

theorem Filled.unmoved (h : b.size ≤ socketBufferCapacity) :
    Filled result b stream (result, b, stream) where
  unread := rfl
  size_le := h
  moved := .inl ⟨rfl, rfl, rfl⟩

def Buffer.receive (b : Buffer) (bytes : List UInt8) : Buffer :=
  { b with content := b.content ++ bytes }

theorem Buffer.remaining_receive (h : b.offset ≤ b.size) (bytes : List UInt8) :
    (b.receive bytes).remaining = b.remaining ++ bytes :=
  drop_append_of_le_length h

theorem Buffer.size_receive (b : Buffer) (bytes : List UInt8) :
    (b.receive bytes).size = b.size + bytes.length := length_append

section

variable (h : Filled .proceed (b.receive (stream.take count)) (stream.drop count) r)
include h

theorem Filled.received_moved (hpos : count ≠ 0) (hcount : count ≤ stream.length) :
    r.1 = .proceed ∧ r.2.2.length < stream.length := by
  have hdrop : (stream.drop count).length = stream.length - count := length_drop
  rcases h.moved with ⟨hr, _, hstream⟩ | ⟨hr, hlt⟩
  · rw [hstream, hdrop]
    exact ⟨hr, by omega⟩
  · exact ⟨hr, by omega⟩

theorem Filled.received (hoff : b.offset ≤ b.size) (hpos : count ≠ 0)
    (hcount : count ≤ stream.length) : Filled result b stream r where
  unread := by
    rw [h.unread, Buffer.remaining_receive hoff, append_assoc, take_append_drop]
  size_le := h.size_le
  moved := .inr (h.received_moved hpos hcount)

end

def countRead (b : Buffer) (stream : List UInt8) (n : Nat) : Nat :=
  min (n + 1) (min (socketBufferCapacity - b.size) stream.length)

theorem countRead_le (b : Buffer) (stream : List UInt8) (n : Nat) :
    countRead b stream n ≤ stream.length := by
  rw [countRead]
  omega

theorem receive_bounds (stream : List UInt8) (n : Nat) (hoff : b.offset ≤ b.size)
    (hsize : b.size ≤ socketBufferCapacity) :
    (b.receive (stream.take (countRead b stream n))).offset ≤
        (b.receive (stream.take (countRead b stream n))).size ∧
      (b.receive (stream.take (countRead b stream n))).size ≤ socketBufferCapacity := by
  have hroom : countRead b stream n ≤ socketBufferCapacity - b.size := by
    rw [countRead]
    omega
  rw [Buffer.size_receive, length_take]
  constructor
  · exact hoff.trans (Nat.le_add_right _ _)
  · omega

theorem fillLoop_full (hfull : b.size = socketBufferCapacity) (answers : List ReadResult) :
    fillLoop result b stream answers = (result, b, stream) := by
  cases answers with
  | nil => rfl
  | cons answer rest => simp [fillLoop.eq_def, Buffer.full, hfull]

theorem fillLoop_eintr (hfull : b.size ≠ socketBufferCapacity) (rest : List ReadResult) :
    fillLoop result b stream (.eintr :: rest) = fillLoop result b stream rest := by
  rw [fillLoop.eq_def]
  simp [Buffer.full, hfull]

theorem fillLoop_received (hfull : b.size ≠ socketBufferCapacity) (rest : List ReadResult) :
    fillLoop result b stream (.received n :: rest) =
      if countRead b stream n = 0 then (result, b, stream)
      else
        fillLoop .proceed (b.receive (stream.take (countRead b stream n)))
          (stream.drop (countRead b stream n)) rest := by
  rw [fillLoop.eq_def]
  simp [Buffer.full, hfull, countRead, Buffer.receive]

theorem filled_fillLoop {b : Buffer} {stream : List UInt8} {answers : List ReadResult}
    (hoff : b.offset ≤ b.size) (hsize : b.size ≤ socketBufferCapacity) (heof : .eof ∉ answers)
    (herror : .error ∉ answers) : Filled result b stream (fillLoop result b stream answers) := by
  induction answers generalizing result b stream with
  | nil => exact .unmoved hsize
  | cons answer rest ih =>
    rw [mem_cons, not_or] at heof herror
    by_cases hfull : b.size = socketBufferCapacity
    · rw [fillLoop_full hfull]
      exact .unmoved hsize
    · cases answer with
      | eof => exact absurd rfl heof.1
      | error => exact absurd rfl herror.1
      | eintr =>
        rw [fillLoop_eintr hfull]
        exact ih hoff hsize heof.2 herror.2
      | received n =>
        rw [fillLoop_received hfull]
        split_ifs with hcount
        · exact .unmoved hsize
        · obtain ⟨hoff', hsize'⟩ := receive_bounds stream n hoff hsize
          have hrest := @ih .proceed _ (stream.drop (countRead b stream n)) hoff' hsize'
            heof.2 herror.2
          exact hrest.received hoff hcount (countRead_le b stream n)

theorem fillLoop_moves {answers : List ReadResult} (hoff : b.offset ≤ b.size)
    (hroom : b.size < socketBufferCapacity) (hstream : stream ≠ [])
    (hrecv : ∃ n, .received n ∈ answers) (heof : .eof ∉ answers) (herror : .error ∉ answers) :
    (fillLoop result b stream answers).1 = .proceed ∧
      (fillLoop result b stream answers).2.2.length < stream.length := by
  induction answers with
  | nil => simp at hrecv
  | cons answer rest ih =>
    rw [mem_cons, not_or] at heof herror
    cases answer with
    | eof => exact absurd rfl heof.1
    | error => exact absurd rfl herror.1
    | eintr =>
      obtain ⟨n, hn⟩ := hrecv
      rw [fillLoop_eintr hroom.ne]
      exact ih ⟨n, by simpa using hn⟩ heof.2 herror.2
    | received n =>
      have hlength := length_pos_of_ne_nil hstream
      have hpos : countRead b stream n ≠ 0 := by
        rw [countRead]
        omega
      obtain ⟨hoff', hsize'⟩ := receive_bounds stream n hoff hroom.le
      have hrest := @filled_fillLoop .proceed _ (stream.drop (countRead b stream n)) rest
        hoff' hsize' heof.2 herror.2
      rw [fillLoop_received hroom.ne, if_neg hpos]
      exact hrest.received_moved hpos (countRead_le b stream n)

def Buffer.ready (b : Buffer) : Buffer :=
  let b := if b.hasMore then b else .empty
  if b.hasMore && b.full then b.moveContentToHead else b

section

variable {b : Buffer} (hsize : b.size ≤ socketBufferCapacity)
include hsize

theorem Buffer.ready_spec : b.ready.remaining = b.remaining ∧ b.ready.offset ≤ b.ready.size ∧
      b.ready.size ≤ socketBufferCapacity ∧
        (b.remaining.length < socketBufferCapacity → b.ready.size < socketBufferCapacity) := by
  have hcap : 0 < socketBufferCapacity := by decide
  by_cases hmore : b.hasMore
  · have hoff : b.offset + 1 ≤ b.size := decide_eq_true_iff.1 hmore
    by_cases hfull : b.full
    · have hready : b.ready = b.moveContentToHead := by simp [ready, hmore, hfull]
      have hlen := b.length_remaining
      rw [hready, moveContentToHead]
      refine ⟨remaining_fresh _, Nat.zero_le _, ?_, ?_⟩
      · simp only [size] at hlen hsize ⊢
        omega
      · exact id
    · have hready : b.ready = b := by simp [ready, hmore, hfull]
      have hne : b.size ≠ socketBufferCapacity := fun h => hfull (decide_eq_true_iff.2 h)
      rw [hready]
      exact ⟨rfl, by omega, hsize, fun _ => by omega⟩
  · have hempty : (if b.hasMore then b else .empty) = .empty := if_neg hmore
    have hready : b.ready = .empty := by
      rw [ready, hempty]
      rfl
    have hnil : b.remaining = [] := by
      apply eq_nil_of_length_eq_zero
      have hless : ¬ b.offset + 1 ≤ b.size := fun h => hmore (decide_eq_true_iff.2 h)
      rw [length_remaining]
      omega
    rw [hready, hnil]
    exact ⟨rfl, le_rfl, Nat.zero_le _, fun _ => hcap⟩

theorem filled_fillReadBuffer {stream : List UInt8} {a : Arrival} (ha : a.Delivers) :
    Filled .needRead b stream (fillReadBuffer b stream a.answers) := by
  obtain ⟨hrem, hoff, hready, _⟩ := Buffer.ready_spec hsize
  have hfill : Filled .needRead b.ready stream (fillLoop .needRead b.ready stream a.answers) :=
    filled_fillLoop hoff hready ha.2.1 ha.2.2
  exact ⟨hrem ▸ hfill.unread, hfill.size_le, hrem ▸ hfill.moved⟩

theorem fillReadBuffer_moves {stream : List UInt8} {a : Arrival}
    (hroom : b.remaining.length < socketBufferCapacity) (hstream : stream ≠ []) (ha : a.Delivers) :
    (fillReadBuffer b stream a.answers).1 = .proceed ∧
      (fillReadBuffer b stream a.answers).2.2.length < stream.length := by
  obtain ⟨_, hoff, _, hready⟩ := Buffer.ready_spec hsize
  exact fillLoop_moves hoff (hready hroom) hstream ha.1 ha.2.1 ha.2.2

end

/-! ### Building a packet -/

inductive KindOf : Bool → List UInt8 → Prop
  | startup : KindOf true []
  | typed (code : UInt8) : KindOf false [code]

inductive Awaits (kind body rest : List UInt8) : InputPacket → List UInt8 → Prop
  | fresh : Awaits kind body rest .clear (frame kind body ++ rest)
  | headed (h : body.length ≤ socketBufferCapacity) :
      Awaits kind body rest ⟨kind.headD 0, body.length, true, none⟩ (body ++ rest)
  | extended {filled unread : List UInt8} (h : socketBufferCapacity < body.length)
      (hfilled : filled.length ≤ body.length) (hunread : filled ++ unread = body ++ rest) :
      Awaits kind body rest ⟨kind.headD 0, body.length, true, some filled⟩ unread

def Short (i : Interpreter) (b : Buffer) : Prop :=
  if i.packet.headerParsed then
    match i.packet.own with
    | none => b.remaining.length < i.packet.len
    | some filled => b.remaining = [] ∧ filled.length < i.packet.len
  else b.remaining.length < i.getPacketHeaderSize

inductive Built (kind body rest stream : List UInt8) (startup : Bool) :
    Bool → Interpreter → Buffer → Prop
  | incomplete {packet : InputPacket} {b : Buffer}
      (hawaits : Awaits kind body rest packet (b.remaining ++ stream))
      (hshort : Short ⟨startup, packet⟩ b) :
      Built kind body rest stream startup false ⟨startup, packet⟩ b
  | inBuffer {b : Buffer} {r : List UInt8} (h : body.length ≤ socketBufferCapacity)
      (hremaining : b.remaining = body ++ r) (hrest : r ++ stream = rest) :
      Built kind body rest stream startup true ⟨startup, ⟨kind.headD 0, body.length, true, none⟩⟩ b
  | inOwn {b : Buffer} (h : socketBufferCapacity < body.length)
      (hrest : b.remaining ++ stream = rest) :
      Built kind body rest stream startup true
        ⟨startup, ⟨kind.headD 0, body.length, true, some body⟩⟩ b

theorem packetLength_field (h : n ≤ packetLenLimit) : Interpreter.packetLength (n + 4) = n := by
  have hlimit : packetLenLimit < 2 ^ 64 := by decide
  rw [packetLength, show n + 4 + 2 ^ 64 - 4 = n + 2 ^ 64 by omega, Nat.add_mod_right]
  exact Nat.mod_eq_of_lt (h.trans_lt hlimit)

theorem decode_field (h : n ≤ packetLenLimit) :
    BigEndian.decode (BigEndian.encode 4 (n + 4)) = n + 4 := by
  apply decode_encode
  have hlimit : packetLenLimit + 4 < 256 ^ 4 := by decide
  omega

theorem readValue_encode (h : b.remaining = BigEndian.encode 4 n ++ rest) :
    b.readValue 4 memory = (BigEndian.decode (BigEndian.encode 4 n), b.skip 4) := by
  rw [Buffer.readValue, h, append_assoc, take_left' (length_encode 4 n)]

variable {startup : Bool} {kind : List UInt8}

theorem KindOf.headerSize (h : KindOf startup kind) (packet : InputPacket) :
    Interpreter.getPacketHeaderSize ⟨startup, packet⟩ = kind.length + 4 := by
  cases h <;> rfl

theorem KindOf.setPacketMessageType (h : KindOf startup kind) (hb : b.remaining = kind ++ rest) :
    Interpreter.setPacketMessageType ⟨startup, .clear⟩ b = (kind.headD 0, b.skip kind.length) := by
  cases h with
  | startup => rfl
  | typed code => simp [setPacketMessageType, hb]

theorem tryReadPacketHeader_frame {r : List UInt8} (hkind : KindOf startup kind)
    (hlen : body.length ≤ packetLenLimit)
    (h : b.remaining = kind ++ (BigEndian.encode 4 (body.length + 4) ++ r)) :
    ∃ b' : Buffer, b'.remaining = r ∧ b'.size = b.size ∧
      Interpreter.tryReadPacketHeader ⟨startup, .clear⟩ b =
        .ok (true, ⟨startup, ⟨kind.headD 0, body.length, true,
          if socketBufferCapacity < body.length then some [] else none⟩⟩, b') := by
  have hmore : b.hasMore (kind.length + 4) = true := by
    rw [Buffer.hasMore_iff _ _ (by omega), h]
    simp
  have hskip : (b.skip kind.length).remaining = encode 4 (body.length + 4) ++ r :=
    Buffer.remaining_skip_of_eq h rfl
  refine ⟨(b.skip kind.length).skip 4, ?_, rfl, ?_⟩
  · exact Buffer.remaining_skip_of_eq hskip (length_encode _ _).symm
  · rw [tryReadPacketHeader, if_neg (by simp [InputPacket.clear]),
      hkind.headerSize, hmore, hkind.setPacketMessageType h]
    simp only [Bool.not_true, Bool.false_eq_true, if_false]
    rw [readValue_encode hskip, decode_field hlen]
    simp only [packetLength_field hlen]
    rw [if_neg (by omega)]

theorem tryReadPacketHeader_short
    (h : b.remaining.length < Interpreter.getPacketHeaderSize ⟨startup, .clear⟩) :
    Interpreter.tryReadPacketHeader ⟨startup, .clear⟩ b = .ok (false, ⟨startup, .clear⟩, b) := by
  have hmore : b.hasMore (getPacketHeaderSize ⟨startup, .clear⟩) = false := by
    rw [← Bool.not_eq_true, Buffer.hasMore_iff _ _ (by omega)]
    omega
  rw [tryReadPacketHeader, if_neg (by simp [InputPacket.clear]), hmore]
  rfl

inductive Headed (kind body rest stream : List UInt8) (startup : Bool) (b : Buffer) :
    Interpreter → Prop
  | inBuffer (h : body.length ≤ socketBufferCapacity)
      (hunread : b.remaining ++ stream = body ++ rest) :
      Headed kind body rest stream startup b ⟨startup, ⟨kind.headD 0, body.length, true, none⟩⟩
  | inOwn {filled : List UInt8} (h : socketBufferCapacity < body.length)
      (hfilled : filled.length ≤ body.length)
      (hunread : filled ++ (b.remaining ++ stream) = body ++ rest) :
      Headed kind body rest stream startup b
        ⟨startup, ⟨kind.headD 0, body.length, true, some filled⟩⟩

def buildBody (i : Interpreter) (b : Buffer) : Bool × Interpreter × Buffer :=
  match i.packet.own with
  | none => (i.packet.len ≤ b.remaining.length, i, b)
  | some filled =>
    let sizeNeeded := i.packet.len - filled.length
    let canRead := min sizeNeeded b.remaining.length
    let own := some (filled ++ b.remaining.take canRead)
    (sizeNeeded - canRead = 0, { i with packet := { i.packet with own := own } }, b.skip canRead)

theorem tryBuildPacket_of_header {i' : Interpreter} {b' : Buffer}
    (h : i.tryReadPacketHeader b = .ok (true, i', b')) :
    i.tryBuildPacket b = .ok (buildBody i' b') := by
  rw [tryBuildPacket, h, buildBody]
  cases hown : i'.packet.own with
  | none | some filled => simp [bind, Except.bind, pure, Except.pure, hown]

theorem built_buildBody (h : Headed kind body rest stream startup b i) :
    Built kind body rest stream startup (buildBody i b).1 (buildBody i b).2.1
      (buildBody i b).2.2 ∧ (buildBody i b).2.2.size = b.size := by
  cases h with
  | inBuffer h hunread =>
    refine ⟨?_, rfl⟩
    by_cases hle : body.length ≤ b.remaining.length
    · obtain ⟨r, hr, hrest⟩ := split_append hunread hle
      simp only [buildBody, hle, decide_true]
      exact .inBuffer h hr hrest
    · simp only [buildBody, hle, decide_false]
      apply Built.incomplete
      · rw [hunread]
        exact .headed h
      · simp only [Short, if_true]
        omega
  | @inOwn filled h hfill hunread =>
    refine ⟨?_, rfl⟩
    rw [← append_assoc] at hunread
    by_cases hle : body.length - filled.length ≤ b.remaining.length
    · -- the rest of the packet is there, and perhaps more
      obtain ⟨r, hr, hrest⟩ := split_append hunread (by rw [length_append]; omega)
      have htake : filled ++ b.remaining.take (body.length - filled.length) = body := by
        have hfront := congrArg (List.take body.length) hr
        rwa [take_append, take_of_length_le hfill, take_left] at hfront
      have hdrop : (b.skip (body.length - filled.length)).remaining = r := by
        have hback := congrArg (List.drop body.length) hr
        rwa [drop_append, drop_of_length_le hfill, drop_left, nil_append,
          ← Buffer.remaining_skip] at hback
      simp only [buildBody, Nat.min_eq_left hle, htake, Nat.sub_self, decide_true]
      exact .inOwn h (hdrop.symm ▸ hrest)
    · have hless : b.remaining.length ≤ body.length - filled.length := by omega
      have hnil : (b.skip b.remaining.length).remaining = [] := by
        rw [Buffer.remaining_skip, drop_length]
      have hmore : body.length - filled.length - b.remaining.length ≠ 0 := by omega
      simp only [buildBody, Nat.min_eq_right hless, take_length, hmore, decide_false]
      apply Built.incomplete
      · apply Awaits.extended h
        · rw [length_append]
          omega
        · rw [hnil]
          exact hunread
      · simp only [Short, if_true, length_append]
        exact ⟨hnil, by omega⟩

theorem built_tryBuildPacket {packet : InputPacket} (hkind : KindOf startup kind)
    (hlen : body.length ≤ packetLenLimit)
    (h : Awaits kind body rest packet (b.remaining ++ stream)) :
    ∃ complete i b', Interpreter.tryBuildPacket ⟨startup, packet⟩ b = .ok (complete, i, b') ∧
      Built kind body rest stream startup complete i b' ∧ b'.size = b.size := by
  have hof {i' : Interpreter} {b' : Buffer}
      (hheader : tryReadPacketHeader ⟨startup, packet⟩ b = .ok (true, i', b'))
      (hheaded : Headed kind body rest stream startup b' i') (hsize : b'.size = b.size) :
      ∃ complete i b', tryBuildPacket ⟨startup, packet⟩ b = .ok (complete, i, b') ∧
        Built kind body rest stream startup complete i b' ∧ b'.size = b.size := by
    obtain ⟨hbuilt, hsize'⟩ := built_buildBody hheaded
    exact ⟨_, _, _, tryBuildPacket_of_header hheader, hbuilt, hsize'.trans hsize⟩
  generalize hunread : b.remaining ++ stream = unread at h
  cases h with
  | headed hle => exact hof rfl (.inBuffer hle hunread) rfl
  | extended hlt hfill hbytes => exact hof rfl (.inOwn hlt hfill (hunread ▸ hbytes)) rfl
  | fresh =>
    by_cases hshort : b.remaining.length < getPacketHeaderSize ⟨startup, .clear⟩
    · refine ⟨false, ⟨startup, .clear⟩, b, ?_, ?_, rfl⟩
      · rw [tryBuildPacket, tryReadPacketHeader_short hshort]
        rfl
      · apply Built.incomplete
        · rw [hunread]
          exact .fresh
        · exact hshort
    · rw [hkind.headerSize] at hshort
      rw [frame, append_assoc, append_assoc] at hunread
      obtain ⟨r, hr, hunread⟩ := split_append hunread (by omega)
      have hle : 4 ≤ r.length := by
        rw [hr, length_append] at hshort
        omega
      obtain ⟨r', hr', hunread⟩ := split_append hunread (by simpa using hle)
      obtain ⟨b', hb', hsize, hheader⟩ := tryReadPacketHeader_frame hkind hlen (hr'.symm ▸ hr)
      apply hof hheader _ hsize
      rw [← hb'] at hunread
      split_ifs with hcap
      · exact .inOwn hcap (Nat.zero_le _) hunread
      · exact .inBuffer (by omega) hunread

/-! ### The startup packet -/

theorem readString_text (hnul : 0 ∉ text) (h : b.remaining = text ++ 0 :: rest) :
    b.readString = some (text, b.skip (text.length + 1)) := by
  have htake : b.remaining.takeWhile (· ≠ 0) = text := by
    rw [h, takeWhile_append_of_pos]
    · simp
    · intro byte hbyte
      exact decide_eq_true fun hzero => hnul (hzero ▸ hbyte)
  rw [Buffer.readString, if_pos (by simp [h]), htake]

theorem remaining_skip_text (h : b.remaining = text ++ 0 :: rest) :
    (b.skip (text.length + 1)).remaining = rest := by
  rw [Buffer.remaining_skip, h, append_cons, drop_left' (by simp)]

/-- The parameters of a startup message are read, and the loop goes on behind them. -/
theorem readParameters_append (hnul : ∀ p ∈ parameters, 0 ∉ p.1 ∧ 0 ∉ p.2)
    (h : b.remaining = parameterBytes parameters ++ rest) (rounds : Nat) :
    ∃ b' : Buffer, b'.remaining = rest ∧ b'.size = b.size ∧
      Interpreter.readParameters (parameters.length + rounds) b =
        (Interpreter.readParameters rounds b').map fun r => (parameters ++ r.1, r.2) := by
  induction parameters generalizing b with
  | nil => exact ⟨b, h, rfl, by simp⟩
  | cons p parameters ih =>
    obtain ⟨hkey, hvalue⟩ := hnul p mem_cons_self
    have hb : b.remaining = p.1 ++ 0 :: (p.2 ++ 0 :: (parameterBytes parameters ++ rest)) := by
      simp [h, parameterBytes]
    have hb' := remaining_skip_text hb
    have hb'' := remaining_skip_text hb'
    obtain ⟨b', hrem, hsize, hread⟩ :=
      ih (fun p hp => hnul p (mem_cons_of_mem _ hp)) hb''
    refine ⟨b', hrem, hsize, ?_⟩
    have hmore : b.hasMore 2 = true := by
      rw [Buffer.hasMore_iff _ _ (by omega), hb]
      simp
      omega
    rw [length_cons, Nat.add_right_comm, readParameters, if_pos hmore,
      readString_text hkey hb, bind_eq_bind, bind_some]
    dsimp only
    rw [readString_text hvalue hb', bind_some]
    rw [hread]
    cases readParameters rounds b' with
    | none => rfl
    | some r => rfl

theorem readParameters_end (h : b.remaining.length < 2) (rounds : Nat) :
    Interpreter.readParameters rounds b = some ([], b) := by
  cases rounds with
  | zero => rfl
  | succ rounds =>
    have hmore : ¬ b.hasMore 2 = true := by
      rw [Buffer.hasMore_iff _ _ (by omega)]
      omega
    rw [readParameters, if_neg hmore]

/-- Behind the final nul byte the loop finds another parameter, or no string. -/
theorem readParameters_behind (h : b.remaining = 0 :: rest) (hrest : rest ≠ []) (rounds : Nat) :
    ∀ r ∈ Interpreter.readParameters (rounds + 1) b, r.1 ≠ [] := by
  intro r hr
  have hlength := length_pos_of_ne_nil hrest
  have hmore : b.hasMore 2 = true := by
    rw [Buffer.hasMore_iff _ _ (by omega), h, length_cons]
    omega
  rw [readParameters, if_pos hmore] at hr
  obtain ⟨key, _, hr⟩ := bind_eq_some_iff.1 hr
  obtain ⟨value, _, hr⟩ := bind_eq_some_iff.1 hr
  obtain ⟨more, _, hr⟩ := bind_eq_some_iff.1 hr
  cases hr
  exact cons_ne_nil _ _

theorem length_le_parameterBytes (parameters : List (List UInt8 × List UInt8)) :
    2 * parameters.length ≤ (parameterBytes parameters).length := by
  induction parameters with
  | nil => exact Nat.zero_le _
  | cons p parameters ih =>
    simp only [parameterBytes, flatMap_cons, length_append, length_cons, length_nil] at ih ⊢
    omega

theorem readParameters_startup (hnul : ∀ p ∈ parameters, 0 ∉ p.1 ∧ 0 ∉ p.2)
    (h : b.remaining = parameterBytes parameters ++ 0 :: rest) :
    ∃ (rounds : Nat) (b' : Buffer), b'.remaining = 0 :: rest ∧ b'.size = b.size ∧
      Interpreter.readParameters b.size b =
        (Interpreter.readParameters (rounds + 1) b').map fun r => (parameters ++ r.1, r.2) := by
  have hlength := length_le_parameterBytes parameters
  have hrem := congrArg List.length h
  rw [Buffer.length_remaining, length_append, length_cons] at hrem
  obtain ⟨rounds, hrounds⟩ : ∃ rounds, b.size = parameters.length + (rounds + 1) :=
    ⟨b.size - parameters.length - 1, by omega⟩
  obtain ⟨b', hb', hsize, hread⟩ := readParameters_append hnul h (rounds + 1)
  exact ⟨rounds, b', hb', hsize, hrounds ▸ hread⟩

theorem StartupMessage.version_lt (s : StartupMessage) : s.version < 256 ^ 4 := by
  have hversion := s.version_eq
  omega

theorem StartupMessage.version_ne_ssl (s : StartupMessage) : s.version ≠ sslMessageVerno := by
  intro hssl
  have hversion := s.version_eq
  rw [hssl] at hversion
  exact absurd hversion (by decide)

def finishStartup (server : Server) (i : Interpreter) (version : Nat) (b : Buffer) :
    Option (List (List UInt8 × List UInt8) × Buffer) → Interpreter.Outcome
  | none => ⟨.terminate, i, b, []⟩
  | some (parameters, b) =>
    if server.created parameters then
      ⟨.proceed, { i with startup := false }, b.skip 1, [.startup version parameters]⟩
    else ⟨.terminate, i, b.skip 1, [.startup version parameters]⟩

variable {server : Server}

theorem processStartup_version {memory rest : List UInt8} {i : Interpreter} {b : Buffer}
    (s : StartupMessage) (h : b.remaining = s.body ++ rest) :
    ∃ b' : Buffer, b'.size = b.size ∧ b'.remaining = parameterBytes s.parameters ++ 0 :: rest ∧
      Interpreter.processStartup server memory i b =
        finishStartup server i s.version b' (Interpreter.readParameters b'.size b') := by
  have hb : b.remaining = encode 4 s.version ++ (parameterBytes s.parameters ++ 0 :: rest) := by
    simp [h, StartupMessage.body, startupBody]
  refine ⟨b.skip 4, rfl, ?_, ?_⟩
  · exact Buffer.remaining_skip_of_eq hb (length_encode _ _).symm
  · rw [processStartup, readValue_encode hb, decode_encode s.version_lt]
    dsimp only
    rw [if_neg s.version_ne_ssl, if_neg (not_not.2 s.version_eq)]
    cases readParameters (b.skip 4).size (b.skip 4) with
    | none => rfl
    | some r => rfl

theorem processStartup_exact {memory : List UInt8} {i : Interpreter} {b : Buffer}
    (s : StartupMessage) (h : b.remaining = s.body)
    (hcreate : server.created s.parameters = true) :
    ∃ b' : Buffer, b'.size = b.size ∧ b'.remaining = [] ∧
      Interpreter.processStartup server memory i b =
        ⟨.proceed, { i with startup := false }, b', [s.received]⟩ := by
  rw [← append_nil s.body] at h
  obtain ⟨b₁, hsize₁, hb₁, hprocess⟩ := @processStartup_version server memory [] i b s h
  obtain ⟨rounds, b₂, hb₂, hsize₂, hread⟩ := readParameters_startup s.nul_free hb₁
  have hend : b₂.remaining.length < 2 := by simp [hb₂]
  rw [readParameters_end hend] at hread
  refine ⟨b₂.skip 1, ?_, ?_, ?_⟩
  · exact hsize₂.trans hsize₁
  · rw [Buffer.remaining_skip, hb₂]
    rfl
  · rw [hprocess, hread, map_some, append_nil, finishStartup, if_pos hcreate]
    rfl

def Misread (s : StartupMessage) (o : Interpreter.Outcome) : Prop :=
  o.next = .terminate ∧ o.received = [] ∨ ∃ r, o.received = [r] ∧ r ≠ s.received

/-- With bytes behind it a startup message is not read as it was sent. -/
theorem misread_behind (s : StartupMessage) (h : b.remaining = s.body ++ rest) (hrest : rest ≠ []) :
    Misread s (Interpreter.processStartup server memory i b) := by
  obtain ⟨b₁, _, hb₁, hprocess⟩ := @processStartup_version server memory rest i b s h
  obtain ⟨rounds, b₂, hb₂, _, hread⟩ := readParameters_startup s.nul_free hb₁
  have hbehind := readParameters_behind hb₂ hrest rounds
  rw [hprocess, hread]
  cases hmore : readParameters (rounds + 1) b₂ with
  | none => exact .inl ⟨rfl, rfl⟩
  | some r =>
    have hne : Received.startup s.version (s.parameters ++ r.1) ≠ s.received := by
      intro heq
      injection heq with _ hparameters
      exact hbehind r hmore (append_right_eq_self.1 hparameters)
    apply Or.inr
    refine ⟨_, ?_, hne⟩
    rw [map_some, finishStartup]
    split_ifs <;> rfl

theorem NetworkMessageType.code_bounds (type : NetworkMessageType) :
    66 ≤ type.code.toNat ∧ type.code.toNat < 256 := by
  cases type <;> decide

/-- Bytes that start with the type of a packet are not a version. -/
theorem decode_code {code : UInt8} (hcode : 66 ≤ code.toNat) (hrest : rest.length ≤ 3) :
    BigEndian.decode (code :: rest) ≠ sslMessageVerno ∧
      BigEndian.decode (code :: rest) >>> 16 ≠ 3 := by
  have hbyte (x : UInt8) : x.toNat < 256 := x.toNat_lt
  have hlt := hbyte code
  rw [Nat.shiftRight_eq_div_pow, sslMessageVerno]
  match rest, hrest with
  | [], _ =>
    simp only [decode, reverse_cons, reverse_nil, nil_append, LittleEndian.decode]
    omega
  | [x], _ =>
    have hx := hbyte x
    simp only [decode, reverse_cons, reverse_nil, nil_append, cons_append, LittleEndian.decode]
    omega
  | [x, y], _ =>
    have hx := hbyte x
    have hy := hbyte y
    simp only [decode, reverse_cons, reverse_nil, nil_append, cons_append, LittleEndian.decode]
    omega
  | [x, y, z], _ =>
    simp only [decode, reverse_cons, reverse_nil, nil_append, cons_append, LittleEndian.decode]
    omega

theorem misread_own (s : StartupMessage) {messages : List TypedMessage}
    (hlen : socketBufferCapacity < s.body.length)
    (h : b.remaining ++ stream = messageBytes messages) :
    Misread s (Interpreter.processStartup server memory i b) := by
  have hparameters : s.parameters ≠ [] := by
    intro hnil
    have hbody : s.body.length = 5 := by
      simp [StartupMessage.body, startupBody, hnil, parameterBytes]
    rw [hbody] at hlen
    exact absurd hlen (by decide)
  rw [processStartup, Buffer.readValue]
  cases hb : b.remaining with
  | nil =>
    -- the version comes from the memory behind the buffer, and there are no parameters
    have hend : (b.skip 4).remaining.length < 2 := by
      rw [Buffer.remaining_skip, hb]
      decide
    dsimp only
    rw [readParameters_end hend]
    have hne (version : Nat) : Received.startup version [] ≠ s.received := by
      intro heq
      injection heq with _ hnil
      exact hparameters hnil.symm
    split_ifs with hssl hmajor
    · exact .inr ⟨.sslRequest, rfl, by simp [StartupMessage.received]⟩
    · exact .inl ⟨rfl, rfl⟩
    · apply Or.inr
      refine ⟨.startup (decode (([] ++ memory).take 4)) [], ?_, hne _⟩
      dsimp only
      split_ifs <;> rfl
  | cons code rest =>
    obtain ⟨m, more, rfl⟩ : ∃ m more, messages = m :: more := by
      cases messages with
      | nil => simp [hb, messageBytes] at h
      | cons m more => exact ⟨m, more, rfl⟩
    have hcode : code = m.type.code := by
      rw [hb, messageBytes, flatMap_cons, TypedMessage.bytes, frame] at h
      exact (List.cons.inj h).1
    obtain ⟨hssl, hmajor⟩ := decode_code (hcode ▸ m.type.code_bounds.1)
      (length_take_le 3 (rest ++ memory))
    dsimp only [cons_append, take_succ_cons]
    rw [if_neg hssl, if_pos hmajor]
    exact .inl ⟨rfl, rfl⟩

end Terrier.Network
