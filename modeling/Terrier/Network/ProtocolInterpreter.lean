import Terrier.Network.ReadBuffer

/-!
The framing of the packets that a client sends. A packet that is longer than the read buffer is
collected in a buffer of its own. The first packet of a connection has no type and is read by
other code than those that follow.
-/

namespace Terrier.Network

def packetLenLimit : Nat := 2500000

def sslMessageVerno : Nat := 80877103

inductive NetworkMessageType
  | simpleQuery | parse | bind | describe | execute | sync | close | terminate
  deriving DecidableEq, Repr

namespace NetworkMessageType

def code : NetworkMessageType → UInt8
  | .simpleQuery => 81
  | .parse => 80
  | .bind => 66
  | .describe => 68
  | .execute => 69
  | .sync => 83
  | .close => 67
  | .terminate => 88

def all : List NetworkMessageType :=
  [.simpleQuery, .parse, .bind, .describe, .execute, .sync, .close, .terminate]

/-- The command of a packet; `PacketToCommand` throws if there is none. -/
def ofCode? (code : UInt8) : Option NetworkMessageType := all.find? (·.code == code)

theorem ofCode?_code (type : NetworkMessageType) : ofCode? type.code = some type := by
  cases type <;> rfl

end NetworkMessageType

/-- The packet that is being read; `own` is its buffer if it has one of its own. -/
structure InputPacket where
  msgType : UInt8
  len : Nat
  headerParsed : Bool
  own : Option (List UInt8)
  deriving DecidableEq, Repr

def InputPacket.clear : InputPacket := ⟨0, 0, false, none⟩

structure Interpreter where
  startup : Bool
  packet : InputPacket
  deriving DecidableEq, Repr

inductive Received
  | sslRequest
  | startup (version : Nat) (parameters : List (List UInt8 × List UInt8))
  | command (type : NetworkMessageType) (contents : List UInt8)
  deriving DecidableEq, Repr

/-- Whether the temporary namespace can be created for the parameters of a connection, and whether
a command ends the connection. -/
structure Server where
  created : List (List UInt8 × List UInt8) → Bool
  ends : NetworkMessageType → List UInt8 → Bool

namespace Interpreter

def new : Interpreter := ⟨true, .clear⟩

def getPacketHeaderSize (i : Interpreter) : Nat := if i.startup then 4 else 1 + 4

def setPacketMessageType (i : Interpreter) (b : Buffer) : UInt8 × Buffer :=
  if i.startup then (i.packet.msgType, b) else (b.remaining.headD 0, b.skip 1)

/-- The length of a packet without the length field itself, in the arithmetic of `size_t`. -/
def packetLength (field : Nat) : Nat := (field + 2 ^ 64 - 4) % 2 ^ 64

def tryReadPacketHeader (i : Interpreter) (b : Buffer) :
    Except String (Bool × Interpreter × Buffer) :=
  if i.packet.headerParsed then .ok (true, i, b)
  else if !b.hasMore i.getPacketHeaderSize then .ok (false, i, b)
  else
    let (msgType, b) := i.setPacketMessageType b
    let (field, b) := b.readValue 4 []
    let len := packetLength field
    if packetLenLimit < len then .error "Packet too large"
    else
      let own := if socketBufferCapacity < len then some [] else none
      .ok (true, { i with packet := ⟨msgType, len, true, own⟩ }, b)

/-- Whether the packet is complete. Only a packet with a buffer of its own takes bytes out of the
read buffer here. -/
def tryBuildPacket (i : Interpreter) (b : Buffer) :
    Except String (Bool × Interpreter × Buffer) := do
  let (parsed, i, b) ← i.tryReadPacketHeader b
  if !parsed then return (false, i, b)
  match i.packet.own with
  | none => return (i.packet.len ≤ b.remaining.length, i, b)
  | some filled =>
    let sizeNeeded := i.packet.len - filled.length
    let canRead := min sizeNeeded b.remaining.length
    let own := some (filled ++ b.remaining.take canRead)
    return (sizeNeeded - canRead = 0, { i with packet := { i.packet with own := own } },
      b.skip canRead)

/-- The loop that reads the parameters of a connection: it does not stop at the end of the packet.
Every round takes two bytes at least, so as many rounds as bytes are enough. -/
def readParameters : Nat → Buffer → Option (List (List UInt8 × List UInt8) × Buffer)
  | 0, b => some ([], b)
  | rounds + 1, b =>
    if b.hasMore 2 then do
      let (key, b) ← b.readString
      let (value, b) ← b.readString
      let (parameters, b) ← readParameters rounds b
      some ((key, value) :: parameters, b)
    else some ([], b)

/-- The result of processing: the transition, the state after it and what has been received. An
exception terminates. -/
structure Outcome where
  next : Transition
  interpreter : Interpreter
  buffer : Buffer
  received : List Received

def processStartup (server : Server) (memory : List UInt8) (i : Interpreter) (b : Buffer) :
    Outcome :=
  let (version, b) := b.readValue 4 memory
  if version = sslMessageVerno then ⟨.proceed, i, b, [.sslRequest]⟩
  else if version >>> 16 ≠ 3 then ⟨.terminate, i, b, []⟩
  else
    match readParameters b.size b with
    | none => ⟨.terminate, i, b, []⟩
    | some (parameters, b) =>
      let b := b.skip 1
      if server.created parameters then
        ⟨.proceed, { i with startup := false }, b, [.startup version parameters]⟩
      else ⟨.terminate, i, b, [.startup version parameters]⟩

def processCommand (server : Server) (i : Interpreter) (b : Buffer) : Outcome :=
  match NetworkMessageType.ofCode? i.packet.msgType with
  | none => ⟨.terminate, i, b, []⟩
  | some type =>
    let (contents, b) :=
      match i.packet.own with
      | none => b.readIntoView i.packet.len
      | some filled => (filled, b)
    let next := if server.ends type contents then .terminate else .proceed
    ⟨next, { i with packet := .clear }, b, [.command type contents]⟩

/-- `Process`. The packet of a startup is cleared before it is read. -/
def process (server : Server) (memory : List UInt8) (i : Interpreter) (b : Buffer) : Outcome :=
  match i.tryBuildPacket b with
  | .error _ => ⟨.terminate, i, b, []⟩
  | .ok (false, i, b) => ⟨.needReadTimeout, i, b, []⟩
  | .ok (true, i, b) =>
    if i.startup then processStartup server memory { i with packet := .clear } b
    else processCommand server i b

end Interpreter

inductive Phase
  | reading
  | processing
  | closed
  deriving DecidableEq, Repr

structure Connection where
  phase : Phase
  buffer : Buffer
  interpreter : Interpreter
  stream : List UInt8
  received : List Received

/-- What the world adds to a step: the answers of the socket, and what the memory of the read buffer
holds behind its filled part. -/
structure Arrival where
  answers : List ReadResult
  memory : List UInt8

namespace Connection

def new (stream : List UInt8) : Connection := ⟨.reading, .empty, .new, stream, []⟩

/-- The phase after a transition. Answers are written before the next packet is processed. -/
def phaseAfter : Transition → Phase
  | .proceed => .processing
  | .needRead | .needReadTimeout => .reading
  | _ => .closed

def step (server : Server) (arrival : Arrival) (c : Connection) : Connection :=
  match c.phase with
  | .reading =>
    let (next, b, stream) := fillReadBuffer c.buffer c.stream arrival.answers
    { c with phase := phaseAfter next, buffer := b, stream := stream }
  | .processing =>
    let o := c.interpreter.process server arrival.memory c.buffer
    { c with
      phase := phaseAfter o.next
      buffer := o.buffer
      interpreter := o.interpreter
      received := c.received ++ o.received }
  | .closed => c

def after (server : Server) (arrivals : Nat → Arrival) (c : Connection) : Nat → Connection
  | 0 => c
  | n + 1 => (c.after server arrivals n).step server (arrivals n)

end Connection

end Terrier.Network
