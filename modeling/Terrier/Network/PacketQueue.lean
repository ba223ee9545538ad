import Terrier.Lib.BigEndian
import Terrier.Network.IoUtils

/-!
Packets that are written through the buffers of a `WriteQueue`, the last buffer being filled.
The length of a packet is kept in the queue, by way of a pointer into one of the buffers, and
is turned into network order at the end.
-/

namespace Terrier.Network

abbrev Buffers := List (List UInt8)

/-- `BufferWriteRaw` with a new buffer at the end of the queue: the new buffers. -/
def fillBuffers (src : List UInt8) : Buffers :=
  if src.length ≤ socketBufferCapacity then [src]
  else src.take socketBufferCapacity :: fillBuffers (src.drop socketBufferCapacity)
termination_by src.length
decreasing_by
  simp only [socketBufferCapacity, List.length_drop] at *
  omega

def bufferWriteRaw (buffers : Buffers) (src : List UInt8) (breakup : Bool) : Buffers :=
  let tail := buffers.getLastD []
  let remainingCapacity := socketBufferCapacity - tail.length
  if src.length ≤ remainingCapacity then buffers.dropLast ++ [tail ++ src]
  else
    let written := if breakup then remainingCapacity else 0
    buffers.dropLast ++ (tail ++ src.take written) :: fillBuffers (src.drop written)

/-- `currPacketLen` is a buffer and a position in it. -/
structure PacketWriter where
  buffers : Buffers
  currPacketLen : Nat × Nat

namespace PacketWriter

def updateLength (w : PacketWriter) (f : Nat → List UInt8) : PacketWriter :=
  let (i, position) := w.currPacketLen
  let buffer := w.buffers.getD i []
  let length := LittleEndian.decode ((buffer.drop position).take 4)
  let updated := buffer.take position ++ (f length ++ buffer.drop (position + 4))
  { w with buffers := w.buffers.set i updated }

def beginPacket (buffers : Buffers) (type : Option UInt8) : PacketWriter :=
  let buffers := bufferWriteRaw (bufferWriteRaw buffers type.toList true) [0, 0, 0, 0] false
  ⟨buffers, buffers.length - 1, (buffers.getLastD []).length - 4⟩

def appendRaw (w : PacketWriter) (src : List UInt8) : PacketWriter :=
  { w with buffers := bufferWriteRaw w.buffers src true }.updateLength fun length =>
    LittleEndian.encode 4 (length + src.length)

def endPacket (w : PacketWriter) : Buffers :=
  (w.updateLength fun length => BigEndian.encode 4 (length + 4)).buffers

end PacketWriter

inductive Append
  | raw (src : List UInt8)
  | value (width n : Nat)
  | string (str : List UInt8) (nulTerminate : Bool)

/-- What is handed to `AppendRaw`. -/
def Append.bytes : Append → List UInt8
  | raw src => src
  | value width n => BigEndian.encode width n
  | string str nulTerminate => if nulTerminate then str ++ [0] else str

/-- A packet has no type if it has no header. -/
structure Packet where
  type : Option UInt8
  appends : List Append

def Packet.body (p : Packet) : List UInt8 := p.appends.flatMap Append.bytes

def writePacket (buffers : Buffers) (p : Packet) : Buffers :=
  (p.appends.foldl (fun w a => w.appendRaw a.bytes)
    (PacketWriter.beginPacket buffers p.type)).endPacket

end Terrier.Network
