import Nachos.Base.Bytes

/-!
# Packets and mail

The formats of `machine/network.h` and `network/post.h`. A packet is a `PacketHeader` and its data, padded to
`MaxWireSize` with whatever the buffer holds; the data of a packet is a `MailHeader` and the
message. What is read from the wire is the mail that was put there.
-/

namespace Nachos.Devices
open Bytes

def maxWireSize : ℕ := 64
def headerSize : ℕ := 12
def maxPacketSize : ℕ := maxWireSize - headerSize
def maxMailSize : ℕ := maxPacketSize - headerSize

/-- The fields `to`, `from` and `length`. -/
@[ext] structure Header where
  to' : Word
  from' : Word
  length : Word
  deriving DecidableEq

/-- Machine addresses, and the length of the data with the `MailHeader`. -/
abbrev PacketHeader := Header

/-- Mailbox addresses, and the length of the message. -/
abbrev MailHeader := Header

namespace Header

def bytes (h : Header) : List Byte := encode 3 fun k => if k = 0 then h.to' else if k = 1 then h.from' else h.length

/-- `*(PacketHeader *)buffer` and `*(MailHeader *)buffer`. -/
def ofBytes (buffer : List Byte) : Header := ⟨wordAt buffer 0, wordAt buffer 1, wordAt buffer 2⟩

theorem length_bytes (h : Header) : h.bytes.length = 12 := length_encode _ _

theorem ofBytes_append (h : Header) (rest : List Byte) : ofBytes (h.bytes ++ rest) = h := by
  have word (k : ℕ) (hk : k < 3) : wordAt (h.bytes ++ rest) k = wordAt h.bytes k := by
    have front (i : ℕ) (hi : i < 12) : (h.bytes ++ rest).getD i 0 = h.bytes.getD i 0 :=
      List.getD_append _ _ _ _ (by rw [length_bytes]; exact hi)
    rw [wordAt, wordAt, front _ (by omega), front _ (by omega), front _ (by omega), front _ (by omega)]
  ext1
  · rw [ofBytes, word 0 (by decide), bytes, wordAt_encode _ (by decide)]
    rfl
  · rw [ofBytes, word 1 (by decide), bytes, wordAt_encode _ (by decide)]
    rfl
  · rw [ofBytes, word 2 (by decide), bytes, wordAt_encode _ (by decide)]
    rfl

end Header

/-- `Mail`. The bytes of `data` behind the message are never read. -/
structure Mail where
  pktHdr : PacketHeader
  mailHdr : MailHeader
  data : List Byte
  deriving DecidableEq

/-- A packet as `NetworkOutput::Send` gets it: its data lies in a larger buffer. -/
abbrev Packet := PacketHeader × List Byte

/-- `PostOfficeOutput::Send` up to the lock. `data` is the caller's memory and `heap` what `new` finds in the buffer; none if
an `ASSERT` fails, or if the message is longer than the memory. -/
def prepare (hostName : Word) (heap : ℕ → Byte) (pktHdr : PacketHeader) (mailHdr : MailHeader) (data : List Byte) : Option Packet :=
  if mailHdr.length.toNat ≤ maxMailSize ∧ 0 ≤ mailHdr.to'.toInt ∧ mailHdr.length.toNat ≤ data.length then
    some ({ pktHdr with from' := hostName, length := mailHdr.length + 12 },
      overwrite (overwrite (tabulate maxPacketSize heap) 0 mailHdr.bytes) headerSize (data.take mailHdr.length.toNat))
  else none

/-- The buffer that `NetworkOutput::Send` puts on the wire. -/
def wire (heap : ℕ → Byte) (packet : Packet) : List Byte :=
  overwrite (overwrite (tabulate maxWireSize heap) 0 packet.1.bytes) headerSize (packet.2.take packet.1.length.toNat)

/-- The mail that is on the wire. -/
def Mail.ofWire (buffer : List Byte) : Mail :=
  let mailHdr := Header.ofBytes (buffer.drop 12)
  ⟨Header.ofBytes buffer, mailHdr, (buffer.drop 24).take mailHdr.length.toNat⟩

/-- The bytes of a mail. -/
def Mail.bytes (m : Mail) : List Byte := m.pktHdr.bytes ++ (m.mailHdr.bytes ++ m.data)

/-- The mail that `Send` makes of its arguments. -/
def Mail.sent (hostName : Word) (pktHdr : PacketHeader) (mailHdr : MailHeader) (data : List Byte) : Mail :=
  ⟨{ pktHdr with from' := hostName, length := mailHdr.length + 12 }, mailHdr, data.take mailHdr.length.toNat⟩

/-- The lengths fit, as the `ASSERT`s of both sides want them. -/
structure Mail.Legal (m : Mail) : Prop where
  short : m.mailHdr.length.toNat ≤ 40
  length : m.pktHdr.length = m.mailHdr.length + 12
  box : 0 ≤ m.mailHdr.to'.toInt
  data : m.data.length = m.mailHdr.length.toNat

namespace Mail

variable {m : Mail} {rest : List Byte}

theorem Legal.toNat_length (h : m.Legal) : m.pktHdr.length.toNat = m.mailHdr.length.toNat + 12 := by
  have short := h.short
  rw [h.length, BitVec.toNat_add, show (12 : Word).toNat = 12 from rfl]
  omega

/-- **Reading back**: whatever lies behind a mail in the buffer. -/
theorem ofWire_append (h : m.Legal) : ofWire (m.bytes ++ rest) = m := by
  have first : (m.bytes ++ rest).drop 12 = m.mailHdr.bytes ++ (m.data ++ rest) := by
    rw [bytes, List.append_assoc, List.append_assoc, List.drop_left' (Header.length_bytes _)]
  have second : (m.bytes ++ rest).drop 24 = m.data ++ rest := by
    rw [show 24 = 12 + 12 from rfl, ← List.drop_drop, first, List.drop_left' (Header.length_bytes _)]
  simp only [ofWire, first, second, Header.ofBytes_append]
  rw [List.take_left' h.data, bytes, List.append_assoc, Header.ofBytes_append]

end Mail

/-- `bcopy` into the front of a buffer. -/
theorem overwrite_zero (buf src : List Byte) : overwrite buf 0 src = src ++ buf.drop src.length := by
  rw [overwrite, List.take_zero, List.nil_append, Nat.zero_add]

/-- `bcopy` into the front of a buffer, and behind what is there. -/
theorem overwrite_front (buf front src : List Byte) (o : ℕ) (h : front.length = o) :
    ∃ rest, overwrite (overwrite buf 0 front) o src = front ++ (src ++ rest) := by
  refine ⟨(front ++ buf.drop front.length).drop (o + src.length), ?_⟩
  rw [overwrite_zero, overwrite, List.take_left' h, List.append_assoc]

/-- The data of a packet: the mail header and the message. -/
theorem Mail.Legal.take_data {m : Mail} (h : m.Legal) (rest : List Byte) :
    (m.mailHdr.bytes ++ (m.data ++ rest)).take m.pktHdr.length.toNat = m.mailHdr.bytes ++ m.data := by
  rw [← List.append_assoc]
  apply List.take_left'
  rw [List.length_append, Header.length_bytes, h.data, h.toNat_length, Nat.add_comm]

/-- The packet of a mail: its data begins with the mail header and the message. -/
structure Packet.Holds (packet : Packet) (m : Mail) : Prop where
  header : packet.1 = m.pktHdr
  data : ∃ rest, packet.2 = m.mailHdr.bytes ++ (m.data ++ rest)
  legal : m.Legal

theorem prepare_holds {hostName : Word} {heap : ℕ → Byte} {pktHdr : PacketHeader} {mailHdr : MailHeader} {data : List Byte} {packet : Packet}
    (done : prepare hostName heap pktHdr mailHdr data = some packet) : Packet.Holds packet (.sent hostName pktHdr mailHdr data) := by
  obtain ⟨⟨short, box, enough⟩, rfl⟩ := Option.ite_none_right_eq_some.1 done |>.imp_right Option.some.inj
  refine ⟨rfl, overwrite_front _ _ _ _ (Header.length_bytes _), short, rfl, box, ?_⟩
  exact List.length_take_of_le enough

/-- **What goes on the wire is the mail**, padded. -/
theorem wire_holds (heap : ℕ → Byte) {packet : Packet} {m : Mail} (h : packet.Holds m) :
    (wire heap packet).length = maxWireSize ∧ ∃ rest, wire heap packet = m.bytes ++ rest := by
  obtain ⟨header, ⟨rest, data⟩, legal⟩ := h
  have short := legal.short
  have whole : packet.2.take packet.1.length.toNat = m.mailHdr.bytes ++ m.data := by
    rw [data, header, legal.take_data]
  constructor
  · have front : (overwrite (tabulate maxWireSize heap) 0 packet.1.bytes).length = maxWireSize := by
      rw [length_overwrite, length_tabulate]
      rw [length_tabulate, Header.length_bytes]
      decide
    rw [wire, length_overwrite, front]
    rw [whole, front, List.length_append, Header.length_bytes, legal.data]
    change 12 + (12 + _) ≤ 64
    omega
  · obtain ⟨rest', eq⟩ := overwrite_front (tabulate maxWireSize heap) packet.1.bytes (packet.2.take packet.1.length.toNat) headerSize
      (Header.length_bytes _)
    refine ⟨rest', ?_⟩
    rw [wire, eq, whole, header, Mail.bytes, List.append_assoc, List.append_assoc, List.append_assoc]

end Nachos.Devices
