import P2Streaming.BigEndianBytes

/-!
# `urdp_visitor.hpp`: the two datagram formats of urdp

Every datagram starts with the twelve bytes of `urdp_packet_basic_format`. A
reliable datagram goes on with two time stamps, the sequence number and the
acknowledgement number; an unreliable one with a packet id and a message type.
All fields are big-endian.
-/
namespace P2Streaming.Urdp
open BigEndianBytes List

/-- `urdp_packet_type`; the codes from 12 on are not assigned. -/
inductive Ctrl where
  | networkUnreachable | punch | connect | connectAck | connectAckAck | data
  | unreliableData | semireliableData | ack | rst | fin | finAck
  | unassigned (code : Fin 244)
  deriving DecidableEq, Repr

def Ctrl.code : Ctrl → ℕ
  | .networkUnreachable => 0
  | .punch => 1
  | .connect => 2
  | .connectAck => 3
  | .connectAckAck => 4
  | .data => 5
  | .unreliableData => 6
  | .semireliableData => 7
  | .ack => 8
  | .rst => 9
  | .fin => 10
  | .finAck => 11
  | .unassigned c => c.val+12

def Ctrl.ofCode : ℕ → Ctrl
  | 0 => .networkUnreachable
  | 1 => .punch
  | 2 => .connect
  | 3 => .connectAck
  | 4 => .connectAckAck
  | 5 => .data
  | 6 => .unreliableData
  | 7 => .semireliableData
  | 8 => .ack
  | 9 => .rst
  | 10 => .fin
  | 11 => .finAck
  | n + 12 => .unassigned (Fin.ofNat 244 n)

theorem Ctrl.code_lt (c : Ctrl) : c.code<256 := by
  cases c with
  | unassigned c => simp only [code]; omega
  | _ => decide

@[simp] theorem Ctrl.ofCode_code (c : Ctrl) : ofCode c.code = c := by
  cases c with
  | unassigned c =>
    simp only [code,ofCode,Ctrl.unassigned.injEq]
    exact Fin.ext (Nat.mod_eq_of_lt c.isLt)
  | _ => rfl

/-- `urdp_packet_basic_format`, without `bandwidth_recving`, which nobody sets or reads. -/
structure Header where
  control : Ctrl
  peerId : BitVec 24
  lostrateRecving : BitVec 8
  idForLostDetect : BitVec 8
  sessionId : BitVec 16
  window : BitVec 16
  deriving DecidableEq, Repr

/-- `urdp_packet_reliable_format`. -/
structure ReliableHeader extends Header where
  timeSending : BitVec 16
  timeEcho : BitVec 16
  seqno : BitVec 32
  ackno : BitVec 32
  deriving DecidableEq, Repr

inductive Packet where
  | reliable (header : ReliableHeader) (data : List Byte)
  | unreliable (header : Header) (pktID msgType : BitVec 16) (data : List Byte)
  deriving DecidableEq, Repr

def Header.encode (h : Header) : List Byte :=
  beBytes 1 h.control.code ++ (beBytes 3 h.peerId.toNat ++ (beBytes 1 h.lostrateRecving.toNat ++
    (beBytes 1 h.idForLostDetect.toNat ++ (beBytes 2 h.sessionId.toNat ++
      (beBytes 2 0 ++ beBytes 2 h.window.toNat)))))

def ReliableHeader.encode (h : ReliableHeader) : List Byte :=
  h.toHeader.encode ++ (beBytes 2 h.timeSending.toNat ++ (beBytes 2 h.timeEcho.toNat ++
    (beBytes 4 h.seqno.toNat ++ beBytes 4 h.ackno.toNat)))

def Packet.encode : Packet → List Byte
  | .reliable h data => h.encode ++ data
  | .unreliable h pktID msgType data =>
      h.encode ++ (beBytes 2 pktID.toNat ++ (beBytes 2 msgType.toNat ++ data))

/-- `unreliable_packet_format_type::format_size()`. -/
def unreliableFormatSize : ℕ := 12

/-- `reliable_packet_format_type::format_size()`. -/
def reliableFormatSize : ℕ := 24

/-- The `n`-byte field of a datagram that starts at an offset. -/
def field (sbuf : List Byte) (offset n : ℕ) : ℕ := beValue ((sbuf.drop offset).take n)

def Header.decode (sbuf : List Byte) : Header where
  control := Ctrl.ofCode (field sbuf 0 1)
  peerId := BitVec.ofNat 24 (field sbuf 1 3)
  lostrateRecving := BitVec.ofNat 8 (field sbuf 4 1)
  idForLostDetect := BitVec.ofNat 8 (field sbuf 5 1)
  sessionId := BitVec.ofNat 16 (field sbuf 6 2)
  window := BitVec.ofNat 16 (field sbuf 10 2)

/-- The reliable header of a datagram of at least twenty-four bytes. -/
def ReliableHeader.decode (sbuf : List Byte) : ReliableHeader where
  toHeader := Header.decode sbuf
  timeSending := BitVec.ofNat 16 (field sbuf 12 2)
  timeEcho := BitVec.ofNat 16 (field sbuf 14 2)
  seqno := BitVec.ofNat 32 (field sbuf 16 4)
  ackno := BitVec.ofNat 32 (field sbuf 20 4)

@[simp] theorem Header.length_encode (h : Header) : h.encode.length=unreliableFormatSize := by
  simp [Header.encode,unreliableFormatSize]

@[simp] theorem ReliableHeader.length_encode (h : ReliableHeader) :
    h.encode.length=reliableFormatSize := by
  simp [ReliableHeader.encode,reliableFormatSize,unreliableFormatSize]

private theorem field_skip (n v : ℕ) (rest : List Byte) (offset k : ℕ) :
    field (beBytes n v ++ rest) (n+offset) k = field rest offset k := by
  rw [field,field,drop_append,length_beBytes,drop_of_length_le (by simp),
    nil_append,Nat.add_sub_cancel_left]

private theorem field_here {n v : ℕ} (hv : v<256^n) (rest : List Byte) :
    field (beBytes n v ++ rest) 0 n = v := by
  rw [field,drop_zero,take_append_of_le_length (by simp),
    take_of_length_le (by simp),beValue_beBytes hv]

private theorem word_here {n w : ℕ} (x : BitVec w) (hw : 2^w=256^n) (rest : List Byte) :
    BitVec.ofNat w (field (beBytes n x.toNat ++ rest) 0 n) = x := by
  rw [field_here (hw ▸ x.isLt),BitVec.ofNat_toNat,BitVec.setWidth_eq]

@[simp] theorem Header.decode_encode (h : Header) (rest : List Byte) :
    Header.decode (h.encode++rest) = h := by
  have hc := field_here (n := 1) h.control.code_lt
  simp only [Header.decode,Header.encode,append_assoc]
  rw [hc,Ctrl.ofCode_code,field_skip 1 _ _ 0,field_skip 1 _ _ 3,field_skip 3 _ _ 0,
    field_skip 1 _ _ 4,field_skip 3 _ _ 1,field_skip 1 _ _ 0,field_skip 1 _ _ 5,
    field_skip 3 _ _ 2,field_skip 1 _ _ 1,field_skip 1 _ _ 0,field_skip 1 _ _ 9,
    field_skip 3 _ _ 6,field_skip 1 _ _ 5,field_skip 1 _ _ 4,field_skip 2 _ _ 2,
    field_skip 2 _ _ 0,word_here h.peerId rfl,word_here h.lostrateRecving rfl,
    word_here h.idForLostDetect rfl,word_here h.sessionId rfl,word_here h.window rfl]

private theorem field_behind (h : Header) (rest : List Byte) (offset k : ℕ) :
    field (h.encode++rest) (12+offset) k = field rest offset k := by
  have hl : h.encode.length=12 := h.length_encode
  rw [field,field,drop_append,hl,drop_of_length_le (by omega),nil_append,
    Nat.add_sub_cancel_left]

@[simp] theorem ReliableHeader.decode_encode (h : ReliableHeader) (rest : List Byte) :
    ReliableHeader.decode (h.encode++rest) = h := by
  simp only [ReliableHeader.decode,ReliableHeader.encode,append_assoc,
    Header.decode_encode]
  rw [field_behind _ _ 0,field_behind _ _ 2,field_behind _ _ 4,field_behind _ _ 8,
    field_skip 2 _ _ 0,field_skip 2 _ _ 2,field_skip 2 _ _ 0,field_skip 2 _ _ 6,
    field_skip 2 _ _ 4,field_skip 4 _ _ 0,word_here h.timeSending rfl,
    word_here h.timeEcho rfl,word_here h.seqno rfl,word_here h.ackno rfl]

def Packet.header : Packet → Header
  | .reliable h _ => h.toHeader
  | .unreliable h _ _ _ => h

@[simp] theorem Packet.decode_encode (p : Packet) : Header.decode p.encode = p.header := by
  cases p with
  | reliable h data =>
    rw [Packet.encode,ReliableHeader.encode,append_assoc,Header.decode_encode]
    rfl
  | unreliable h pktID msgType data => exact Header.decode_encode h _

end P2Streaming.Urdp
