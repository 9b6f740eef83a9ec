import Mathlib.Data.PNat.Defs
import Mathlib.Tactic.IntervalCases
import GsiIndexing.Go.Strconv

/-!
# Transport framing (`transport/util.go`, `transport/transport_flags.go`)

A packet goes on the wire as a header of six bytes, the payload's length as a big-endian
`uint32` and the flags as a big-endian `uint16`, followed by the payload. `Send` stores a 7-bit
checksum of the length into bits 8..14 of the flags; `Receive` reads the header with
`fullRead`, rejects an unknown encoding and a checksum that does not match, and reads the
payload with `fullRead`.

The reading end of the connection is the bytes written and not yet read, and the sizes its
`Read`s return: a `Read` into `k` bytes returns between one and `k` of them, so that a way of
splitting the stream into reads is a list of sizes. Every `Write` is accepted whole.

* `fullRead_spec` — `fullRead` fills its buffer with the next bytes of the stream, however the
  reads split them.
* `receive_send` — `Receive` returns the packet `Send` wrote, with the checksum in its flags.
* `receiveN_sendAll` — a stream of packets and its end marker, received in order.
-/

namespace Transport

open Go

/-- The errors of `Send` and `Receive`; `eof` is the `io.EOF` of a `Read` with nothing left. -/
inductive TransportError where
  | packetOverflow
  | decoderUnknown
  | checksumMismatch
  | eof
  deriving DecidableEq, Repr

def pktLenOffset : ℕ := 0
def pktLenSize : ℕ := 4
def pktFlagOffset : ℕ := pktLenOffset + pktLenSize
def pktFlagSize : ℕ := 2
def pktDataOffset : ℕ := pktFlagOffset + pktFlagSize

def encodingProtobuf : UInt8 := 0x10

/-- `TransportFlag`: the compression in bits 0..3, the encoding in bits 4..7 and the checksum in
bits 8..14. -/
abbrev TransportFlag := UInt16

namespace TransportFlag

def getEncoding (flags : TransportFlag) : UInt8 := (flags &&& (0x00F0 : UInt16)).toUInt8

def getChecksum (flags : TransportFlag) : UInt8 :=
  ((flags &&& (0x7F00 : UInt16)) >>> (8 : UInt16)).toUInt8

def setChecksum (flags : TransportFlag) (c : UInt8) : TransportFlag :=
  (flags &&& (0x80FF : UInt16)) ||| (c.toUInt16 <<< (8 : UInt16))

def isValidEncoding (flags : TransportFlag) : Bool := flags.getEncoding == encodingProtobuf

-- The masks are proved bit by bit: `0x80FF` keeps the encoding and the checksum lands above it.
theorem getEncoding_setChecksum (flags : TransportFlag) (c : UInt8) :
    (flags.setChecksum c).getEncoding = flags.getEncoding := by
  simp only [getEncoding, setChecksum]
  congr 1
  apply UInt16.toBitVec_inj.1
  simp only [UInt16.toBitVec_and, UInt16.toBitVec_or, UInt16.toBitVec_shiftLeft]
  ext i hi
  simp [BitVec.getElem_and, BitVec.getElem_or]
  interval_cases i <;> simp

theorem getChecksum_setChecksum (flags : TransportFlag) (c : UInt8) :
    (flags.setChecksum c).getChecksum = c &&& 0x7F := by
  apply UInt8.toBitVec_inj.1
  simp [getChecksum, setChecksum]
  ext i hi
  simp [BitVec.getElem_and]
  interval_cases i <;> simp

end TransportFlag

namespace BigEndian

/-- `binary.BigEndian.PutUint32`. -/
def putUint32 (v : UInt32) : Bytes :=
  [(v >>> 24).toUInt8, (v >>> 16).toUInt8, (v >>> 8).toUInt8, v.toUInt8]

/-- `binary.BigEndian.PutUint16`. -/
def putUint16 (v : UInt16) : Bytes := [(v >>> 8).toUInt8, v.toUInt8]

/-- `binary.BigEndian.Uint32`; its callers pass four bytes. -/
def uint32 (b : Bytes) : UInt32 :=
  (b.getD 3 0).toUInt32 ||| (b.getD 2 0).toUInt32 <<< 8 ||| (b.getD 1 0).toUInt32 <<< 16 |||
    (b.getD 0 0).toUInt32 <<< 24

/-- `binary.BigEndian.Uint16`; its callers pass two bytes. -/
def uint16 (b : Bytes) : UInt16 := (b.getD 1 0).toUInt16 ||| (b.getD 0 0).toUInt16 <<< 8

@[simp] theorem length_putUint32 (v : UInt32) : (putUint32 v).length = 4 := rfl

@[simp] theorem length_putUint16 (v : UInt16) : (putUint16 v).length = 2 := rfl

-- Bit by bit, through the widths of the casts.
theorem uint32_putUint32 (v : UInt32) : uint32 (putUint32 v) = v := by
  apply UInt32.toBitVec_inj.1
  simp only [uint32, putUint32, List.getD_cons_succ, List.getD_cons_zero, UInt32.toBitVec_or,
    UInt32.toBitVec_shiftLeft, UInt8.toBitVec_toUInt32, UInt32.toBitVec_toUInt8,
    UInt32.toBitVec_shiftRight]
  ext i hi
  simp [BitVec.getElem_or]
  interval_cases i <;> simp

theorem uint16_putUint16 (v : UInt16) : uint16 (putUint16 v) = v := by
  apply UInt16.toBitVec_inj.1
  simp only [uint16, putUint16, List.getD_cons_succ, List.getD_cons_zero, UInt16.toBitVec_or,
    UInt16.toBitVec_shiftLeft, UInt8.toBitVec_toUInt16, UInt16.toBitVec_toUInt8,
    UInt16.toBitVec_shiftRight]
  ext i hi
  simp [BitVec.getElem_or]
  interval_cases i <;> simp

end BigEndian

/-- `computeChecksum`: the low nibbles of the length's last two bytes, cut to 7 bits. -/
def computeChecksum (pktLen : Bytes) : UInt8 :=
  let checksum : UInt8 := 0
  let checksum := checksum ||| (pktLen.getD 3 0 &&& 0x0F)
  let checksum := checksum <<< 4
  let checksum := checksum ||| (pktLen.getD 2 0 &&& 0x0F)
  checksum &&& 0x7F

theorem computeChecksum_and (pktLen : Bytes) :
    computeChecksum pktLen &&& 0x7F = computeChecksum pktLen := by
  simp [computeChecksum, UInt8.and_assoc]

/-! ## Sending -/

/-- `copy(buf[start:], data)`, for `data` that fits. -/
def writeAt (buf : Bytes) (start : ℕ) (data : Bytes) : Bytes :=
  buf.take start ++ data ++ buf.drop (start + data.length)

theorem length_writeAt {buf data : Bytes} {start : ℕ} (h : start + data.length ≤ buf.length) :
    (writeAt buf start data).length = buf.length := by
  simp only [writeAt, List.length_append, List.length_take, List.length_drop]
  omega

theorem take_writeAt {buf : Bytes} {start : ℕ} (data : Bytes) (h : start ≤ buf.length) :
    (writeAt buf start data).take (start + data.length) = buf.take start ++ data := by
  have hlen : (buf.take start ++ data).length = start + data.length := by simp [h]
  rw [writeAt, ← hlen, List.take_left]

/-- `Send`, with every `Write` accepted whole: the bytes written on the connection, the header
`buf[:pktDataOffset]` and then the payload (`none` is a nil slice). -/
def send (buf : Bytes) (flags : TransportFlag) (payload : Option Bytes) (addChksm : Bool) :
    Except TransportError Bytes :=
  if pktLenSize + pktFlagSize > buf.length then .error .packetOverflow
  else
    let buf := writeAt buf pktLenOffset (BigEndian.putUint32 (payload.getD []).length.toUInt32)
    let flags :=
      if payload.isSome && addChksm then
        flags.setChecksum (computeChecksum (buf.extract pktLenOffset (pktLenOffset + pktLenSize)))
      else flags
    let buf := writeAt buf pktFlagOffset (BigEndian.putUint16 flags)
    .ok (buf.take pktDataOffset ++ payload.getD [])

/-- `SendResponseEnd`: a packet with no payload and no flags. -/
def sendResponseEnd : Except TransportError Bytes :=
  send (List.replicate (pktLenSize + pktFlagSize) 0) 0 none false

/-- The flags a packet goes out with: the checksum of its length stored when asked for one and
the payload is not nil. -/
def sentFlags (flags : TransportFlag) (payload : Option Bytes) (addChksm : Bool) : TransportFlag :=
  if payload.isSome && addChksm then
    flags.setChecksum (computeChecksum (BigEndian.putUint32 (payload.getD []).length.toUInt32))
  else flags

/-- The header `Send` lays into a buffer of six bytes or more: the length and the flags. -/
theorem extract_writeAt_zero {buf len : Bytes} (hlen : len.length = 4) :
    (writeAt buf 0 len).extract 0 4 = len := by
  simp [writeAt, List.extract_eq_take_drop, hlen, List.take_left']

theorem take_header {buf len f : Bytes} (hbuf : 6 ≤ buf.length) (hlen : len.length = 4)
    (hf : f.length = 2) : (writeAt (writeAt buf 0 len) 4 f).take 6 = len ++ f := by
  have h4 : (writeAt buf 0 len).take 4 = len := by
    have h := take_writeAt len (Nat.zero_le buf.length)
    rwa [Nat.zero_add, hlen, List.take_zero, List.nil_append] at h
  have hle : 4 ≤ (writeAt buf 0 len).length := by rw [length_writeAt (by omega)]; omega
  have := take_writeAt f hle
  rwa [hf, h4] at this

/-- What `Send` writes: the length, the flags and the payload. -/
theorem send_eq {buf : Bytes} (flags : TransportFlag) (payload : Option Bytes) (addChksm : Bool)
    (hbuf : pktDataOffset ≤ buf.length) :
    send buf flags payload addChksm =
      .ok (BigEndian.putUint32 (payload.getD []).length.toUInt32 ++
        BigEndian.putUint16 (sentFlags flags payload addChksm) ++ payload.getD []) := by
  simp only [pktDataOffset, pktFlagOffset, pktLenOffset, pktLenSize, pktFlagSize,
    Nat.zero_add] at hbuf
  simp only [send, pktDataOffset, pktFlagOffset, pktLenOffset, pktLenSize, pktFlagSize,
    Nat.zero_add, extract_writeAt_zero (BigEndian.length_putUint32 _)]
  rw [if_neg (by omega),
    take_header (by omega) (BigEndian.length_putUint32 _) (BigEndian.length_putUint16 _)]
  rfl

/-! ## Reading -/

/-- The reading end of a connection: the bytes written and not yet read, and the sizes the
coming `Read`s return. A `Read` into `k` bytes returns at most `k`, and once the sizes run out
it returns all it is asked. -/
structure Conn where
  pending : Bytes
  chunks : List ℕ+

/-- How many bytes a `Read` into `k` bytes asks the connection for. -/
def Conn.ask (c : Conn) (k : ℕ) : ℕ :=
  match c.chunks with
  | [] => k
  | s :: _ => min s k

theorem Conn.ask_pos (c : Conn) {k : ℕ} (hk : 0 < k) : 0 < c.ask k := by
  unfold Conn.ask
  split
  · exact hk
  · exact lt_min (PNat.pos _) hk

theorem Conn.ask_le (c : Conn) (k : ℕ) : c.ask k ≤ k := by
  unfold Conn.ask
  split
  · exact le_rfl
  · exact min_le_right _ _

/-- What a `Read` into `k` bytes returns: between one and `k` bytes, and the connection after. -/
structure ReadResult (k : ℕ) where
  data : Bytes
  pos : 0 < data.length
  le : data.length ≤ k
  conn : Conn

/-- `conn.Read` into `k > 0` bytes: `io.EOF` with nothing left, and else the next bytes. -/
def Conn.read (c : Conn) (k : ℕ) (hk : 0 < k) : Except TransportError (ReadResult k) :=
  if hp : c.pending = [] then .error .eof
  else
    .ok { data := c.pending.take (c.ask k)
          pos := by
            have := c.ask_pos hk
            have := List.length_pos_of_ne_nil hp
            simp only [List.length_take]
            omega
          le := by
            have := c.ask_le k
            simp only [List.length_take]
            omega
          conn := ⟨c.pending.drop (c.ask k), c.chunks.tail⟩ }

/-- A `Read` splits the bytes pending into those it returns and those left. -/
theorem Conn.read_ok {c : Conn} {k : ℕ} {hk : 0 < k} {r : ReadResult k} (h : c.read k hk = .ok r) :
    c.pending = r.data ++ r.conn.pending := by
  unfold Conn.read at h
  split at h
  · cases h
  · cases h
    exact (List.take_append_drop _ _).symm

theorem Conn.read_error {c : Conn} {k : ℕ} {hk : 0 < k} {e : TransportError}
    (h : c.read k hk = .error e) : c.pending = [] := by
  unfold Conn.read at h
  split at h
  · assumption
  · cases h

/-- The loop of `fullRead` from `start`: a `Read` into `buf[start:]` until `buf` is full (the
source's `size` and `start` are always equal). -/
def fullReadFrom (buf : Bytes) (start : ℕ) (conn : Conn) : Except TransportError (Bytes × Conn) :=
  if h : start < buf.length then
    match conn.read (buf.length - start) (by omega) with
    | .error e => .error e
    | .ok r => fullReadFrom (writeAt buf start r.data) (start + r.data.length) r.conn
  else .ok (buf, conn)
termination_by buf.length - start
decreasing_by
  have := r.pos
  have := r.le
  rw [length_writeAt (by omega)]
  omega

/-- `fullRead`: reads until `buf` is full. -/
def fullRead (conn : Conn) (buf : Bytes) : Except TransportError (Bytes × Conn) :=
  fullReadFrom buf 0 conn

/-- **`fullRead` from `start` reads the next bytes into `buf[start:]`**, however the reads split
them: with the bytes pending `data ++ rest` and `data` as long as `buf[start:]`, it ends with
`buf[:start] ++ data` and `rest` pending. -/
theorem fullReadFrom_spec (buf : Bytes) (start : ℕ) (conn : Conn) (data rest : Bytes)
    (hstart : start ≤ buf.length) (hdata : data.length = buf.length - start)
    (hpend : conn.pending = data ++ rest) :
    ∃ chunks, fullReadFrom buf start conn = .ok (buf.take start ++ data, ⟨rest, chunks⟩) := by
  -- induction on the loop: each round reads a prefix of `data`
  fun_induction fullReadFrom buf start conn generalizing data with
  | case1 buf start conn h e hread =>
    -- a `Read` fails only with nothing pending, and `data` is not empty
    have hnil := Conn.read_error hread
    rw [hpend, List.append_eq_nil_iff] at hnil
    have := congrArg List.length hnil.1
    rw [List.length_nil] at this
    omega
  | case2 buf start conn h r hread ih =>
    set n := r.data.length
    have hn : n ≤ data.length := by have := r.le; omega
    have hsplit := Conn.read_ok hread
    rw [hpend] at hsplit
    have hdata' : r.data = data.take n := by
      have := congrArg (List.take n) hsplit
      rw [List.take_append_of_le_length hn, List.take_left] at this
      exact this.symm
    have hrest : r.conn.pending = data.drop n ++ rest := by
      have := congrArg (List.drop n) hsplit
      rw [List.drop_append_of_le_length hn, List.drop_left] at this
      exact this.symm
    have hlen : (writeAt buf start r.data).length = buf.length := length_writeAt (by omega)
    obtain ⟨chunks, hrun⟩ := ih (data.drop n) (by omega) (by simp [hlen]; omega) hrest
    refine ⟨chunks, ?_⟩
    rw [hrun, take_writeAt _ hstart, hdata', List.append_assoc, List.take_append_drop]
  | case3 buf start conn h =>
    have hnil : data = [] := List.eq_nil_of_length_eq_zero (by omega)
    subst hnil
    refine ⟨conn.chunks, ?_⟩
    rw [List.take_of_length_le (by omega), List.append_nil]
    cases conn
    simp_all

/-- **`fullRead` fills `buf` with the next bytes of the stream.** -/
theorem fullRead_spec (conn : Conn) (buf data rest : Bytes) (hdata : data.length = buf.length)
    (hpend : conn.pending = data ++ rest) :
    ∃ chunks, fullRead conn buf = .ok (data, ⟨rest, chunks⟩) := by
  simpa [fullRead] using fullReadFrom_spec buf 0 conn data rest (Nat.zero_le _) (by omega) hpend

theorem fullRead_nil (conn : Conn) : fullRead conn [] = .ok ([], conn) := by
  simp [fullRead, fullReadFrom]

/-! ## Receiving -/

/-- `safeBufSlice`: `b[:l]` when the buffer holds `l` bytes, and else a fresh one. -/
def safeBufSlice (b : Bytes) (l : ℕ) : Bytes :=
  if l ≤ b.length then b.take l else List.replicate l 0

@[simp] theorem length_safeBufSlice (b : Bytes) (l : ℕ) : (safeBufSlice b l).length = l := by
  unfold safeBufSlice
  split <;> simp_all

/-- `Receive`: the header, its checks, and the payload. The payload's slice is cut from `buf`
as the header's was; `fullRead` overwrites all of each, so what `buf` held does not matter. -/
def receive (conn : Conn) (buf : Bytes) : Except TransportError (TransportFlag × Bytes × Conn) := do
  let (bufHeader, conn) ← fullRead conn (safeBufSlice buf pktDataOffset)
  let bufLen := bufHeader.extract pktLenOffset (pktLenOffset + pktLenSize)
  let pktlen := BigEndian.uint32 bufLen
  let flags : TransportFlag :=
    BigEndian.uint16 (bufHeader.extract pktFlagOffset (pktFlagOffset + pktFlagSize))
  if pktlen.toNat != 0 && !flags.isValidEncoding then throw .decoderUnknown
  let pktChksm := flags.getChecksum
  if pktChksm != 0 then
    if computeChecksum bufLen != pktChksm then throw .checksumMismatch
  let (bufPkt, conn) ← fullRead conn (safeBufSlice buf pktlen.toNat)
  return (flags, bufPkt, conn)

/-- A packet as `Receive` returns it: its flags with the checksum of its length. -/
def received (p : TransportFlag × Bytes) : TransportFlag × Bytes :=
  (p.1.setChecksum (computeChecksum (BigEndian.putUint32 p.2.length.toUInt32)), p.2)

theorem extract_header (len f : Bytes) (hlen : len.length = 4) (hf : f.length = 2) :
    (len ++ f).extract 0 4 = len ∧ (len ++ f).extract 4 6 = f := by
  constructor
  · simp [List.extract_eq_take_drop, List.take_left', hlen]
  · simp [List.drop_left', hlen, List.take_of_length_le, hf]

/-- **`Receive` returns the packet `Send` wrote**, with the checksum of its length in the flags:
a protobuf packet of fewer than `2^32` bytes, from any buffers and however the reads split the
stream. -/
theorem receive_send (buf buf' : Bytes) (p : TransportFlag × Bytes) (rest : Bytes)
    (chunks : List ℕ+) (hbuf : pktDataOffset ≤ buf.length)
    (henc : p.1.getEncoding = encodingProtobuf) (hlen : p.2.length < 2 ^ 32) :
    ∃ frame, send buf p.1 (some p.2) true = .ok frame ∧
      ∃ chunks', receive ⟨frame ++ rest, chunks⟩ buf' =
        .ok ((received p).1, p.2, ⟨rest, chunks'⟩) := by
  obtain ⟨flags, payload⟩ := p
  simp only at henc hlen ⊢
  refine ⟨_, send_eq flags (some payload) true hbuf, ?_⟩
  set len := BigEndian.putUint32 payload.length.toUInt32
  set f' := sentFlags flags (some payload) true
  have hf' : f' = (received (flags, payload)).1 := rfl
  obtain ⟨hlen4, hflags⟩ := extract_header len (BigEndian.putUint16 f') rfl rfl
  have hpktlen : (BigEndian.uint32 len).toNat = payload.length := by
    rw [BigEndian.uint32_putUint32]
    simp
    omega
  -- the flags keep the encoding, and their checksum is the length's
  have hvalid : f'.isValidEncoding = true := by
    simp [TransportFlag.isValidEncoding, f', sentFlags, TransportFlag.getEncoding_setChecksum, henc]
  have hck : f'.getChecksum = computeChecksum len := by
    simp [f', sentFlags, TransportFlag.getChecksum_setChecksum, computeChecksum_and, len]
  obtain ⟨cs1, h1⟩ := fullRead_spec ⟨len ++ BigEndian.putUint16 f' ++ payload ++ rest, chunks⟩
    (safeBufSlice buf' pktDataOffset) (len ++ BigEndian.putUint16 f') (payload ++ rest)
    (by simp [pktDataOffset, pktFlagOffset, pktLenOffset, pktLenSize, pktFlagSize, len])
    (by simp)
  obtain ⟨cs2, h2⟩ := fullRead_spec ⟨payload ++ rest, cs1⟩ (safeBufSlice buf' payload.length)
    payload rest (by simp) rfl
  refine ⟨cs2, ?_⟩
  show receive ⟨len ++ BigEndian.putUint16 f' ++ payload ++ rest, chunks⟩ buf' =
    .ok (f', payload, ⟨rest, cs2⟩)
  simp only [receive, h1, bind, Except.bind, pktLenOffset, pktLenSize, pktFlagOffset, pktFlagSize,
    Nat.zero_add, hlen4, hflags, BigEndian.uint16_putUint16, hpktlen, hvalid, hck]
  -- the encoding is protobuf and the checksum matches: on to the payload
  simp only [Bool.not_true, Bool.and_false, Bool.false_eq_true, if_false, bne_self_eq_false,
    ite_self, h2]
  rfl


theorem sendResponseEnd_eq : sendResponseEnd = .ok [0, 0, 0, 0, 0, 0] := by
  rw [sendResponseEnd, send_eq _ _ _ (by simp [pktDataOffset, pktFlagOffset, pktLenOffset,
    pktLenSize, pktFlagSize])]
  rfl

/-- `Receive` returns the end marker as no flags and an empty payload, reading nothing more. -/
theorem receive_responseEnd (buf' rest : Bytes) (chunks : List ℕ+) :
    ∃ chunks', receive ⟨[0, 0, 0, 0, 0, 0] ++ rest, chunks⟩ buf' = .ok (0, [], ⟨rest, chunks'⟩) := by
  obtain ⟨cs1, h1⟩ := fullRead_spec ⟨[0, 0, 0, 0, 0, 0] ++ rest, chunks⟩
    (safeBufSlice buf' pktDataOffset) [0, 0, 0, 0, 0, 0] rest
    (by simp [pktDataOffset, pktFlagOffset, pktLenOffset, pktLenSize, pktFlagSize]) rfl
  have hslice : safeBufSlice buf' 0 = [] := by simp [safeBufSlice]
  refine ⟨cs1, ?_⟩
  simp only [receive, h1, bind, Except.bind]
  simp [pktLenOffset, pktLenSize, pktFlagOffset, pktFlagSize, BigEndian.uint32, BigEndian.uint16,
    TransportFlag.getChecksum, hslice, fullRead_nil]
  rfl

/-! ## A stream of packets -/

/-- A sender's stream: one `Send` with a checksum for each packet, and then `SendResponseEnd`
when `withEnd`. -/
def sendAll (buf : Bytes) (withEnd : Bool) : List (TransportFlag × Bytes) → Except TransportError Bytes
  | [] => if withEnd then sendResponseEnd else pure []
  | p :: pkts => do
    let frame ← send buf p.1 (some p.2) true
    let more ← sendAll buf withEnd pkts
    return frame ++ more

/-- `n` successive `Receive`s into `buf`. -/
def receiveN (buf : Bytes) : ℕ → Conn → Except TransportError (List (TransportFlag × Bytes) × Conn)
  | 0, conn => pure ([], conn)
  | n + 1, conn => do
    let (flags, payload, conn) ← receive conn buf
    let (more, conn) ← receiveN buf n conn
    return ((flags, payload) :: more, conn)

theorem receiveN_succ {buf : Bytes} {n : ℕ} {conn conn' : Conn} {flags : TransportFlag}
    {payload : Bytes} (h : receive conn buf = .ok (flags, payload, conn')) :
    receiveN buf (n + 1) conn = (receiveN buf n conn').map fun r => ((flags, payload) :: r.1, r.2) := by
  simp only [receiveN, h, bind, Except.bind]
  cases receiveN buf n conn' <;> rfl

/-- **A stream of packets is received as it was sent.** Protobuf packets of fewer than `2^32`
bytes each, sent with checksums from a buffer of six bytes or more and followed by the end
marker when `withEnd`, are returned by as many `Receive`s, in order, with their checksums in the
flags, and the end marker as no flags and an empty payload; from any buffer, however the reads
split the stream. -/
theorem receiveN_sendAll (buf buf' : Bytes) (withEnd : Bool) (pkts : List (TransportFlag × Bytes))
    (chunks : List ℕ+) (hbuf : pktDataOffset ≤ buf.length)
    (henc : ∀ p ∈ pkts, p.1.getEncoding = encodingProtobuf)
    (hlen : ∀ p ∈ pkts, p.2.length < 2 ^ 32) :
    ∃ wire, sendAll buf withEnd pkts = .ok wire ∧ ∃ chunks',
      receiveN buf' (pkts.length + if withEnd then 1 else 0) ⟨wire, chunks⟩ =
        .ok (pkts.map received ++ if withEnd then [(0, [])] else [], ⟨[], chunks'⟩) := by
  induction pkts generalizing chunks with
  | nil =>
    cases withEnd
    · exact ⟨[], rfl, chunks, rfl⟩
    · -- the end marker alone
      obtain ⟨cs, hrecv⟩ := receive_responseEnd buf' [] chunks
      refine ⟨_, sendResponseEnd_eq, cs, ?_⟩
      rw [List.append_nil] at hrecv
      simp [receiveN_succ hrecv, receiveN, pure, Except.pure, Except.map]
  | cons p pkts ih =>
    -- the first packet's frame, then the rest of the stream
    have henc' : ∀ q ∈ pkts, q.1.getEncoding = encodingProtobuf :=
      fun q hq => henc q (List.mem_cons_of_mem _ hq)
    have hlen' : ∀ q ∈ pkts, q.2.length < 2 ^ 32 := fun q hq => hlen q (List.mem_cons_of_mem _ hq)
    obtain ⟨more, hmore, -⟩ := ih chunks henc' hlen'
    obtain ⟨frame, hframe, cs1, hrecv⟩ := receive_send buf buf' p more chunks hbuf
      (henc p List.mem_cons_self) (hlen p List.mem_cons_self)
    obtain ⟨more', hmore', cs2, hrun⟩ := ih cs1 henc' hlen'
    -- the stream after the first frame does not depend on how it is read
    cases hmore.symm.trans hmore'
    refine ⟨frame ++ more, by simp [sendAll, hframe, hmore, bind, Except.bind, pure, Except.pure],
      cs2, ?_⟩
    rw [List.length_cons, Nat.add_right_comm, receiveN_succ hrecv, hrun]
    rfl

theorem receiveN_sendAll_one_packet :
    ∃ wire, sendAll (List.replicate 6 0) true [((0x10 : TransportFlag), ([1, 2, 3] : Bytes))] =
        .ok wire ∧ ∃ chunks',
      receiveN [] ([((0x10 : TransportFlag), ([1, 2, 3] : Bytes))].length + if true then 1 else 0)
          ⟨wire, [1, 2]⟩ =
        .ok ([((0x10 : TransportFlag), ([1, 2, 3] : Bytes))].map received ++
          if true then [(0, [])] else [], ⟨[], chunks'⟩) :=
  receiveN_sendAll _ _ _ _ _ (by decide) (by decide) (by decide)

end Transport
