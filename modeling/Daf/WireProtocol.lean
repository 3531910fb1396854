import Mathlib.Data.List.Basic
import Mathlib.Tactic.Ring

/-!
The frames of the DDAL wire protocol: their 21 byte header in network byte
order, the checksum over header and payload, and the parser and serializer of a
single frame. The hash is a parameter; its first four bytes are the checksum.
-/
namespace Daf.WireProtocol

abbrev Bytes := List UInt8

/-! ### Big-endian words -/

/-- The four bytes of a word, most significant first. -/
def toBeBytes (word : UInt32) : Bytes :=
  [UInt8.ofNat (word.toNat / 2^24),UInt8.ofNat (word.toNat / 2^16),UInt8.ofNat (word.toNat / 2^8),UInt8.ofNat word.toNat]
/-- The word of four bytes, most significant first. -/
def fromBeBytes (a b c d : UInt8) : UInt32 :=
  UInt32.ofNat (a.toNat * 2^24 + b.toNat * 2^16 + c.toNat * 2^8 + d.toNat)

@[simp] theorem toBeBytes_length (word : UInt32) : (toBeBytes word).length = 4 := rfl

theorem fromBeBytes_toBeBytes (word : UInt32) :
    fromBeBytes (UInt8.ofNat (word.toNat / 2^24)) (UInt8.ofNat (word.toNat / 2^16)) (UInt8.ofNat (word.toNat / 2^8))
      (UInt8.ofNat word.toNat) = word := by
  have bound := word.toNat_lt
  apply UInt32.toNat_inj.mp
  simp only [fromBeBytes,UInt32.toNat_ofNat',UInt8.toNat_ofNat']
  omega

/-! ### Frames -/

def MAGIC_BYTES : Bytes := [0xDA,0xF0,0xDD,0xA1]
/-- The fixed size of the header: everything before the payload. -/
def HEADER_SIZE : Nat := 21
/-- The largest payload that the protocol admits: 16 MiB. -/
def MAX_PAYLOAD_SIZE : UInt32 := 16 * 1024 * 1024

structure ProtocolVersion where
  major : UInt8
  minor : UInt8
  patch : UInt8
deriving DecidableEq,Repr

def ProtocolVersion.CURRENT : ProtocolVersion := ⟨0,1,0⟩

/-- Same major version and a minor version that is not newer. -/
def ProtocolVersion.is_compatible_with (self other : ProtocolVersion) : Bool :=
  self.major == other.major && other.minor ≤ self.minor

inductive FrameType where
  | Handshake | Data | Ack | Nack | Ping | Pong | Route | Subscribe | Unsubscribe | Close
deriving DecidableEq,Repr

/-- The discriminant of a frame type on the wire. -/
def FrameType.as_u8 : FrameType → UInt8
  | .Handshake => 0x01
  | .Data => 0x02
  | .Ack => 0x03
  | .Nack => 0x04
  | .Ping => 0x05
  | .Pong => 0x06
  | .Route => 0x07
  | .Subscribe => 0x08
  | .Unsubscribe => 0x09
  | .Close => 0x0A

def FrameType.from_u8 (v : UInt8) : Option FrameType :=
  match v with
  | 0x01 => some .Handshake
  | 0x02 => some .Data
  | 0x03 => some .Ack
  | 0x04 => some .Nack
  | 0x05 => some .Ping
  | 0x06 => some .Pong
  | 0x07 => some .Route
  | 0x08 => some .Subscribe
  | 0x09 => some .Unsubscribe
  | 0x0A => some .Close
  | _ => none

theorem from_u8_as_u8 (type : FrameType) : FrameType.from_u8 type.as_u8 = some type := by
  cases type <;> rfl

structure Frame where
  version : ProtocolVersion
  frame_type : FrameType
  stream_id : UInt32
  payload_len : UInt32
  flags : UInt8
  checksum : UInt32
  payload : Bytes
deriving DecidableEq,Repr

inductive FrameDecodeError where
  | UnsupportedVersion (version : ProtocolVersion)
  | InvalidMagic (got : Bytes)
  | UnknownFrameType (byte : UInt8)
  | PayloadTooLarge (size max : UInt32)
  | ChecksumMismatch (expected got : UInt32)
deriving DecidableEq,Repr

/-- The hash function: 32 bytes for every input. -/
abbrev Hash := Bytes → Fin 32 → UInt8

/-- The header before its checksum field, in wire order. -/
def Frame.headerBytes (frame : Frame) : Bytes :=
  MAGIC_BYTES ++ [frame.version.major,frame.version.minor,frame.version.patch] ++ [frame.frame_type.as_u8] ++
    toBeBytes frame.stream_id ++ toBeBytes frame.payload_len ++ [frame.flags]

def Frame.compute_checksum (blake3 : Hash) (frame : Frame) : UInt32 :=
  let hash := blake3 (frame.headerBytes ++ frame.payload)
  fromBeBytes (hash 0) (hash 1) (hash 2) (hash 3)

/-- The first four bytes of a hash, read as one word. -/
def checksumOf (blake3 : Hash) (bytes : Bytes) : UInt32 :=
  fromBeBytes (blake3 bytes 0) (blake3 bytes 1) (blake3 bytes 2) (blake3 bytes 3)

def Frame.verify_checksum (blake3 : Hash) (frame : Frame) : Bool :=
  frame.checksum == frame.compute_checksum blake3

/-- A frame of the current version with the length and checksum of its payload;
    the length is taken modulo 2^32 as the cast of the source does. -/
def Frame.new (blake3 : Hash) (frame_type : FrameType) (stream_id : UInt32) (flags : UInt8) (payload : Bytes) : Frame :=
  let frame : Frame := ⟨.CURRENT,frame_type,stream_id,UInt32.ofNat payload.length,flags,0,payload⟩
  { frame with checksum := frame.compute_checksum blake3 }

def Frame.data (blake3 : Hash) (stream_id : UInt32) (payload : Bytes) : Frame := Frame.new blake3 .Data stream_id 0 payload

/-- The bytes of a frame on the wire, with its header fields as they are. -/
def Frame.encode_to_bytes (frame : Frame) : Bytes :=
  frame.headerBytes ++ toBeBytes frame.checksum ++ frame.payload

/-- The byte at a position that the caller knows to be inside the buffer. -/
def byteAt (buf : Bytes) (i : Nat) : UInt8 := buf.getD i 0
/-- The word at a position that the caller knows to be inside the buffer. -/
def wordAt (buf : Bytes) (i : Nat) : UInt32 :=
  fromBeBytes (byteAt buf i) (byteAt buf (i+1)) (byteAt buf (i+2)) (byteAt buf (i+3))
/-- The payload length that a complete header declares. -/
def payloadLen (buf : Bytes) : UInt32 := wordAt buf 12

/-- The admission rules of a complete header; nothing is consumed. -/
def validate_header (buf : Bytes) : Except FrameDecodeError Unit :=
  if buf.take 4 ≠ MAGIC_BYTES then .error (.InvalidMagic (buf.take 4)) else
  let version : ProtocolVersion := ⟨byteAt buf 4,byteAt buf 5,byteAt buf 6⟩
  if ¬ ProtocolVersion.CURRENT.is_compatible_with version then .error (.UnsupportedVersion version) else
  if (FrameType.from_u8 (byteAt buf 7)).isNone then .error (.UnknownFrameType (byteAt buf 7)) else
  if payloadLen buf > MAX_PAYLOAD_SIZE then .error (.PayloadTooLarge (payloadLen buf) MAX_PAYLOAD_SIZE) else .ok ()

/-- The frame in a buffer that holds exactly one frame, before its integrity is
    checked. -/
def readFrame (frame_buf : Bytes) (payload_len : UInt32) : Except FrameDecodeError Frame :=
  match FrameType.from_u8 (byteAt frame_buf 7) with
  | none => .error (.UnknownFrameType (byteAt frame_buf 7))
  | some frame_type => .ok {
      version := ⟨byteAt frame_buf 4,byteAt frame_buf 5,byteAt frame_buf 6⟩
      frame_type
      stream_id := wordAt frame_buf 8
      payload_len
      flags := byteAt frame_buf 16
      checksum := wordAt frame_buf 17
      payload := (frame_buf.drop HEADER_SIZE).take payload_len.toNat }

/-- Parse one frame from the front of the buffer. `none` asks for more bytes; a
    checksum mismatch has consumed the frame, a bad header nothing. -/
def decode_from_bytes (blake3 : Hash) (buf : Bytes) : Except FrameDecodeError (Option Frame) × Bytes :=
  if buf.length < HEADER_SIZE then (.ok none,buf) else
  match validate_header buf with
  | .error e => (.error e,buf)
  | .ok () =>
    let total_frame_size := HEADER_SIZE + (payloadLen buf).toNat
    if buf.length < total_frame_size then (.ok none,buf) else
    let rest := buf.drop total_frame_size
    match readFrame (buf.take total_frame_size) (payloadLen buf) with
    | .error e => (.error e,rest)
    | .ok frame =>
      if frame.verify_checksum blake3 then (.ok (some frame),rest)
      else (.error (.ChecksumMismatch (frame.compute_checksum blake3) frame.checksum),rest)

/-! ### Bytes that arrive later -/

theorem byteAt_append {buf : Bytes} {i : Nat} (inside : i < buf.length) (tail : Bytes) :
    byteAt (buf ++ tail) i = byteAt buf i := by
  simp [byteAt,List.getD_eq_getElem?_getD,List.getElem?_append_left inside]
theorem wordAt_append {buf : Bytes} {i : Nat} (inside : i + 3 < buf.length) (tail : Bytes) :
    wordAt (buf ++ tail) i = wordAt buf i := by
  simp only [wordAt]
  rw [byteAt_append (by omega),byteAt_append (by omega),byteAt_append (by omega),byteAt_append (by omega)]
theorem payloadLen_append {buf : Bytes} (complete : HEADER_SIZE ≤ buf.length) (tail : Bytes) :
    payloadLen (buf ++ tail) = payloadLen buf := by
  simp only [HEADER_SIZE] at complete
  exact wordAt_append (by omega) tail

/-- A complete header is judged without looking behind it. -/
theorem validate_header_append {buf : Bytes} (complete : HEADER_SIZE ≤ buf.length) (tail : Bytes) :
    validate_header (buf ++ tail) = validate_header buf := by
  have len := payloadLen_append complete tail
  simp only [HEADER_SIZE] at complete
  simp only [validate_header,len,List.take_append_of_le_length (show 4 ≤ buf.length by omega)]
  rw [byteAt_append (by omega),byteAt_append (by omega),byteAt_append (by omega),byteAt_append (by omega)]

/-- An answer of the parser other than "more bytes" is final. -/
theorem decode_from_bytes_append (blake3 : Hash) {buf : Bytes} {answer : Except FrameDecodeError (Option Frame)}
    {rest : Bytes} (decoded : decode_from_bytes blake3 buf = (answer,rest)) (final : answer ≠ .ok none) (tail : Bytes) :
    decode_from_bytes blake3 (buf ++ tail) = (answer,rest ++ tail) := by
  unfold decode_from_bytes at decoded ⊢
  by_cases short : buf.length < HEADER_SIZE
  · rw [if_pos short] at decoded
    cases decoded
    exact absurd rfl final
  · have complete : HEADER_SIZE ≤ buf.length := by omega
    rw [if_neg short] at decoded
    rw [if_neg (show ¬ (buf ++ tail).length < HEADER_SIZE by simp; omega),validate_header_append complete tail]
    cases valid : validate_header buf with
    | error e =>
      simp only [valid] at decoded
      cases decoded
      rfl
    | ok _ =>
      simp only [valid,payloadLen_append complete tail] at decoded ⊢
      by_cases incomplete : buf.length < HEADER_SIZE + (payloadLen buf).toNat
      · rw [if_pos incomplete] at decoded
        cases decoded
        exact absurd rfl final
      · rw [if_neg incomplete] at decoded
        rw [if_neg (show ¬ (buf ++ tail).length < HEADER_SIZE + (payloadLen buf).toNat by simp; omega),
          List.take_append_of_le_length (by omega),List.drop_append_of_le_length (by omega)]
        cases read : readFrame (buf.take (HEADER_SIZE + (payloadLen buf).toNat)) (payloadLen buf) with
        | error e =>
          simp only [read] at decoded
          cases decoded
          rfl
        | ok frame =>
          simp only [read] at decoded ⊢
          by_cases intact : frame.verify_checksum blake3 = true
          · rw [if_pos intact] at decoded ⊢
            cases decoded
            rfl
          · rw [if_neg intact] at decoded ⊢
            cases decoded
            rfl

end Daf.WireProtocol
