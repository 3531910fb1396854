import Daf.WireCodec

/-!
What the codec takes from the front of a buffer, read off the bytes: the fields of the header stand where the encoder
writes them, so that the frame that is decoded encodes to the bytes that are gone, and the encoder accepts it.
-/
namespace Daf.WireGrammar
open Daf.WireProtocol Daf.WireCodec

/-! ### Fields of a buffer -/

theorem toBeBytes_fromBeBytes (a b c d : UInt8) : toBeBytes (fromBeBytes a b c d) = [a,b,c,d] := by
  have first := a.toNat_lt
  have second := b.toNat_lt
  have third := c.toNat_lt
  have fourth := d.toNat_lt
  have word : (fromBeBytes a b c d).toNat = a.toNat * 2^24 + b.toNat * 2^16 + c.toNat * 2^8 + d.toNat := by
    simp only [fromBeBytes,UInt32.toNat_ofNat']
    omega
  simp only [toBeBytes,word,List.cons.injEq,and_true]
  refine ⟨?_,?_,?_,?_⟩ <;> apply UInt8.toNat_inj.mp <;> simp only [UInt8.toNat_ofNat'] <;> omega

theorem as_u8_from_u8 {byte : UInt8} {type : FrameType} (known : FrameType.from_u8 byte = some type) : type.as_u8 = byte := by
  unfold FrameType.from_u8 at known
  split at known <;> cases known <;> rfl

theorem drop_byteAt {buf : Bytes} {i : Nat} (inside : i < buf.length) : buf.drop i = byteAt buf i :: buf.drop (i+1) := by
  rw [List.drop_eq_getElem_cons inside]
  simp [byteAt,List.getD_eq_getElem?_getD,inside]

theorem drop_wordAt {buf : Bytes} {i : Nat} (inside : i + 3 < buf.length) : buf.drop i = toBeBytes (wordAt buf i) ++ buf.drop (i+4) := by
  rw [wordAt,toBeBytes_fromBeBytes,drop_byteAt (by omega),drop_byteAt (i := i+1) (by omega),drop_byteAt (i := i+2) (by omega),
    drop_byteAt (i := i+3) inside]
  rfl

theorem byteAt_take {buf : Bytes} {i n : Nat} (inside : i < n) (enough : n ≤ buf.length) : byteAt (buf.take n) i = byteAt buf i := by
  have early := byteAt_append (show i < (buf.take n).length by rw [List.length_take]; omega) (buf.drop n)
  rw [List.take_append_drop] at early
  exact early.symm

theorem wordAt_take {buf : Bytes} {i n : Nat} (inside : i + 3 < n) (enough : n ≤ buf.length) : wordAt (buf.take n) i = wordAt buf i := by
  simp only [wordAt]
  rw [byteAt_take (by omega) enough,byteAt_take (by omega) enough,byteAt_take (by omega) enough,byteAt_take (by omega) enough]

/-- The bytes of the frame that the header announces. -/
def frameSize (buf : Bytes) : Nat := HEADER_SIZE + (payloadLen buf).toNat
def payloadOf (buf : Bytes) : Bytes := (buf.drop HEADER_SIZE).take (payloadLen buf).toNat

/-- The header is one that the codec admits. -/
structure Admitted (codec : DdalCodec) (buf : Bytes) : Prop where
  version : ProtocolVersion.CURRENT.is_compatible_with ⟨byteAt buf 4,byteAt buf 5,byteAt buf 6⟩ = true
  type : (FrameType.from_u8 (byteAt buf 7)).isSome = true
  payload : payloadLen buf ≤ MAX_PAYLOAD_SIZE
  limit : frameSize buf ≤ codec.max_frame_size

/-- The stored checksum is that of the header before it and of the payload. -/
def Intact (blake3 : Hash) (buf : Bytes) : Prop := wordAt buf 17 = checksumOf blake3 (buf.take 17 ++ payloadOf buf)

/-- The frame at the front of a buffer that holds it whole. -/
def frameOf (buf : Bytes) (type : FrameType) : Frame where
  version := ⟨byteAt buf 4,byteAt buf 5,byteAt buf 6⟩
  frame_type := type
  stream_id := wordAt buf 8
  payload_len := payloadLen buf
  flags := byteAt buf 16
  checksum := wordAt buf 17
  payload := payloadOf buf

section
variable {blake3 : Hash} {codec : DdalCodec} {src rest : Bytes} {frame : Frame} {type : FrameType}

theorem header_le (src : Bytes) : 21 ≤ frameSize src := by
  simp only [frameSize,HEADER_SIZE]
  exact Nat.le_add_right 21 _

theorem payloadOf_length (full : frameSize src ≤ src.length) : (payloadOf src).length = (payloadLen src).toNat := by
  simp only [frameSize] at full
  rw [payloadOf,List.length_take,List.length_drop]
  omega

/-- Cutting the buffer behind the header does not change what is read from the header. -/
theorem readFrame_take {n : Nat} {len : UInt32} (header : 21 ≤ n) (full : n ≤ src.length) (known : FrameType.from_u8 (byteAt src 7) = some type) :
    readFrame (src.take n) len = .ok ⟨⟨byteAt src 4,byteAt src 5,byteAt src 6⟩,type,wordAt src 8,len,byteAt src 16,wordAt src 17,
      ((src.take n).drop HEADER_SIZE).take len.toNat⟩ := by
  unfold readFrame
  rw [byteAt_take (by omega) full,byteAt_take (by omega) full,byteAt_take (by omega) full,byteAt_take (by omega) full,
    byteAt_take (by omega) full,wordAt_take (by omega) full,wordAt_take (by omega) full,known]

theorem readFrame_eq (full : frameSize src ≤ src.length) (known : FrameType.from_u8 (byteAt src 7) = some type) :
    readFrame (src.take (frameSize src)) (payloadLen src) = .ok (frameOf src type) := by
  have payload : ((src.take (frameSize src)).drop HEADER_SIZE).take (payloadLen src).toNat = payloadOf src := by
    rw [List.drop_take,frameSize,Nat.add_sub_cancel_left,List.take_take,Nat.min_self,payloadOf]
  rw [readFrame_take (header_le src) full known,payload,frameOf]

/-- The bytes before the checksum are those that the encoder writes there. -/
theorem headerBytes_frameOf (magic : src.take 4 = MAGIC_BYTES) (full : frameSize src ≤ src.length)
    (known : FrameType.from_u8 (byteAt src 7) = some type) : src = (frameOf src type).headerBytes ++ src.drop 17 := by
  have header : 21 ≤ src.length := (header_le src).trans full
  calc src = src.take 4 ++ src.drop 4 := (List.take_append_drop 4 src).symm
    _ = _ := by
      rw [magic,drop_byteAt (by omega),drop_byteAt (by omega),drop_byteAt (by omega),drop_byteAt (by omega),drop_wordAt (by omega),
        drop_wordAt (by omega),drop_byteAt (by omega)]
      simp only [Frame.headerBytes,frameOf,payloadLen,as_u8_from_u8 known,List.append_assoc,List.cons_append,List.nil_append]

theorem take_headerBytes (magic : src.take 4 = MAGIC_BYTES) (full : frameSize src ≤ src.length)
    (known : FrameType.from_u8 (byteAt src 7) = some type) : (frameOf src type).headerBytes = src.take 17 := by
  have front : (frameOf src type).headerBytes <+: src := ⟨src.drop 17,(headerBytes_frameOf magic full known).symm⟩
  exact List.prefix_iff_eq_take.mp front

/-- The frame encodes to the bytes that it was read from. -/
theorem encode_frameOf (magic : src.take 4 = MAGIC_BYTES) (full : frameSize src ≤ src.length)
    (known : FrameType.from_u8 (byteAt src 7) = some type) : src = (frameOf src type).encode_to_bytes ++ src.drop (frameSize src) := by
  have header : 21 ≤ src.length := (header_le src).trans full
  have tail : src.drop HEADER_SIZE = payloadOf src ++ src.drop (frameSize src) := by
    rw [frameSize,← List.drop_drop]
    exact (List.take_append_drop _ _).symm
  have behind : src.drop 17 = toBeBytes (wordAt src 17) ++ (payloadOf src ++ src.drop (frameSize src)) := by
    rw [drop_wordAt (by omega),← tail]
    rfl
  calc src = (frameOf src type).headerBytes ++ src.drop 17 := headerBytes_frameOf magic full known
    _ = _ := by
      rw [behind,Frame.encode_to_bytes,List.append_assoc,List.append_assoc]
      rfl

theorem verify_frameOf (magic : src.take 4 = MAGIC_BYTES) (full : frameSize src ≤ src.length)
    (known : FrameType.from_u8 (byteAt src 7) = some type) : (frameOf src type).verify_checksum blake3 = true ↔ Intact blake3 src := by
  rw [Frame.verify_checksum,beq_iff_eq,Frame.compute_checksum,take_headerBytes magic full known]
  rfl

/-! ### The grammar -/

theorem validate_header_iff (magic : src.take 4 = MAGIC_BYTES) : validate_header src = .ok () ↔
    ProtocolVersion.CURRENT.is_compatible_with ⟨byteAt src 4,byteAt src 5,byteAt src 6⟩ = true ∧
      (FrameType.from_u8 (byteAt src 7)).isSome = true ∧ payloadLen src ≤ MAX_PAYLOAD_SIZE := by
  unfold validate_header
  rw [if_neg (not_not.mpr magic)]
  simp only
  by_cases version : ProtocolVersion.CURRENT.is_compatible_with ⟨byteAt src 4,byteAt src 5,byteAt src 6⟩ = true
  · rw [if_neg (not_not.mpr version)]
    cases known : FrameType.from_u8 (byteAt src 7) with
    | none => simp
    | some type =>
      by_cases large : payloadLen src > MAX_PAYLOAD_SIZE
      · simp [large,UInt32.not_le.mpr large]
      · simp [version,large,UInt32.not_lt.mp large]
  · rw [if_pos version]
    exact ⟨nofun,fun admitted => absurd admitted.1 version⟩

theorem decode_short (magic : src.take 4 = MAGIC_BYTES) (short : src.length < HEADER_SIZE) : codec.decode blake3 src = (.ok none,src) := by
  unfold DdalCodec.decode
  rw [align_at_magic magic]
  simp only [decodeAligned,if_pos short]

/-- A header that is not admitted is rejected as soon as it is there, and nothing is consumed. -/
theorem decode_rejects (magic : src.take 4 = MAGIC_BYTES) (header : HEADER_SIZE ≤ src.length) (bad : ¬ Admitted codec src) :
    ∃ e, codec.decode blake3 src = (.error e,src) := by
  unfold DdalCodec.decode
  rw [align_at_magic magic]
  simp only [decodeAligned]
  rw [if_neg (Nat.not_lt.mpr header)]
  cases valid : validate_header src with
  | error e => exact ⟨.Protocol e,rfl⟩
  | ok _ =>
    obtain ⟨version,type,payload⟩ := (validate_header_iff magic).mp valid
    have large : HEADER_SIZE + (payloadLen src).toNat > codec.max_frame_size := by
      by_contra fits
      exact bad ⟨version,type,payload,Nat.le_of_not_lt fits⟩
    simp only [large,if_true]
    exact ⟨_,rfl⟩

/-- Behind an admitted header the codec waits for the whole frame. -/
theorem decode_waits (magic : src.take 4 = MAGIC_BYTES) (short : src.length < frameSize src) (good : Admitted codec src) :
    codec.decode blake3 src = (.ok none,src) := by
  have fits : ¬ HEADER_SIZE + (payloadLen src).toNat > codec.max_frame_size := Nat.not_lt.mpr good.limit
  have incomplete : src.length < HEADER_SIZE + (payloadLen src).toNat := short
  by_cases header : src.length < HEADER_SIZE
  · exact decode_short magic header
  · unfold DdalCodec.decode
    rw [align_at_magic magic]
    simp only [decodeAligned]
    rw [if_neg header,(validate_header_iff magic).mpr ⟨good.version,good.type,good.payload⟩]
    simp only
    rw [if_neg fits,if_pos incomplete]

/-- A whole frame behind an admitted header is taken from the buffer, and returned if its checksum matches. -/
theorem decode_takes (magic : src.take 4 = MAGIC_BYTES) (full : frameSize src ≤ src.length) (good : Admitted codec src)
    (known : FrameType.from_u8 (byteAt src 7) = some type) : codec.decode blake3 src =
      (if (frameOf src type).verify_checksum blake3 then .ok (some (frameOf src type))
        else .error (.Protocol (.ChecksumMismatch ((frameOf src type).compute_checksum blake3) (wordAt src 17))),src.drop (frameSize src)) := by
  have header : ¬ src.length < HEADER_SIZE := Nat.not_lt.mpr ((header_le src).trans full)
  have valid := (validate_header_iff magic).mpr ⟨good.version,good.type,good.payload⟩
  have total : HEADER_SIZE + (payloadLen src).toNat = frameSize src := by rw [frameSize]
  have parsed : decode_from_bytes blake3 src = (if (frameOf src type).verify_checksum blake3 then .ok (some (frameOf src type))
      else .error (.ChecksumMismatch ((frameOf src type).compute_checksum blake3) (wordAt src 17)),src.drop (frameSize src)) := by
    rw [decode_from_bytes,if_neg header,valid]
    simp only
    rw [total,if_neg (Nat.not_lt.mpr full),readFrame_eq full known]
    simp only
    split_ifs <;> rfl
  unfold DdalCodec.decode
  rw [align_at_magic magic]
  simp only [decodeAligned]
  rw [if_neg header,valid]
  simp only
  rw [total,if_neg (Nat.not_lt.mpr good.limit),if_neg (Nat.not_lt.mpr full),parsed]
  by_cases intact : (frameOf src type).verify_checksum blake3 = true
  · rw [if_pos intact,if_pos intact]
  · rw [if_neg intact,if_neg intact]

/-- What the codec returns, and when. -/
theorem decode_iff (magic : src.take 4 = MAGIC_BYTES) : codec.decode blake3 src = (.ok (some frame),rest) ↔
    Admitted codec src ∧ frameSize src ≤ src.length ∧ Intact blake3 src ∧
      ∃ type, FrameType.from_u8 (byteAt src 7) = some type ∧ frame = frameOf src type ∧ rest = src.drop (frameSize src) := by
  by_cases good : Admitted codec src
  · obtain ⟨type,known⟩ := Option.isSome_iff_exists.mp good.type
    by_cases full : frameSize src ≤ src.length
    · have checked : (frameOf src type).verify_checksum blake3 = true ↔ Intact blake3 src := verify_frameOf magic full known
      rw [decode_takes magic full good known,← checked]
      constructor
      · intro decoded
        split_ifs at decoded with intact
        · cases decoded
          exact ⟨good,full,intact,type,known,rfl,rfl⟩
        · cases decoded
      · rintro ⟨-,-,intact,other,same,rfl,rfl⟩
        rw [known] at same
        cases same
        rw [if_pos intact]
    · rw [decode_waits magic (Nat.lt_of_not_le full) good]
      exact ⟨nofun,fun answer => absurd answer.2.1 full⟩
  · refine ⟨fun decoded => ?_,fun answer => absurd answer.1 good⟩
    by_cases header : src.length < HEADER_SIZE
    · rw [decode_short magic header] at decoded
      cases decoded
    · obtain ⟨e,failed⟩ : ∃ e, codec.decode blake3 src = (.error e,src) := decode_rejects magic (Nat.le_of_not_lt header) good
      rw [failed] at decoded
      cases decoded

/-! ### The encoder -/

/-- What is decoded, the encoder accepts. -/
theorem encodable_frameOf (magic : src.take 4 = MAGIC_BYTES) (full : frameSize src ≤ src.length) (good : Admitted codec src)
    (intact : Intact blake3 src) (known : FrameType.from_u8 (byteAt src 7) = some type) : Encodable blake3 codec (frameOf src type) where
  compatible := good.version
  payload := by
    have small := UInt32.le_iff_toNat_le.mp good.payload
    have size : (frameOf src type).payload.length = (payloadLen src).toNat := payloadOf_length full
    omega
  total := by
    have fits := good.limit
    have size : (frameOf src type).payload.length = (payloadLen src).toNat := payloadOf_length full
    rw [frameSize] at fits
    omega
  length := payloadOf_length full
  checksum := (verify_frameOf magic full known).mpr intact

theorem encode_encodable (good : Encodable blake3 codec frame) (dst : Bytes) :
    codec.encode blake3 frame dst = (.ok (),dst ++ frame.encode_to_bytes) := by
  have payload := good.payload
  have total := good.total
  unfold DdalCodec.encode
  rw [if_neg (not_not.mpr good.compatible)]
  simp only
  rw [if_neg (by omega),if_neg (not_not.mpr good.length),if_neg (not_not.mpr good.checksum)]

/-- The encoder writes nothing for a frame that it refuses. -/
theorem encode_error {dst out : Bytes} {e : DdalCodecError} (refused : codec.encode blake3 frame dst = (.error e,out)) : out = dst := by
  unfold DdalCodec.encode at refused
  simp only at refused
  split_ifs at refused <;> cases refused <;> rfl

end

/-- At the magic bytes, the codec returns a frame exactly for an admitted header with its whole payload and the right
    checksum. The bytes that are gone are the encoding of the frame, which the encoder accepts under the same limit; what
    the encoder accepts is read back. A header that is not admitted stays where it is, and so does the destination of a
    frame that is refused. -/
theorem grammar_exact (blake3 : Hash) (codec : DdalCodec) :
    (∀ src, MAGIC_BYTES <+: src →
      ((∃ frame rest, codec.decode blake3 src = (.ok (some frame),rest)) ↔
        Admitted codec src ∧ frameSize src ≤ src.length ∧ Intact blake3 src) ∧
      (∀ frame rest, codec.decode blake3 src = (.ok (some frame),rest) →
        src = frame.encode_to_bytes ++ rest ∧ ∀ dst, codec.encode blake3 frame dst = (.ok (),dst ++ frame.encode_to_bytes)) ∧
      (HEADER_SIZE ≤ src.length → ¬ Admitted codec src → ∃ e, codec.decode blake3 src = (.error e,src))) ∧
    (∀ frame dst out tail, codec.encode blake3 frame dst = (.ok (),out) →
      codec.decode blake3 (frame.encode_to_bytes ++ tail) = (.ok (some frame),tail)) ∧
    (∀ frame dst e out, codec.encode blake3 frame dst = (.error e,out) → out = dst) := by
  refine ⟨fun src start => ?_,fun frame dst out tail accepted => decode_encoded (encode_ok accepted).1 tail,
    fun frame dst e out refused => encode_error refused⟩
  have magic : src.take 4 = MAGIC_BYTES := (List.prefix_iff_eq_take.mp start).symm
  refine ⟨⟨?_,?_⟩,?_,decode_rejects magic⟩
  · rintro ⟨frame,rest,decoded⟩
    obtain ⟨good,full,intact,_⟩ := (decode_iff magic).mp decoded
    exact ⟨good,full,intact⟩
  · rintro ⟨good,full,intact⟩
    obtain ⟨type,known⟩ := Option.isSome_iff_exists.mp good.type
    exact ⟨_,_,(decode_iff magic).mpr ⟨good,full,intact,type,known,rfl,rfl⟩⟩
  · intro frame rest decoded
    obtain ⟨good,full,intact,type,known,rfl,rfl⟩ := (decode_iff magic).mp decoded
    exact ⟨encode_frameOf magic full known,encode_encodable (encodable_frameOf magic full good intact known)⟩

/-- A ping under a hash that is zero everywhere, and two bytes of the next frame. -/
theorem ping_taken :
    let src : Bytes := [0xDA,0xF0,0xDD,0xA1,0,1,0,5,0,0,0,7,0,0,0,0,0,0,0,0,0,0xDA,0xF0]
    DdalCodec.new.decode (fun _ _ => 0) src = (.ok (some (Frame.new (fun _ _ => 0) .Ping 7 0 [])),[0xDA,0xF0]) ∧
      ∀ dst, DdalCodec.new.encode (fun _ _ => 0) (Frame.new (fun _ _ => 0) .Ping 7 0 []) dst =
        (.ok (),dst ++ (Frame.new (fun _ _ => 0) .Ping 7 0 []).encode_to_bytes) := by
  intro src
  have decoded : DdalCodec.new.decode (fun _ _ => 0) src = (.ok (some (Frame.new (fun _ _ => 0) .Ping 7 0 [])),[0xDA,0xF0]) := rfl
  exact ⟨decoded,(((grammar_exact (fun _ _ => 0) DdalCodec.new).1 src ⟨_,rfl⟩).2.1 _ _ decoded).2⟩

end Daf.WireGrammar
