import Daf.Incremental
import Daf.WireProtocol

/-!
The stream codec over DDAL frames. It resynchronises on the magic bytes,
judges a header as soon as it is complete and hands a complete frame to the
frame parser. Its answers are final (`codec_stable`), so that the frames and the
first error of a byte stream do not depend on how the stream arrives in chunks,
and what the encoder accepts is decoded back frame by frame.
-/
namespace Daf.WireCodec
open Daf.WireProtocol Daf.Incremental

structure DdalCodec where
  /-- The largest frame, header and payload together, that the codec accepts. -/
  max_frame_size : Nat
deriving DecidableEq,Repr

def DdalCodec.new : DdalCodec := ⟨HEADER_SIZE + MAX_PAYLOAD_SIZE.toNat⟩

inductive DdalCodecError where
  | InvalidFrame (reason : String)
  | FrameTooLarge (size max : Nat)
  | Protocol (error : FrameDecodeError)
deriving DecidableEq,Repr

/-- Discard bytes until the buffer starts with the magic bytes or holds fewer
    than four. -/
def align_to_magic : Bytes → Bool × Bytes
  | [] => (false,[])
  | byte :: rest =>
    if (byte :: rest).length < 4 then (false,byte :: rest)
    else if (byte :: rest).take 4 = MAGIC_BYTES then (true,byte :: rest)
    else align_to_magic rest

/-- The decoder behind the resynchronisation. -/
def decodeAligned (blake3 : Hash) (codec : DdalCodec) (src : Bytes) : Except DdalCodecError (Option Frame) × Bytes :=
  if src.length < HEADER_SIZE then (.ok none,src) else
  match validate_header src with
  | .error e => (.error (.Protocol e),src)
  | .ok () =>
    let total := HEADER_SIZE + (payloadLen src).toNat
    if total > codec.max_frame_size then (.error (.FrameTooLarge total codec.max_frame_size),src) else
    if src.length < total then (.ok none,src) else
    match decode_from_bytes blake3 src with
    | (.ok (some frame),rest) => (.ok (some frame),rest)
    | (.ok none,rest) => (.ok none,rest)
    | (.error e,rest) => (.error (.Protocol e),rest)

/-- One call of the decoder: its answer and the buffer that it leaves. -/
def DdalCodec.decode (blake3 : Hash) (codec : DdalCodec) (src : Bytes) : Except DdalCodecError (Option Frame) × Bytes :=
  match align_to_magic src with
  | (false,src) => (.ok none,src)
  | (true,src) => decodeAligned blake3 codec src

/-- One call of the encoder: its answer and the buffer that it leaves. -/
def DdalCodec.encode (blake3 : Hash) (codec : DdalCodec) (frame : Frame) (dst : Bytes) :
    Except DdalCodecError Unit × Bytes :=
  if ¬ ProtocolVersion.CURRENT.is_compatible_with frame.version then
    (.error (.Protocol (.UnsupportedVersion frame.version)),dst) else
  let total := HEADER_SIZE + frame.payload.length
  if frame.payload.length > MAX_PAYLOAD_SIZE.toNat ∨ total > codec.max_frame_size then
    (.error (.FrameTooLarge total (min codec.max_frame_size (HEADER_SIZE + MAX_PAYLOAD_SIZE.toNat))),dst) else
  if frame.payload.length ≠ frame.payload_len.toNat then
    (.error (.InvalidFrame "payload length does not match payload"),dst) else
  if ¬ frame.verify_checksum blake3 then (.error (.InvalidFrame "checksum does not match frame"),dst) else
  (.ok (),dst ++ frame.encode_to_bytes)

/-- Encode frames one after another into a buffer, or stop at the first that the
    encoder rejects. -/
def DdalCodec.encodeAll (blake3 : Hash) (codec : DdalCodec) : List Frame → Bytes → Except DdalCodecError Bytes
  | [],dst => .ok dst
  | frame :: later,dst =>
    match codec.encode blake3 frame dst with
    | (.ok (),dst) => codec.encodeAll blake3 later dst
    | (.error e,_) => .error e

/-! ### Resynchronisation -/

theorem align_found {src rest : Bytes} (aligned : align_to_magic src = (true,rest)) :
    4 ≤ rest.length ∧ rest.take 4 = MAGIC_BYTES ∧ rest.length ≤ src.length := by
  induction src with
  | nil => simp [align_to_magic] at aligned
  | cons byte later ih =>
    rw [align_to_magic] at aligned
    split_ifs at aligned with short magic
    · cases aligned
    · cases aligned
      exact ⟨by omega,magic,le_refl _⟩
    · obtain ⟨enough,starts,bound⟩ := ih aligned
      exact ⟨enough,starts,by simp only [List.length_cons]; omega⟩

theorem align_at_magic {src : Bytes} (starts : src.take 4 = MAGIC_BYTES) : align_to_magic src = (true,src) := by
  have size : (src.take 4).length = 4 := by rw [starts]; rfl
  rw [List.length_take] at size
  cases src with
  | nil => simp at size
  | cons byte later => rw [align_to_magic,if_neg (by omega),if_pos starts]

/-- Bytes that arrive later do not change where the magic bytes were found. -/
theorem align_append {src rest : Bytes} {found : Bool} (aligned : align_to_magic src = (found,rest)) (tail : Bytes) :
    align_to_magic (src ++ tail) = align_to_magic (rest ++ tail) := by
  induction src with
  | nil => simp only [align_to_magic] at aligned; cases aligned; rfl
  | cons byte later ih =>
    rw [align_to_magic] at aligned
    split_ifs at aligned with short magic
    · cases aligned; rfl
    · cases aligned; rfl
    · have long : ¬ (byte :: later ++ tail).length < 4 := by simp at short ⊢; omega
      have other : (byte :: later ++ tail).take 4 ≠ MAGIC_BYTES := by
        rw [List.take_append_of_le_length (by omega)]
        exact magic
      rw [← ih aligned,List.cons_append,align_to_magic,← List.cons_append,if_neg long,if_neg other]

theorem align_missing {src rest : Bytes} (aligned : align_to_magic src = (false,rest)) : rest.length < 4 := by
  induction src with
  | nil => simp only [align_to_magic] at aligned; cases aligned; simp
  | cons byte later ih =>
    rw [align_to_magic] at aligned
    split_ifs at aligned with short magic
    · cases aligned; exact short
    · cases aligned
    · exact ih aligned

/-! ### The codec as an incremental decoder -/

/-- The answer of the codec in the form of `Daf.Incremental`. -/
def asStep : Except DdalCodecError (Option Frame) × Bytes → Step UInt8 Frame DdalCodecError
  | (.ok (some frame),rest) => .item frame rest
  | (.ok none,rest) => .more rest
  | (.error e,rest) => .error e rest

theorem decode_from_bytes_consumes {blake3 : Hash} {buf rest : Bytes} {frame : Frame}
    (decoded : decode_from_bytes blake3 buf = (.ok (some frame),rest)) : rest.length + HEADER_SIZE ≤ buf.length := by
  unfold decode_from_bytes at decoded
  split_ifs at decoded with short
  · cases decoded
  · split at decoded
    · cases decoded
    · simp only at decoded
      split_ifs at decoded with incomplete
      · cases decoded
      · split at decoded
        · cases decoded
        · split_ifs at decoded with intact
          · cases decoded
            simp only [List.length_drop]
            omega
          · cases decoded

theorem decodeAligned_frame {blake3 : Hash} {codec : DdalCodec} {src rest : Bytes} {frame : Frame}
    (decoded : decodeAligned blake3 codec src = (.ok (some frame),rest)) :
    decode_from_bytes blake3 src = (.ok (some frame),rest) := by
  unfold decodeAligned at decoded
  split_ifs at decoded with short
  · cases decoded
  · split at decoded
    · cases decoded
    · simp only at decoded
      split_ifs at decoded with large incomplete
      · cases decoded
      · cases decoded
      · split at decoded
        · next answer => cases decoded; exact answer
        · cases decoded
        · cases decoded

theorem decode_consumes {blake3 : Hash} {codec : DdalCodec} {src rest : Bytes} {frame : Frame}
    (decoded : codec.decode blake3 src = (.ok (some frame),rest)) : rest.length < src.length := by
  unfold DdalCodec.decode at decoded
  cases aligned : align_to_magic src with
  | mk found start =>
    cases found with
    | false => simp [aligned] at decoded
    | true =>
      simp only [aligned] at decoded
      have consumed := decode_from_bytes_consumes (decodeAligned_frame decoded)
      have bound := (align_found aligned).2.2
      simp only [HEADER_SIZE] at consumed
      omega

theorem asStep_item {answer : Except DdalCodecError (Option Frame) × Bytes} {frame : Frame} {rest : Bytes}
    (item : asStep answer = .item frame rest) : answer = (.ok (some frame),rest) := by
  rcases answer with ⟨_ | _ | _,_⟩ <;> simp_all [asStep]
theorem asStep_error {answer : Except DdalCodecError (Option Frame) × Bytes} {reason : DdalCodecError} {rest : Bytes}
    (failed : asStep answer = .error reason rest) : answer = (.error reason,rest) := by
  rcases answer with ⟨_ | _ | _,_⟩ <;> simp_all [asStep]
theorem asStep_more {answer : Except DdalCodecError (Option Frame) × Bytes} {rest : Bytes}
    (more : asStep answer = .more rest) : answer = (.ok none,rest) := by
  rcases answer with ⟨_ | _ | _,_⟩ <;> simp_all [asStep]

/-- The codec of a connection, as the reader of its byte stream calls it. -/
def decoder (blake3 : Hash) (codec : DdalCodec) : Decoder UInt8 Frame DdalCodecError where
  decode src := asStep (codec.decode blake3 src)
  consumes _ _ _ answer := decode_consumes (asStep_item answer)

/-- The frame parser asks for no more bytes once an admitted header and its
    payload are there. -/
theorem decode_from_bytes_full {blake3 : Hash} {buf rest : Bytes} {answer : Except FrameDecodeError (Option Frame)}
    (decoded : decode_from_bytes blake3 buf = (answer,rest)) (valid : validate_header buf = .ok ())
    (full : HEADER_SIZE + (payloadLen buf).toNat ≤ buf.length) : answer ≠ .ok none := by
  unfold decode_from_bytes at decoded
  rw [if_neg (by omega),valid] at decoded
  simp only at decoded
  rw [if_neg (by omega)] at decoded
  split at decoded
  · cases decoded; simp
  · split_ifs at decoded <;> cases decoded <;> simp

/-- Behind the magic bytes, every answer but "more bytes" is final. -/
theorem decodeAligned_append (blake3 : Hash) (codec : DdalCodec) {src : Bytes}
    {answer : Except DdalCodecError (Option Frame)} {rest : Bytes}
    (decoded : decodeAligned blake3 codec src = (answer,rest)) (tail : Bytes) :
    (answer = .ok none → rest = src) ∧
    (answer ≠ .ok none → decodeAligned blake3 codec (src ++ tail) = (answer,rest ++ tail)) := by
  unfold decodeAligned at decoded ⊢
  by_cases short : src.length < HEADER_SIZE
  · rw [if_pos short] at decoded
    cases decoded
    exact ⟨fun _ => rfl,fun final => absurd rfl final⟩
  · have complete : HEADER_SIZE ≤ src.length := by omega
    rw [if_neg short] at decoded
    rw [if_neg (show ¬ (src ++ tail).length < HEADER_SIZE by simp; omega),validate_header_append complete tail]
    cases valid : validate_header src with
    | error e =>
      simp only [valid] at decoded
      cases decoded
      exact ⟨nofun,fun _ => rfl⟩
    | ok _ =>
      simp only [valid,payloadLen_append complete tail] at decoded ⊢
      by_cases large : HEADER_SIZE + (payloadLen src).toNat > codec.max_frame_size
      · rw [if_pos large] at decoded ⊢
        cases decoded
        exact ⟨nofun,fun _ => rfl⟩
      · rw [if_neg large] at decoded ⊢
        by_cases incomplete : src.length < HEADER_SIZE + (payloadLen src).toNat
        · rw [if_pos incomplete] at decoded
          cases decoded
          exact ⟨fun _ => rfl,fun final => absurd rfl final⟩
        · rw [if_neg incomplete] at decoded
          rw [if_neg (show ¬ (src ++ tail).length < HEADER_SIZE + (payloadLen src).toNat by simp; omega)]
          cases parsed : decode_from_bytes blake3 src with
          | mk inner left =>
            have final : inner ≠ .ok none := decode_from_bytes_full parsed valid (by omega)
            rw [decode_from_bytes_append blake3 parsed final tail]
            rw [parsed] at decoded
            match inner,final with
            | .ok (some frame),_ => cases decoded; exact ⟨nofun,fun _ => rfl⟩
            | .error e,_ => cases decoded; exact ⟨nofun,fun _ => rfl⟩

/-- The answers of the codec do not change as more of the stream arrives. -/
theorem codec_stable (blake3 : Hash) (codec : DdalCodec) : Stable (decoder blake3 codec) := by
  -- An answer other than "more bytes" is given behind the magic bytes, where it is final.
  have final : ∀ buffer answer rest tail, answer ≠ .ok none → codec.decode blake3 buffer = (answer,rest) →
      codec.decode blake3 (buffer ++ tail) = (answer,rest ++ tail) := by
    intro buffer answer rest tail settled decoded
    unfold DdalCodec.decode at decoded ⊢
    cases aligned : align_to_magic buffer with
    | mk found start =>
      rw [align_append aligned tail]
      cases found with
      | false => simp only [aligned] at decoded; cases decoded; exact absurd rfl settled
      | true =>
        simp only [aligned] at decoded
        have starts := (align_found aligned).2.1
        have long := (align_found aligned).1
        rw [align_at_magic (by rw [List.take_append_of_le_length long]; exact starts)]
        exact (decodeAligned_append blake3 codec decoded tail).2 settled
  refine ⟨?_,?_,?_⟩
  · intro buffer frame rest tail answer
    have decoded : codec.decode blake3 buffer = (.ok (some frame),rest) := asStep_item answer
    simp only [decoder,final buffer _ rest tail (by simp) decoded,asStep]
  · intro buffer reason rest tail answer
    have decoded : codec.decode blake3 buffer = (.error reason,rest) := asStep_error answer
    simp only [decoder,final buffer _ rest tail (by simp) decoded,asStep]
  · intro buffer rest tail answer
    have decoded : codec.decode blake3 buffer = (.ok none,rest) := asStep_more answer
    have same : align_to_magic (buffer ++ tail) = align_to_magic (rest ++ tail) := by
      unfold DdalCodec.decode at decoded
      cases aligned : align_to_magic buffer with
      | mk found start =>
        rw [align_append aligned tail]
        cases found with
        | false => simp only [aligned] at decoded; cases decoded; rfl
        | true =>
          simp only [aligned] at decoded
          rw [(decodeAligned_append blake3 codec decoded tail).1 rfl]
    simp only [decoder,DdalCodec.decode,same]

/-! ### What the encoder accepts -/

/-- The conditions under which the encoder accepts a frame. -/
structure Encodable (blake3 : Hash) (codec : DdalCodec) (frame : Frame) : Prop where
  compatible : ProtocolVersion.CURRENT.is_compatible_with frame.version = true
  payload : frame.payload.length ≤ MAX_PAYLOAD_SIZE.toNat
  total : HEADER_SIZE + frame.payload.length ≤ codec.max_frame_size
  length : frame.payload.length = frame.payload_len.toNat
  checksum : frame.verify_checksum blake3 = true

theorem encode_ok {blake3 : Hash} {codec : DdalCodec} {frame : Frame} {dst out : Bytes}
    (accepted : codec.encode blake3 frame dst = (.ok (),out)) :
    Encodable blake3 codec frame ∧ out = dst ++ frame.encode_to_bytes := by
  unfold DdalCodec.encode at accepted
  by_cases version : ProtocolVersion.CURRENT.is_compatible_with frame.version = true
  · rw [if_neg (not_not.mpr version)] at accepted
    by_cases size : frame.payload.length > MAX_PAYLOAD_SIZE.toNat ∨
        HEADER_SIZE + frame.payload.length > codec.max_frame_size
    · rw [if_pos size] at accepted; cases accepted
    · rw [if_neg size] at accepted
      obtain ⟨small,fits⟩ := not_or.mp size
      by_cases length : frame.payload.length = frame.payload_len.toNat
      · rw [if_neg (not_not.mpr length)] at accepted
        by_cases checksum : frame.verify_checksum blake3 = true
        · rw [if_neg (not_not.mpr checksum)] at accepted
          cases accepted
          exact ⟨⟨version,by omega,by omega,length,checksum⟩,rfl⟩
        · rw [if_pos checksum] at accepted; cases accepted
      · rw [if_pos length] at accepted; cases accepted
  · rw [if_pos version] at accepted; cases accepted

theorem encodeAll_ok {blake3 : Hash} {codec : DdalCodec} {frames : List Frame} {dst out : Bytes}
    (accepted : codec.encodeAll blake3 frames dst = .ok out) :
    (∀ frame ∈ frames, Encodable blake3 codec frame) ∧ out = dst ++ (frames.map Frame.encode_to_bytes).flatten := by
  induction frames generalizing dst with
  | nil => simp only [DdalCodec.encodeAll] at accepted; cases accepted; simp
  | cons frame later ih =>
    unfold DdalCodec.encodeAll at accepted
    split at accepted
    · next next answer =>
      obtain ⟨good,rfl⟩ := encode_ok answer
      obtain ⟨rest,rfl⟩ := ih accepted
      refine ⟨?_,by simp⟩
      intro other member
      rcases List.mem_cons.mp member with rfl | deeper
      · exact good
      · exact rest other deeper
    · cases accepted

/-- The header that the encoder writes, byte by byte. -/
theorem encode_to_bytes_eq (frame : Frame) (tail : Bytes) :
    frame.encode_to_bytes ++ tail =
      0xDA :: 0xF0 :: 0xDD :: 0xA1 :: frame.version.major :: frame.version.minor :: frame.version.patch ::
      frame.frame_type.as_u8 :: (toBeBytes frame.stream_id ++ (toBeBytes frame.payload_len ++
      frame.flags :: (toBeBytes frame.checksum ++ (frame.payload ++ tail)))) := by
  simp [Frame.encode_to_bytes,Frame.headerBytes,MAGIC_BYTES]

theorem encode_to_bytes_length {blake3 : Hash} {codec : DdalCodec} {frame : Frame} (good : Encodable blake3 codec frame) :
    frame.encode_to_bytes.length = HEADER_SIZE + frame.payload_len.toNat := by
  rw [← good.length]
  simp [Frame.encode_to_bytes,Frame.headerBytes,MAGIC_BYTES,HEADER_SIZE]
  omega

theorem payloadLen_encoded (frame : Frame) (tail : Bytes) :
    payloadLen (frame.encode_to_bytes ++ tail) = frame.payload_len := by
  rw [encode_to_bytes_eq]
  exact fromBeBytes_toBeBytes frame.payload_len

theorem validate_header_encoded {blake3 : Hash} {codec : DdalCodec} {frame : Frame}
    (good : Encodable blake3 codec frame) (tail : Bytes) : validate_header (frame.encode_to_bytes ++ tail) = .ok () := by
  have small : ¬ frame.payload_len > MAX_PAYLOAD_SIZE := by
    rw [gt_iff_lt,UInt32.lt_iff_toNat_lt,← good.length]
    have := good.payload
    omega
  unfold validate_header
  rw [payloadLen_encoded frame tail,encode_to_bytes_eq]
  have version : (⟨frame.version.major,frame.version.minor,frame.version.patch⟩ : ProtocolVersion) = frame.version := rfl
  simp [byteAt,MAGIC_BYTES,version,from_u8_as_u8,good.compatible,small]

theorem readFrame_encoded {blake3 : Hash} {codec : DdalCodec} {frame : Frame} (good : Encodable blake3 codec frame) :
    readFrame frame.encode_to_bytes frame.payload_len = .ok frame := by
  have plain := encode_to_bytes_eq frame []
  simp only [List.append_nil] at plain
  have body : (frame.encode_to_bytes.drop HEADER_SIZE).take frame.payload_len.toNat = frame.payload := by
    rw [plain,← good.length]
    exact List.take_length
  unfold readFrame
  rw [body,plain]
  simp only [byteAt,wordAt,List.getD_cons_zero,List.getD_cons_succ,from_u8_as_u8]
  simp only [toBeBytes,List.cons_append,List.nil_append,List.getD_cons_zero,List.getD_cons_succ,fromBeBytes_toBeBytes]

/-- Parsing an accepted frame gives it back with every field, and leaves what
    stands behind it. -/
theorem decode_from_bytes_encoded {blake3 : Hash} {codec : DdalCodec} {frame : Frame}
    (good : Encodable blake3 codec frame) (tail : Bytes) :
    decode_from_bytes blake3 (frame.encode_to_bytes ++ tail) = (.ok (some frame),tail) := by
  have size := encode_to_bytes_length good
  unfold decode_from_bytes
  rw [if_neg (by simp; omega),validate_header_encoded good tail,payloadLen_encoded frame tail]
  simp only
  rw [if_neg (by simp; omega),← size,List.take_left,List.drop_left,readFrame_encoded good]
  simp only [good.checksum,if_true]

theorem decode_encoded {blake3 : Hash} {codec : DdalCodec} {frame : Frame} (good : Encodable blake3 codec frame)
    (tail : Bytes) : codec.decode blake3 (frame.encode_to_bytes ++ tail) = (.ok (some frame),tail) := by
  have size := encode_to_bytes_length good
  have fits := good.total
  have length := good.length
  unfold DdalCodec.decode
  rw [align_at_magic (by rw [encode_to_bytes_eq]; rfl)]
  simp only [decodeAligned]
  rw [if_neg (by simp; omega),validate_header_encoded good tail,payloadLen_encoded frame tail]
  simp only
  rw [if_neg (by omega),if_neg (by simp; omega),decode_from_bytes_encoded good tail]

/-- Draining the encodings of accepted frames gives the frames in order. -/
theorem drain_encoded {blake3 : Hash} {codec : DdalCodec} {frames : List Frame}
    (good : ∀ frame ∈ frames, Encodable blake3 codec frame) :
    drain (decoder blake3 codec) (frames.map Frame.encode_to_bytes).flatten = ⟨frames,none,[]⟩ := by
  induction frames with
  | nil => exact drain_more rfl
  | cons frame later ih =>
    have first : (decoder blake3 codec).decode (((frame :: later).map Frame.encode_to_bytes).flatten) =
        .item frame (later.map Frame.encode_to_bytes).flatten := by
      simp only [decoder,List.map_cons,List.flatten_cons,decode_encoded (good frame (by simp)),asStep]
    rw [drain_item first,ih (fun other member => good other (by simp [member]))]
    rfl

/-- However a byte stream is cut into chunks, the codec reads the frames and
    then the first error of the whole stream. The encodings of any list of
    accepted frames are read back as that list, and nothing is left over. -/
theorem frames_independent_of_chunks (blake3 : Hash) (codec : DdalCodec) :
    (∀ (stream : Bytes) (chunks : List Bytes), chunks.flatten = stream →
      (feed (decoder blake3 codec) [] chunks).items = (feed (decoder blake3 codec) [] [stream]).items ∧
      (feed (decoder blake3 codec) [] chunks).error = (feed (decoder blake3 codec) [] [stream]).error) ∧
    (∀ (frames : List Frame) (stream : Bytes) (chunks : List Bytes),
      codec.encodeAll blake3 frames [] = .ok stream → chunks.flatten = stream →
      feed (decoder blake3 codec) [] chunks = ⟨frames,none,[]⟩) := by
  have stable := codec_stable blake3 codec
  constructor
  · rintro stream chunks rfl
    have cut := feed_eq_drain stable chunks [] rfl
    have whole := feed_eq_drain stable [chunks.flatten] [] rfl
    simp only [List.flatten_cons,List.flatten_nil,List.append_nil,List.nil_append] at cut whole
    exact ⟨cut.1.trans whole.1.symm,cut.2.1.trans whole.2.1.symm⟩
  · intro frames stream chunks accepted rfl
    obtain ⟨good,same⟩ := encodeAll_ok accepted
    have cut := feed_eq_drain stable chunks [] rfl
    rw [same,List.nil_append,List.nil_append,drain_encoded good] at cut
    exact Outcome.ext cut.1 cut.2.1 (cut.2.2 cut.2.1)

/-- A ping that arrives in three pieces, under a hash that is zero everywhere. -/
theorem ping_in_three_chunks :
    feed (decoder (fun _ _ => 0) DdalCodec.new) []
      [[0xDA,0xF0],[0xDD,0xA1,0,1,0,5,0,0,0],[7,0,0,0,0,0,0,0,0,0]] =
      ⟨[Frame.new (fun _ _ => 0) .Ping 7 0 []],none,[]⟩ :=
  (frames_independent_of_chunks (fun _ _ => 0) DdalCodec.new).2 _ _ _
    (show _ = Except.ok [0xDA,0xF0,0xDD,0xA1,0,1,0,5,0,0,0,7,0,0,0,0,0,0,0,0,0] by rfl) rfl

end Daf.WireCodec
