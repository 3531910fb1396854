import Daf.Search
import Daf.WireCodec

/-!
Garbage in front of a frame. The first of the magic bytes is none of the others, so that no end of the garbage begins the
magic bytes together with the frame, and the last three bytes that have come are never discarded: the codec drops the
garbage and nothing of the frame, however the bytes arrive.
-/
namespace Daf.WireResync
open Daf.WireProtocol Daf.Incremental Daf.WireCodec

section
variable {g : Bytes}

theorem magic_fresh : (0xDA : UInt8) ∉ ([0xF0,0xDD,0xA1] : Bytes) := by decide

/-- A part of the magic bytes behind the garbage does not complete them. -/
theorem clean_part (clean : ¬ MAGIC_BYTES <:+: g) {part : Bytes} (early : part <+: MAGIC_BYTES.dropLast) : ¬ MAGIC_BYTES <:+: g ++ part :=
  Search.absent_part magic_fresh clean early

/-- Without the magic bytes the codec keeps the last three bytes, or all if they are fewer. -/
theorem align_clean (clean : ¬ MAGIC_BYTES <:+: g) :
    ∃ rest, align_to_magic g = (false,rest) ∧ rest <:+ g ∧ min 3 g.length ≤ rest.length := by
  induction g with
  | nil => exact ⟨[],rfl,List.nil_suffix,Nat.min_le_right 3 0⟩
  | cons byte later ih =>
    rw [align_to_magic]
    by_cases short : (byte :: later).length < 4
    · rw [if_pos short]
      exact ⟨_,rfl,List.suffix_rfl,Nat.min_le_right _ _⟩
    · have other : (byte :: later).take 4 ≠ MAGIC_BYTES := fun magic => clean (magic ▸ (List.take_prefix 4 (byte :: later)).isInfix)
      rw [if_neg short,if_neg other]
      obtain ⟨rest,aligned,ends,kept⟩ := ih (fun inside => clean (inside.trans (List.suffix_cons byte later).isInfix))
      refine ⟨rest,aligned,ends.trans (List.suffix_cons byte later),?_⟩
      simp only [List.length_cons] at short ⊢
      omega

/-- The scan stops at the first magic bytes behind the garbage, also where the garbage ends in a part of them. -/
theorem align_garbage (clean : ¬ MAGIC_BYTES <:+: g) (tail : Bytes) :
    align_to_magic (g ++ (MAGIC_BYTES ++ tail)) = (true,MAGIC_BYTES ++ tail) := by
  induction g with
  | nil => exact align_at_magic rfl
  | cons byte later ih =>
    have long : ¬ (byte :: later ++ (MAGIC_BYTES ++ tail)).length < 4 := by
      simp only [List.length_append,List.length_cons,MAGIC_BYTES]
      omega
    have other : (byte :: later ++ (MAGIC_BYTES ++ tail)).take 4 ≠ MAGIC_BYTES := by
      intro magic
      have front : MAGIC_BYTES <+: byte :: later ++ (MAGIC_BYTES ++ tail) := List.prefix_iff_eq_take.mpr magic.symm
      have start : byte :: later ++ MAGIC_BYTES.dropLast <+: byte :: later ++ (MAGIC_BYTES ++ tail) :=
        (List.prefix_append_right_inj _).mpr ((List.dropLast_prefix MAGIC_BYTES).trans (List.prefix_append _ _))
      have early : MAGIC_BYTES <+: byte :: later ++ MAGIC_BYTES.dropLast := by
        refine List.prefix_of_prefix_length_le front start ?_
        simp only [List.length_append,List.length_cons,List.length_dropLast,MAGIC_BYTES]
        omega
      exact clean_part clean List.prefix_rfl early.isInfix
    rw [List.cons_append,align_to_magic,← List.cons_append,if_neg long,if_neg other]
    exact ih (fun inside => clean (inside.trans (List.suffix_cons byte later).isInfix))

variable {blake3 : Hash} {codec : DdalCodec} {frame : Frame} {part : Bytes}

theorem encode_magic (frame : Frame) : MAGIC_BYTES <+: frame.encode_to_bytes := by
  simp only [Frame.encode_to_bytes,Frame.headerBytes,List.append_assoc]
  exact List.prefix_append _ _

/-- Behind the garbage the codec answers as at the start of the frame. -/
theorem decode_garbage (clean : ¬ MAGIC_BYTES <:+: g) (magic : MAGIC_BYTES <+: part) : codec.decode blake3 (g ++ part) = codec.decode blake3 part := by
  obtain ⟨tail,rfl⟩ := magic
  unfold DdalCodec.decode
  rw [align_garbage clean tail,align_at_magic rfl]

/-- Part of a frame is left in the buffer until the rest has come. -/
theorem decode_part (good : Encodable blake3 codec frame) (front : part <+: frame.encode_to_bytes) (proper : part ≠ frame.encode_to_bytes)
    (magic : MAGIC_BYTES <+: part) : codec.decode blake3 part = (.ok none,part) := by
  obtain ⟨tail,whole⟩ := front
  have start : part.take 4 = MAGIC_BYTES := (List.prefix_iff_eq_take.mp magic).symm
  unfold DdalCodec.decode
  rw [align_at_magic start]
  simp only
  cases decoded : decodeAligned blake3 codec part with
  | mk answer rest =>
    obtain ⟨waits,final⟩ := decodeAligned_append blake3 codec decoded tail
    by_cases more : answer = .ok none
    · rw [more,waits more]
    · -- Any other answer would be the one to the whole frame, which leaves nothing behind.
      have later := final more
      rw [whole] at later
      have answered := decode_encoded good []
      rw [List.append_nil] at answered
      unfold DdalCodec.decode at answered
      rw [align_at_magic (List.prefix_iff_eq_take.mp (encode_magic frame)).symm] at answered
      simp only [later,Prod.mk.injEq,List.append_eq_nil_iff] at answered
      rw [answered.2.2,List.append_nil] at whole
      exact absurd whole proper

/-- While the frame is not complete behind the garbage, the buffer ends in all that has come of it. -/
theorem decode_waiting (clean : ¬ MAGIC_BYTES <:+: g) (good : Encodable blake3 codec frame) (front : part <+: frame.encode_to_bytes)
    (proper : part ≠ frame.encode_to_bytes) : ∃ rest, codec.decode blake3 (g ++ part) = (.ok none,rest) ∧ part <:+ rest := by
  rcases List.prefix_or_prefix_of_prefix (encode_magic frame) front with magic | early
  · exact ⟨part,by rw [decode_garbage clean magic,decode_part good front proper magic],List.suffix_rfl⟩
  · by_cases same : part = MAGIC_BYTES
    · have magic : MAGIC_BYTES <+: part := same ▸ List.prefix_rfl
      exact ⟨part,by rw [decode_garbage clean magic,decode_part good front proper magic],List.suffix_rfl⟩
    · have few : part.length ≤ 3 := by
        have bound := early.length_le
        have shorter : part.length ≠ MAGIC_BYTES.length := fun size => same (early.eq_of_length size)
        simp only [MAGIC_BYTES,List.length_cons,List.length_nil] at bound shorter
        omega
      have inside : part <+: MAGIC_BYTES.dropLast := List.prefix_of_prefix_length_le early (List.dropLast_prefix _) few
      obtain ⟨rest,aligned,ends,kept⟩ := align_clean (clean_part clean inside)
      refine ⟨rest,by unfold DdalCodec.decode; rw [aligned],?_⟩
      refine List.suffix_of_suffix_length_le (List.suffix_append g part) ends ?_
      rw [List.length_append] at kept
      omega

end

/-- Behind garbage without the magic bytes, in whatever chunks the bytes come, the frame is the first that is read, the
    garbage and its own bytes are consumed and what follows is read as it would be alone; while the frame is not complete,
    nothing is read and nothing of it is discarded. -/
theorem resynchronises (blake3 : Hash) (codec : DdalCodec) (g : Bytes) (frame : Frame) (clean : ¬ MAGIC_BYTES <:+: g)
    (accepted : (codec.encode blake3 frame []).1 = .ok ()) :
    (∀ chunks : List Bytes, chunks.flatten = g ++ frame.encode_to_bytes → feed (decoder blake3 codec) [] chunks = ⟨[frame],none,[]⟩) ∧
    (∀ (tail : Bytes) (chunks : List Bytes), chunks.flatten = g ++ frame.encode_to_bytes ++ tail →
      Agree (feed (decoder blake3 codec) [] chunks) ((drain (decoder blake3 codec) tail).cons frame)) ∧
    (∀ (part : Bytes) (chunks : List Bytes), part <+: frame.encode_to_bytes → part ≠ frame.encode_to_bytes → chunks.flatten = g ++ part →
      (feed (decoder blake3 codec) [] chunks).items = [] ∧ (feed (decoder blake3 codec) [] chunks).error = none ∧
      part <:+ (feed (decoder blake3 codec) [] chunks).rest) := by
  have good : Encodable blake3 codec frame := (encode_ok (Prod.ext accepted rfl)).1
  have stable := codec_stable blake3 codec
  have read : ∀ tail, drain (decoder blake3 codec) (g ++ frame.encode_to_bytes ++ tail) = (drain (decoder blake3 codec) tail).cons frame := by
    intro tail
    refine drain_item ?_
    have magic : MAGIC_BYTES <+: frame.encode_to_bytes ++ tail := (encode_magic frame).trans (List.prefix_append _ _)
    simp only [decoder]
    rw [List.append_assoc,decode_garbage clean magic,decode_encoded good tail,asStep]
  have cut := fun chunks : List Bytes => feed_eq_drain stable chunks [] rfl
  refine ⟨fun chunks all => ?_,fun tail chunks all => ?_,fun part chunks front proper all => ?_⟩
  · have fed := cut chunks
    have alone := read []
    rw [List.append_nil,drain_more (show (decoder blake3 codec).decode [] = .more [] from rfl)] at alone
    rw [List.nil_append,all,alone] at fed
    exact Outcome.ext fed.1 fed.2.1 (fed.2.2 fed.2.1)
  · have fed := cut chunks
    rw [List.nil_append,all,read tail] at fed
    exact fed
  · obtain ⟨rest,decoded,kept⟩ := decode_waiting clean good front proper
    have waits : drain (decoder blake3 codec) (g ++ part) = ⟨[],none,rest⟩ := by
      refine drain_more ?_
      simp only [decoder,decoded,asStep]
    have fed := cut chunks
    rw [List.nil_append,all,waits] at fed
    exact ⟨fed.1,fed.2.1,(fed.2.2 fed.2.1).symm ▸ kept⟩

/-- Garbage that ends in three of the magic bytes, in front of a pong. -/
theorem pong_behind_garbage :
    feed (decoder (fun _ _ => 0) DdalCodec.new) [] [[0xFF,0xDA,0xF0],[0xDD,0xDA,0xF0],[0xDD,0xA1,0,1,0,6,0,0,0],[42,0,0,0,0,0,0,0,0,0]] =
      ⟨[Frame.new (fun _ _ => 0) .Pong 42 0 []],none,[]⟩ :=
  (resynchronises (fun _ _ => 0) DdalCodec.new [0xFF,0xDA,0xF0,0xDD] (Frame.new (fun _ _ => 0) .Pong 42 0 []) (by decide) rfl).1 _ rfl

end Daf.WireResync
