import SevlaMq.Lib.Stream
import SevlaMq.Protocol.Replicate
import SevlaMq.Protocol.RequestRoundTrip
import SevlaMq.Protocol.Responses

/-!
# Connections

Model of the loops that read messages off a socket: `handle_connection` and
`handle_replication_connection` of `crates/broker/src/lib.rs`, and `request` of
`crates/client/src/lib.rs`, which a client calls once per message.  A read returns a piece of the
stream, and an empty one at its end.

* `decodeFrame_stable` — what is decoded from a buffer does not change when more bytes arrive.
* `decoding_independent_of_reads` — the messages, the first error and the bytes left at the end
  depend on the bytes of the stream only, not on how the reads cut it.
-/

set_option autoImplicit false

namespace SevlaMq.Protocol

/-- The requests that a client connection decodes from `reads`, with the error that ended it or the
bytes left at the end of the stream. -/
def handleConnection (zstd : Zstd) (reads : List Bytes) : Decoded Request UInt8 ProtocolError :=
  readLoop (decodeRequest zstd) [] reads

/-- The records that a replication connection decodes. -/
def handleReplicationConnection (reads : List Bytes) :
    Decoded ReplicateRecord UInt8 ProtocolError :=
  readLoop decodeReplicateRecord [] reads

/-- The responses that `calls` calls of `request` decode. -/
def receiveResponses (calls : Nat) (reads : List Bytes) :
    List Response × Option (Except ProtocolError Bytes) :=
  receiveMany decodeResponse calls [] reads

/-- Taking a frame, once its header is there. -/
theorem takeFrame_header {header : Bytes} (hheader : header.length = FRAME_HEADER_SIZE)
    (body : Bytes) :
    takeFrame (header ++ body) =
      if ofBE header = 0 then .error .invalidFrame
      else if ofBE header > MAX_FRAME_SIZE then .error .frameTooLarge
      else if body.length < ofBE header then .ok none
      else .ok (some (body.take (ofBE header), body.drop (ofBE header))) := by
  have hlen : ¬ (header ++ body).length < FRAME_HEADER_SIZE := by
    rw [List.length_append]
    omega
  have hmore : (header ++ body).length < FRAME_HEADER_SIZE + ofBE header ↔
      body.length < ofBE header := by
    rw [List.length_append]
    omega
  simp only [takeFrame, if_neg hlen, List.take_left' hheader, List.drop_left' hheader, hmore]

/-- A buffer that says more than "not yet" holds a header. -/
theorem takeFrame_split {buf : Bytes} (h : takeFrame buf ≠ .ok none) :
    ∃ header body, header.length = FRAME_HEADER_SIZE ∧ buf = header ++ body := by
  refine ⟨buf.take FRAME_HEADER_SIZE, buf.drop FRAME_HEADER_SIZE, ?_, ?_⟩
  · rw [List.length_take, Nat.min_eq_left]
    apply Nat.le_of_not_lt
    intro hshort
    apply h
    simp only [takeFrame, if_pos hshort]
  · rw [List.take_append_drop]

/-- Taking a frame looks at the bytes of the frame only. -/
theorem takeFrame_stable : Stable takeFrame where
  nil := rfl
  failed := by
    intro buf e h more
    obtain ⟨header, body, hheader, rfl⟩ := takeFrame_split (by rw [h]; simp)
    rw [takeFrame_header hheader] at h
    rw [List.append_assoc, takeFrame_header hheader]
    -- both refusals are decided by the header
    split at h
    · rename_i hzero
      rw [if_pos hzero, h]
    split at h
    · rename_i hzero hlarge
      rw [if_neg hzero, if_pos hlarge, h]
    · split at h
      · cases h
      · cases h
  decoded := by
    intro buf frame rest h more
    obtain ⟨header, body, hheader, rfl⟩ := takeFrame_split (by rw [h]; simp)
    rw [takeFrame_header hheader] at h
    rw [List.append_assoc, takeFrame_header hheader]
    split at h
    · cases h
    split at h
    · cases h
    split at h
    · cases h
    · rename_i hzero hlarge hbody
      rw [Nat.not_lt] at hbody
      cases h
      rw [if_neg hzero, if_neg hlarge, List.length_append, if_neg (by omega),
        List.take_append_of_le_length hbody, List.drop_append_of_le_length hbody]
  shrinks := by
    intro buf frame rest h
    obtain ⟨header, body, hheader, rfl⟩ := takeFrame_split (by rw [h]; simp)
    rw [takeFrame_header hheader] at h
    split at h
    · cases h
    split at h
    · cases h
    split at h
    · cases h
    · cases h
      have : 0 < FRAME_HEADER_SIZE := by decide
      rw [List.length_append, List.length_drop]
      omega

/-- So does decoding one, whatever the parser of its contents. -/
theorem decodeFrame_stable {α : Type} (p : Parser α) : Stable (decodeFrame p) where
  nil := rfl
  failed := by
    intro buf e h more
    unfold decodeFrame at h
    split at h
    · rename_i e' htake
      simpa only [decodeFrame, takeFrame_stable.failed htake] using h
    · cases h
    · rename_i frame rest htake
      simp only [decodeFrame, takeFrame_stable.decoded htake]
      split at h
      · rename_i hp
        simpa only [hp] using h
      · cases h
  decoded := by
    intro buf a rest h more
    unfold decodeFrame at h
    split at h
    · cases h
    · cases h
    · rename_i frame left htake
      simp only [decodeFrame, takeFrame_stable.decoded htake]
      split at h
      · cases h
      · cases h
        rfl
  shrinks := by
    intro buf a rest h
    unfold decodeFrame at h
    split at h
    · cases h
    · cases h
    · rename_i frame left htake
      split at h
      · cases h
      · cases h
        exact takeFrame_stable.shrinks htake

/-- **What a connection decodes does not depend on how the stream was cut into reads.** -/
theorem decoding_independent_of_reads (zstd : Zstd) {reads reads' : List Bytes}
    (hne : ∀ piece ∈ reads, piece ≠ []) (hne' : ∀ piece ∈ reads', piece ≠ [])
    (hstream : reads.flatten = reads'.flatten) :
    handleConnection zstd reads = handleConnection zstd reads' ∧
    handleReplicationConnection reads = handleReplicationConnection reads' ∧
    ∀ calls, receiveResponses calls reads = receiveResponses calls reads' := by
  refine ⟨?_, ?_, fun calls => ?_⟩
  · exact readLoop_congr (decodeFrame_stable _) hne hne' hstream
  · exact readLoop_congr (decodeFrame_stable _) hne hne' hstream
  · exact receiveMany_congr (decodeFrame_stable _) calls hne hne' (congrArg ([] ++ ·) hstream)

/-- A request cut inside the length, and a second one of which only the length came. -/
theorem decoding_independent_of_reads_topics :
    handleConnection rawZstd [[0, 0], [0, 1, 0x31, 0, 0], [0, 1]] =
      ([.listTopics], .ok [0, 0, 0, 1]) ∧
    handleConnection rawZstd [[0, 0], [0, 1, 0x31, 0, 0], [0, 1]] =
      handleConnection rawZstd [[0, 0, 0, 1, 0x31], [0, 0, 0, 1]] := by
  have hne : ∀ piece ∈ ([[0, 0], [0, 1, 0x31, 0, 0], [0, 1]] : List Bytes), piece ≠ [] := by decide
  have hne' : ∀ piece ∈ ([[0, 0, 0, 1, 0x31], [0, 0, 0, 1]] : List Bytes), piece ≠ [] := by decide
  exact ⟨rfl, (decoding_independent_of_reads rawZstd hne hne' rfl).1⟩

end SevlaMq.Protocol
