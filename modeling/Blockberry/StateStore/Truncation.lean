import Blockberry.StateStore.ExportNode

/-!
# Truncated exports

The loop of `Import` takes `io.EOF` of `decodeExportNode` for the end of the stream. A stream that
ends between two fields of a node gives the same error, so the part of the node is dropped.
-/

namespace Blockberry.StateStore

open BigEndian ByteReader Fallible ExportNode List

/-! ## Where decoding meets the end -/

/-- The parts of an encoded node up to the end of one of its fields but the last. -/
def ExportNode.fieldEnds (node : ExportNode) : List Bytes :=
  [encode 4 node.key.length,
    writeSized node.key,
    writeSized node.key ++ encode 4 node.valueBytes.length,
    writeSized node.key ++ writeSized node.valueBytes,
    writeSized node.key ++ writeSized node.valueBytes ++ encode 1 node.height.toUInt8.toNat]

section Ends

variable {r : Bytes}

theorem readSized_eof_iff {maximum : Nat} {tooLong : Nat → DecodeError}
    (other : ∀ length, tooLong length ≠ .read .eof) (small : maximum < 256 ^ 4) :
    readSized maximum tooLong r = .error (.read .eof) ↔
      r = [] ∨ ∃ length, 0 < length ∧ length ≤ maximum ∧ r = encode 4 length := by
  rw [readSized_eq, readSized_eq_eof_iff (by simp) other small]
  simp

theorem readKey_eof_iff : readSized maxIAVLKeySize .keyTooLong r = .error (.read .eof) ↔
      r = [] ∨ ∃ length, 0 < length ∧ length ≤ maxIAVLKeySize ∧ r = encode 4 length :=
  readSized_eof_iff (by simp) (by decide)

theorem readValue_eof_iff : readSized maxIAVLValueSize .valueTooLong r = .error (.read .eof) ↔
      r = [] ∨ ∃ length, 0 < length ∧ length ≤ maxIAVLValueSize ∧ r = encode 4 length :=
  readSized_eof_iff (by simp) (by decide)

/-- Decoding meets the end before a node or after one of its fields. -/
theorem fieldEnd_of_decodeExportNode (failed : decodeExportNode r = .error (.read .eof)) :
    r = [] ∨ ∃ node : ExportNode, node.WithinLimits ∧ r ∈ node.fieldEnds := by
  rcases bind_eq_error_iff.mp failed with keyFailed | ⟨⟨key, afterKey⟩, keyRead, failed⟩
  · rcases readKey_eof_iff.mp keyFailed with empty | ⟨length, -, within, isKey⟩
    · exact .inl empty
    · refine .inr ⟨⟨List.replicate length 0, none, 0, 0⟩, ⟨?_, Nat.zero_le _⟩, ?_⟩
      · simpa using within
      · simp [fieldEnds, isKey]
  · obtain ⟨keyWithin, isKey⟩ := codec_readKey.written r key afterKey keyRead
    rcases bind_eq_error_iff.mp failed with valueFailed | ⟨⟨value, afterValue⟩, valueRead, failed⟩
    · rcases readValue_eof_iff.mp valueFailed with empty | ⟨length, -, within, isValue⟩
      · change afterKey = [] at empty
        refine .inr ⟨⟨key, none, 0, 0⟩, ⟨keyWithin, Nat.zero_le _⟩, ?_⟩
        simp [fieldEnds, isKey, empty]
      · change afterKey = encode 4 length at isValue
        refine .inr ⟨⟨key, some (List.replicate length 0), 0, 0⟩, ⟨keyWithin, ?_⟩, ?_⟩
        · simpa [valueBytes] using within
        · simp [fieldEnds, valueBytes, isKey, isValue]
    · obtain ⟨valueWithin, isValue⟩ := codec_readValue.written afterKey value afterValue valueRead
      rcases bind_eq_error_iff.mp failed with
        heightFailed | ⟨⟨height, afterHeight⟩, heightRead, failed⟩
      · have empty := ((readNat_eq_eof_iff (by simp)).mp heightFailed).1
        change afterValue = [] at empty
        refine .inr ⟨⟨key, some value, 0, 0⟩, ⟨keyWithin, valueWithin⟩, ?_⟩
        simp [fieldEnds, valueBytes, isKey, isValue, empty]
      · obtain ⟨isByte, isHeight⟩ :=
          (codec_readNat 1).written afterValue height afterHeight heightRead
        rcases bind_eq_error_iff.mp failed with
          versionFailed | ⟨⟨version, afterVersion⟩, -, failed⟩
        · have empty := ((readFull_eq_eof_iff (by simp)).mp versionFailed).1
          change afterHeight = [] at empty
          refine .inr ⟨⟨key, some value, (UInt8.ofNat height).toInt8, 0⟩,
            ⟨keyWithin, valueWithin⟩, ?_⟩
          simp only [fieldEnds, valueBytes, isKey, isValue, isHeight, empty,
            toNat_toInt8_toUInt8 isByte]
          simp
        · cases failed

/-- A length alone is the end of the stream, unless nothing was to come. -/
theorem readSized_length {maximum : Nat} (tooLong : Nat → DecodeError)
    (other : ∀ length, tooLong length ≠ .read .eof) (small : maximum < 256 ^ 4) {bytes : Bytes}
    (within : bytes.length ≤ maximum) :
    readSized maximum tooLong (encode 4 bytes.length) = .error (.read .eof) ∨
      encode 4 bytes.length = writeSized bytes := by
  cases bytes with
  | nil => exact .inr rfl
  | cons byte bytes =>
    exact .inl ((readSized_eof_iff other small).mpr (.inr ⟨_, Nat.succ_pos _, within, rfl⟩))

theorem decodeExportNode_of_fieldEnd {node : ExportNode} (within : node.WithinLimits)
    (isEnd : r ∈ node.fieldEnds) : decodeExportNode r = .error (.read .eof) := by
  have keyRead := codec_readKey.reads node.key within.key
  have valueRead := codec_readValue.reads node.valueBytes within.value
  have heightFits : node.height.toUInt8.toNat < 256 ^ 1 := node.height.toUInt8.toNat_lt
  have afterKey : decodeExportNode (writeSized node.key ++ []) = .error (.read .eof) := by
    rw [decodeExportNode, keyRead, ok_bind]
    rfl
  have afterValue : decodeExportNode (writeSized node.key ++ (writeSized node.valueBytes ++ [])) =
      .error (.read .eof) := by
    rw [decodeExportNode, keyRead, ok_bind]
    simp only [valueRead, ok_bind]
    rfl
  rw [append_nil] at afterKey afterValue
  simp only [fieldEnds, mem_cons, not_mem_nil, or_false] at isEnd
  rcases isEnd with rfl | rfl | rfl | rfl | rfl
  · rcases readSized_length .keyTooLong (by simp) (by decide) within.key with
      failed | same
    · rw [decodeExportNode, failed]
      rfl
    · rw [same]
      exact afterKey
  · exact afterKey
  · rcases readSized_length .valueTooLong (by simp) (by decide) within.value with
      failed | same
    · rw [decodeExportNode, keyRead, ok_bind]
      simp only [failed]
      rfl
    · rw [same]
      exact afterValue
  · exact afterValue
  · have heightRead : readNat DecodeError.read 1 (encode 1 node.height.toUInt8.toNat ++ []) = _ :=
      (codec_readNat 1).reads _ heightFits []
    rw [append_nil] at heightRead
    rw [append_assoc, decodeExportNode, keyRead, ok_bind]
    simp only [valueRead, heightRead, ok_bind]
    rfl

theorem decodeExportNode_eof_iff : decodeExportNode r = .error (.read .eof) ↔
      r = [] ∨ ∃ node : ExportNode, node.WithinLimits ∧ r ∈ node.fieldEnds := by
  constructor
  · exact fieldEnd_of_decodeExportNode
  · rintro (rfl | ⟨node, within, isEnd⟩)
    · rfl
    · exact decodeExportNode_of_fieldEnd within isEnd

end Ends

/-! ## Streams that end inside a node -/

/-- Complete nodes, and after them a part of a node that is not the whole of it. -/
def EndsInsideNode (r : Bytes) : Prop :=
  ∃ (nodes : List ExportNode) (node : ExportNode) (cut : Bytes),
    (∀ other ∈ nodes, other.LengthsFit) ∧ node.LengthsFit ∧ cut <+: encodeExportNode node ∧
      cut ≠ [] ∧ cut ≠ encodeExportNode node ∧ r = nodes.flatMap encodeExportNode ++ cut

/-- Complete nodes, and after them a node up to the end of one of its fields. -/
def EndsBetweenFields (r : Bytes) : Prop :=
  ∃ (nodes : List ExportNode) (node : ExportNode) (cut : Bytes),
    (∀ other ∈ nodes, other.WithinLimits) ∧ node.WithinLimits ∧ cut ∈ node.fieldEnds ∧
      r = nodes.flatMap encodeExportNode ++ cut

/-- The loop ends without an error only at the end of a node. -/
structure ReportsTruncation (r : Bytes) : Prop where
  complete : ∀ nodes, decodeNodes r = .ok nodes →
    ∃ written : List ExportNode, r = written.flatMap encodeExportNode
  truncated : EndsInsideNode r → ∃ err, decodeNodes r = .error err

theorem fieldEnds_proper {node : ExportNode} {cut : Bytes} (isEnd : cut ∈ node.fieldEnds) :
    cut <+: encodeExportNode node ∧ cut ≠ [] ∧ cut ≠ encodeExportNode node := by
  have proper : ∀ missing, cut ++ missing = encodeExportNode node → 0 < cut.length →
      0 < missing.length → cut <+: encodeExportNode node ∧ cut ≠ [] ∧
        cut ≠ encodeExportNode node := by
    intro missing whole nonempty incomplete
    refine ⟨⟨missing, whole⟩, ne_nil_of_length_pos nonempty, ?_⟩
    intro same
    have lengths := congrArg List.length whole
    rw [length_append, ← same] at lengths
    omega
  simp only [fieldEnds, mem_cons, not_mem_nil, or_false] at isEnd
  rcases isEnd with rfl | rfl | rfl | rfl | rfl
  · exact proper (node.key ++ writeSized node.valueBytes ++
      encode 1 node.height.toUInt8.toNat ++ encodeWord node.version)
      (by simp [encodeExportNode, writeSized]) (by simp) (by simp)
  · exact proper (writeSized node.valueBytes ++ encode 1 node.height.toUInt8.toNat ++
      encodeWord node.version) (by simp [encodeExportNode]) (by simp [writeSized]) (by simp)
  · exact proper (node.valueBytes ++ encode 1 node.height.toUInt8.toNat ++
      encodeWord node.version) (by simp [encodeExportNode, writeSized]) (by simp) (by simp)
  · exact proper (encode 1 node.height.toUInt8.toNat ++ encodeWord node.version)
      (by simp [encodeExportNode]) (by simp [writeSized]) (by simp)
  · exact proper (encodeWord node.version) rfl (by simp [writeSized]) (by simp)

theorem fieldEnd_of_decodeNodes {node : ExportNode} {cut : Bytes} {read : List ExportNode}
    (fits : node.LengthsFit) (isPart : cut <+: encodeExportNode node) (nonempty : cut ≠ [])
    (proper : cut ≠ encodeExportNode node) (isOk : decodeNodes cut = .ok read) :
    ∃ other : ExportNode, other.WithinLimits ∧ cut ∈ other.fieldEnds := by
  obtain ⟨survive, tail, isCut, failed⟩ := decodeNodes_eq_ok_iff.mp isOk
  cases read with
  | nil =>
    have same : cut = tail := isCut
    rw [← same] at failed
    exact (decodeExportNode_eof_iff.mp failed).resolve_left nonempty
  | cons first others =>
    -- The whole node would begin with another complete one.
    obtain ⟨missing, whole⟩ := isPart
    have firstRead := codec_decodeExportNode.reads first (survive first mem_cons_self)
      (others.flatMap encodeExportNode ++ tail ++ missing)
    have wholeRead := decodeExportNode_encodeExportNode fits []
    have begins : encodeExportNode node ++ [] =
        encodeExportNode first ++ (others.flatMap encodeExportNode ++ tail ++ missing) := by
      rw [append_nil, ← whole, isCut, flatMap_cons]
      simp only [append_assoc]
    rw [begins, firstRead] at wholeRead
    split at wholeRead
    next => cases wholeRead
    split at wholeRead
    next => cases wholeRead
    next =>
      have nothing := congrArg Prod.snd (Except.ok.inj wholeRead)
      rw [(append_eq_nil_iff.mp nothing).2, append_nil] at whole
      exact absurd whole proper

/-- Truncation of a stream is reported if and only if the stream does not end between two
fields of a node. -/
theorem reportsTruncation_iff_not_between_fields (r : Bytes) :
    ReportsTruncation r ↔ ¬EndsBetweenFields r := by
  constructor
  · rintro reports ⟨nodes, node, cut, within, nodeWithin, isEnd, rfl⟩
    obtain ⟨isPart, nonempty, proper⟩ := fieldEnds_proper isEnd
    obtain ⟨err, failed⟩ := reports.truncated ⟨nodes, node, cut,
      fun other member => (within other member).lengthsFit, nodeWithin.lengthsFit, isPart,
      nonempty, proper, rfl⟩
    have reads : ∀ other ∈ nodes, ∀ rest, decodeExportNode (encodeExportNode other ++ rest) =
        .ok (other.readBack, rest) :=
      fun other member => decodeExportNode_of_withinLimits (within other member)
    rw [decodeNodes, readAll_flatMap_append consumes_decodeExportNode reads,
      readAll_of_error (decodeExportNode_of_fieldEnd nodeWithin isEnd)] at failed
    cases failed
  · intro notBetween
    constructor
    · intro nodes isOk
      obtain ⟨survive, tail, rfl, failed⟩ := decodeNodes_eq_ok_iff.mp isOk
      rcases decodeExportNode_eof_iff.mp failed with rfl | ⟨node, within, isEnd⟩
      · exact ⟨nodes, append_nil _⟩
      · exact absurd ⟨nodes, node, tail, fun other member => (survive other member).toWithinLimits,
          within, isEnd, rfl⟩ notBetween
    · rintro ⟨nodes, node, cut, fit, nodeFits, isPart, nonempty, proper, rfl⟩
      cases outcome : decodeNodes (nodes.flatMap encodeExportNode ++ cut) with
      | error err => exact ⟨err, rfl⟩
      | ok read =>
        obtain ⟨within, later, isOk⟩ := exists_decodeNodes_of_append fit outcome
        obtain ⟨other, otherWithin, isEnd⟩ :=
          fieldEnd_of_decodeNodes nodeFits isPart nonempty proper isOk
        exact absurd ⟨nodes, other, cut, within, otherWithin, isEnd, rfl⟩ notBetween

/-- A stream that holds only the key of a leaf is read as no nodes at all. -/
theorem key_alone_read_as_end :
    [0, 0, 0, 1, 7] <+: encodeExportNode ⟨[7], some [10], 0, 1⟩ ∧
      decodeNodes [0, 0, 0, 1, 7] = .ok [] ∧ ¬ReportsTruncation [0, 0, 0, 1, 7] := by
  have read : decodeNodes [0, 0, 0, 1, 7] = .ok [] := by decide +kernel
  refine ⟨by decide +kernel, read, ?_⟩
  intro reports
  obtain ⟨written, isWritten⟩ := reports.complete [] read
  cases written with
  | nil => cases isWritten
  | cons node others =>
    have lengths := congrArg List.length isWritten
    have long := length_encodeExportNode node
    simp only [flatMap_cons, length_append, length_cons,
      length_nil] at lengths
    omega

end Blockberry.StateStore
