import Blockberry.Lib.Codec
import Blockberry.Types.Basic

/-!
# Encoding of exported nodes

A snapshot is a sequence of nodes of the state tree, each written as key, value, height
and version. A nil value and an empty one are written in the same way and read back as
nil. Reading refuses keys and values above fixed sizes, writing does not.
-/

namespace Blockberry.StateStore

open BigEndian ByteReader Fallible List Nat

/-- `ExportNode` of avlberry. Inner nodes have no value. -/
structure ExportNode where
  key : Bytes
  value : Option Bytes
  height : Int8
  version : Int64
  deriving DecidableEq, Repr

inductive DecodeError where
  | read (err : ReadError)
  | keyTooLong (length : Nat)
  | valueTooLong (length : Nat)
  deriving DecidableEq, Repr

def maxIAVLKeySize : Nat := 4 * 1024

def maxIAVLValueSize : Nat := 10 * 1024 * 1024

/-- The bytes of a value; nil has none. -/
def ExportNode.valueBytes (node : ExportNode) : Bytes := node.value.getD []

/-- Length and contents. The length is cut to 32 bits. -/
def writeSized (bytes : Bytes) : Bytes := encode 4 bytes.length ++ bytes

def encodeExportNode (node : ExportNode) : Bytes :=
  writeSized node.key ++ writeSized node.valueBytes ++
    encode 1 node.height.toUInt8.toNat ++ encodeWord node.version

/-- Length and contents, with a limit. -/
def readSized (maximum : Nat) (tooLong : Nat → DecodeError) (r : Bytes) :
    Except DecodeError (Bytes × Bytes) := do
  let (length, r) ← readNat .read 4 r
  if maximum < length then .error (tooLong length)
  else readFull .read length r

def decodeExportNode (r : Bytes) : Except DecodeError (ExportNode × Bytes) := do
  let (key, r) ← readSized maxIAVLKeySize .keyTooLong r
  let (value, r) ← readSized maxIAVLValueSize .valueTooLong r
  let (height, r) ← readNat .read 1 r
  let (version, r) ← readFull .read 8 r
  .ok ({ key
         value := if value = [] then none else some value
         height := (UInt8.ofNat height).toInt8
         version := decodeWord version }, r)

/-- The loop of `Import`, up to the error that `io.EOF` is. -/
def decodeNodes (r : Bytes) : Except DecodeError (List ExportNode) :=
  readAll decodeExportNode (fun err => err == .read .eof) r

/-! ## Reading back -/

/-- A node as it is read back, an empty value being nil. -/
def ExportNode.readBack (node : ExportNode) : ExportNode :=
  { node with value := if node.valueBytes = [] then none else some node.valueBytes }

/-- The lengths of a node are not cut. -/
structure ExportNode.LengthsFit (node : ExportNode) : Prop where
  key : node.key.length < 2 ^ 32
  value : node.valueBytes.length < 2 ^ 32

/-- A node is within the limits of reading. -/
structure ExportNode.WithinLimits (node : ExportNode) : Prop where
  key : node.key.length ≤ maxIAVLKeySize
  value : node.valueBytes.length ≤ maxIAVLValueSize

theorem ExportNode.WithinLimits.lengthsFit {node : ExportNode} (within : node.WithinLimits) :
    node.LengthsFit where
  key := lt_of_le_of_lt within.key (by decide)
  value := lt_of_le_of_lt within.value (by decide)

/-- A node that is read back as it was written. -/
structure ExportNode.Survives (node : ExportNode) : Prop extends node.WithinLimits where
  value_ne : node.value ≠ some []

instance (node : ExportNode) : Decidable node.Survives :=
  decidable_of_iff ((node.key.length ≤ maxIAVLKeySize ∧
      node.valueBytes.length ≤ maxIAVLValueSize) ∧ node.value ≠ some [])
    ⟨fun both => ⟨⟨both.1.1, both.1.2⟩, both.2⟩,
      fun survives => ⟨⟨survives.key, survives.value⟩, survives.value_ne⟩⟩

theorem ExportNode.readBack_eq_iff (node : ExportNode) :
    node.readBack = node ↔ node.value ≠ some [] := by
  obtain ⟨key, value, height, version⟩ := node
  cases value with
  | none => simp [readBack, valueBytes]
  | some bytes => cases bytes <;> simp [readBack, valueBytes]

section Sized

variable {maximum : Nat} {tooLong : Nat → DecodeError} {bytes : Bytes}

theorem readSized_writeSized (fits : bytes.length < 2 ^ 32) (rest : Bytes) :
    readSized maximum tooLong (writeSized bytes ++ rest) =
      if maximum < bytes.length then .error (tooLong bytes.length) else .ok (bytes, rest) := by
  have lengthRead : readNat DecodeError.read 4 (encode 4 bytes.length ++ (bytes ++ rest)) =
      .ok (bytes.length, bytes ++ rest) := (codec_readNat 4).reads _ fits _
  rw [readSized, writeSized, append_assoc, lengthRead]
  change (if maximum < bytes.length then _ else _) = _
  rw [readFull_append rfl]

end Sized

open ExportNode

theorem readSized_eq (maximum : Nat) (tooLong : Nat → DecodeError) (r : Bytes) :
    readSized maximum tooLong r = ByteReader.readSized .read 4 maximum tooLong r := by
  rw [readSized, ByteReader.readSized, readBounded]
  cases readNat DecodeError.read 4 r with
  | error err => rfl
  | ok read =>
    rw [ok_bind, ok_bind]
    change (if maximum < read.1 then _ else _) = (if maximum < read.1 then _ else _) >>= _
    split
    next => rfl
    next => rfl

theorem codec_readSized {maximum : Nat} (tooLong : Nat → DecodeError) (small : maximum < 256 ^ 4) :
    Codec (readSized maximum tooLong) writeSized fun bytes => bytes.length ≤ maximum := by
  have same : readSized maximum tooLong = ByteReader.readSized .read 4 maximum tooLong :=
    funext (readSized_eq maximum tooLong)
  rw [same]
  exact ByteReader.codec_readSized small

theorem toNat_toInt8_toUInt8 {height : Nat} (isByte : height < 256 ^ 1) :
    (UInt8.ofNat height).toInt8.toUInt8.toNat = height := by
  simpa using Nat.mod_eq_of_lt isByte

theorem codec_readKey : Codec (readSized maxIAVLKeySize .keyTooLong) writeSized
      fun bytes => bytes.length ≤ maxIAVLKeySize :=
  codec_readSized .keyTooLong (by decide)

theorem codec_readValue : Codec (readSized maxIAVLValueSize .valueTooLong) writeSized
      fun bytes => bytes.length ≤ maxIAVLValueSize :=
  codec_readSized .valueTooLong (by decide)

theorem survives_and_fields_iff {key value version : Bytes} {height : Nat}
    (keyFits : key.length ≤ maxIAVLKeySize) (valueFits : value.length ≤ maxIAVLValueSize)
    (isByte : height < 256 ^ 1) (isWord : version.length = 8) (node : ExportNode) :
    (node.Survives ∧ node.key = key ∧ node.valueBytes = value ∧
        node.height.toUInt8.toNat = height ∧ encodeWord node.version = version) ↔
      node = { key, value := if value = [] then none else some value,
               height := (UInt8.ofNat height).toInt8, version := decodeWord version } := by
  constructor
  · rintro ⟨survives, rfl, rfl, rfl, rfl⟩
    have readBack := node.readBack_eq_iff.mpr survives.value_ne
    rw [UInt8.ofNat_toNat, Int8.toInt8_toUInt8, decodeWord_encodeWord]
    exact readBack.symm
  · rintro rfl
    have sameValue : (if value = [] then none else some value).getD [] = value := by
      split
      next empty => exact empty.symm
      next => rfl
    refine ⟨⟨⟨keyFits, ?_⟩, ?_⟩, rfl, sameValue, toNat_toInt8_toUInt8 isByte,
      encodeWord_decodeWord isWord⟩
    · rw [valueBytes, sameValue]
      exact valueFits
    · split
      next => exact (Option.some_ne_none []).symm
      next nonempty => exact fun same => nonempty (Option.some.inj same)

theorem codec_decodeExportNode : Codec decodeExportNode encodeExportNode Survives := by
  have fields : Codec decodeExportNode
      (fun node : ExportNode => writeSized node.key ++ (writeSized node.valueBytes ++
        (encode 1 node.height.toUInt8.toNat ++ (id (encodeWord node.version) ++ []))))
      Survives := by
    unfold decodeExportNode
    refine codec_readKey.firstField key (fun _ survives => survives.key)
      fun key keyFits => ?_
    refine codec_readValue.field valueBytes (fun _ survives => survives.value)
      fun value valueFits => ?_
    refine (codec_readNat 1).field (fun node : ExportNode => node.height.toUInt8.toNat)
      (fun node _ => node.height.toUInt8.toNat_lt) fun height isByte => ?_
    refine (codec_readFull 8).field (fun node : ExportNode => encodeWord node.version)
      (fun node _ => length_encodeWord node.version) fun version isWord => ?_
    apply codec_record
    intro node
    simp only [and_assoc]
    exact survives_and_fields_iff keyFits valueFits isByte isWord node
  refine fields.congr (fun node => ?_) fun _ => Iff.rfl
  simp only [encodeExportNode, append_assoc, append_nil, id]

theorem length_encodeExportNode (node : ExportNode) : 17 ≤ (encodeExportNode node).length := by
  simp only [encodeExportNode, writeSized, length_append, length_encode, length_encodeWord]
  omega

theorem consumes_decodeExportNode : Consumes decodeExportNode := by
  intro r node rest read
  obtain ⟨-, isInput⟩ := codec_decodeExportNode.written r node rest read
  have long := length_encodeExportNode node
  rw [isInput, length_append]
  omega

/-- What the loop reads is written at the start of the stream, and at the rest decoding
meets the end. -/
theorem decodeNodes_eq_ok_iff {r : Bytes} {nodes : List ExportNode} : decodeNodes r = .ok nodes ↔
      (∀ node ∈ nodes, node.Survives) ∧ ∃ tail, r = nodes.flatMap encodeExportNode ++ tail ∧
          decodeExportNode tail = .error (.read .eof) := by
  rw [decodeNodes, codec_decodeExportNode.readAll_eq_ok_iff consumes_decodeExportNode]
  simp

variable {node : ExportNode}

theorem decodeExportNode_encodeExportNode (fits : node.LengthsFit) (rest : Bytes) :
    decodeExportNode (encodeExportNode node ++ rest) =
      if maxIAVLKeySize < node.key.length then .error (.keyTooLong node.key.length)
      else if maxIAVLValueSize < node.valueBytes.length then
        .error (.valueTooLong node.valueBytes.length)
      else .ok (node.readBack, rest) := by
  have heightFits : node.height.toUInt8.toNat < 256 ^ 1 := node.height.toUInt8.toNat_lt
  simp only [encodeExportNode, append_assoc]
  rw [decodeExportNode, readSized_writeSized fits.key]
  split
  next => rfl
  simp only [ok_bind, readSized_writeSized fits.value]
  split
  next => rfl
  next =>
    simp only [ok_bind, (codec_readNat 1).reads _ heightFits,
      readFull_append (length_encodeWord node.version)]
    simp [ExportNode.readBack]

theorem decodeExportNode_of_withinLimits (within : node.WithinLimits) (rest : Bytes) :
    decodeExportNode (encodeExportNode node ++ rest) = .ok (node.readBack, rest) := by
  rw [decodeExportNode_encodeExportNode within.lengthsFit, if_neg (not_lt.mpr within.key),
    if_neg (not_lt.mpr within.value)]

theorem decodeNodes_nil : decodeNodes [] = .ok [] := rfl

variable {nodes : List ExportNode}

theorem decodeNodes_flatMap (within : ∀ node ∈ nodes, node.WithinLimits) :
    decodeNodes (nodes.flatMap encodeExportNode) = .ok (nodes.map ExportNode.readBack) := by
  have reads : ∀ node ∈ nodes, ∀ rest, decodeExportNode (encodeExportNode node ++ rest) =
      .ok (node.readBack, rest) :=
    fun node member => decodeExportNode_of_withinLimits (within node member)
  have all : readAll decodeExportNode (fun err => err == .read .eof)
      (nodes.flatMap encodeExportNode ++ []) = _ :=
    readAll_flatMap_append consumes_decodeExportNode reads []
  rw [append_nil] at all
  rw [decodeNodes, all, ← decodeNodes, decodeNodes_nil, Except.map, append_nil]

/-- Complete nodes before a part of the stream do not change whether it is read. -/
theorem exists_decodeNodes_of_append {read : List ExportNode} {cut : Bytes}
    (fit : ∀ node ∈ nodes, node.LengthsFit)
    (isOk : decodeNodes (nodes.flatMap encodeExportNode ++ cut) = .ok read) :
    (∀ node ∈ nodes, node.WithinLimits) ∧ ∃ later, decodeNodes cut = .ok later := by
  induction nodes generalizing read with
  | nil => exact ⟨forall_mem_nil _, read, isOk⟩
  | cons node nodes ih =>
    have outcome := decodeExportNode_encodeExportNode (fit node mem_cons_self)
      (nodes.flatMap encodeExportNode ++ cut)
    rw [flatMap_cons, append_assoc, decodeNodes] at isOk
    split at outcome
    next =>
      rw [readAll_of_error outcome] at isOk
      cases isOk
    next keyFits =>
      split at outcome
      next =>
        rw [readAll_of_error outcome] at isOk
        cases isOk
      next valueFits =>
        rw [readAll_of_ok consumes_decodeExportNode outcome] at isOk
        cases rest : decodeNodes (nodes.flatMap encodeExportNode ++ cut) with
        | error err =>
          rw [← decodeNodes, rest] at isOk
          cases isOk
        | ok others =>
          have later := ih (fun other member => fit other (mem_cons_of_mem _ member)) rest
          exact ⟨forall_mem_cons.mpr
            ⟨⟨not_lt.mp keyFits, not_lt.mp valueFits⟩, later.1⟩, later.2⟩

/-- Nodes that are read at all are within the limits, unless a length is cut. -/
theorem withinLimits_of_decodeNodes {read : List ExportNode} (fit : ∀ node ∈ nodes, node.LengthsFit)
    (isOk : decodeNodes (nodes.flatMap encodeExportNode) = .ok read) :
    ∀ node ∈ nodes, node.WithinLimits := by
  rw [← append_nil (nodes.flatMap encodeExportNode)] at isOk
  exact (exists_decodeNodes_of_append fit isOk).1

theorem decodeNodes_of_survive (survive : ∀ node ∈ nodes, node.Survives) :
    decodeNodes (nodes.flatMap encodeExportNode) = .ok nodes :=
  decodeNodes_eq_ok_iff.mpr ⟨survive, [], (append_nil _).symm, rfl⟩

/-- A list of nodes is read back as it was written if and only if no key and no value is
above the limits and no value is empty without being nil. -/
theorem decodeNodes_eq_iff_survives (nodes : List ExportNode) :
    decodeNodes (nodes.flatMap encodeExportNode) = .ok nodes ↔
      ∀ node ∈ nodes, node.Survives := by
  constructor
  · exact fun read => (decodeNodes_eq_ok_iff.mp read).1
  · exact decodeNodes_of_survive

/-- A leaf with an empty value is read back as a node without a value. -/
theorem empty_leaf_read_as_nil :
    decodeNodes (encodeExportNode ⟨[1], some [], 0, 1⟩) = .ok [⟨[1], none, 0, 1⟩] := by
  decide +kernel

end Blockberry.StateStore
