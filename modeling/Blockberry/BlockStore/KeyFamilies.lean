import Blockberry.BlockStore.DiskCertificates

/-!
# The families of keys

All keys of a disk store in one type. Its values are determined by their bytes, so that the
families do not meet and a scan of an index finds the keys of the index only.
-/

namespace Blockberry

open BigEndian List

/-- The prefix `CB:`, from digests to batches. -/
def prefixBatch : Bytes := [67, 66, 58]

def makeBatchKey (digest : Bytes) : Bytes := prefixBatch ++ digest

/-- The comparison of the keys in a Badger store, byte by byte and then by length. -/
def compareKeys : Bytes → Bytes → Int
  | [], [] => 0
  | [], _ :: _ => -1
  | _ :: _, [] => 1
  | a :: as, b :: bs => if a < b then -1 else if b < a then 1 else compareKeys as bs

/-- A key of a disk store, by its family and arguments. -/
inductive StoreKey where
  | height (height : Int64)
  | block (hash : Bytes)
  | metaHeight
  | metaBase
  | cert (digest : Bytes)
  | certRound (round : UInt64) (validatorIdx : UInt16)
  | certHeight (height : Int64) (validatorIdx : UInt16)
  | batch (digest : Bytes)
  deriving DecidableEq

namespace StoreKey

def bytes : StoreKey → Bytes
  | height h => makeHeightKey h
  | block hash => makeBlockKey hash
  | metaHeight => keyMetaHeight
  | metaBase => keyMetaBase
  | cert digest => makeCertKey digest
  | certRound round validatorIdx => makeCertRoundKey round validatorIdx
  | certHeight h validatorIdx => makeCertHeightKey h validatorIdx
  | batch digest => makeBatchKey digest

def start : StoreKey → Bytes
  | height _ => prefixHeight
  | block _ => prefixBlock
  | metaHeight | metaBase => [77, 58]
  | cert _ => prefixCert
  | certRound _ _ => prefixCertRound
  | certHeight _ _ => prefixCertHeight
  | batch _ => prefixBatch

theorem start_isPrefix_bytes (key : StoreKey) : key.start <+: key.bytes := by
  cases key with
  | metaHeight | metaBase => decide
  | certRound round validatorIdx => exact roundIndex.first_isPrefix_key round validatorIdx
  | certHeight h validatorIdx => exact heightIndex.first_isPrefix_key h validatorIdx
  | height | block | cert | batch => exact prefix_append _ _

/-- The starts of two keys are equal, or neither is a prefix of the other. -/
theorem start_eq_of_isPrefix {left right : StoreKey} (isPrefix : left.start <+: right.start) :
    left.start = right.start := by
  cases left <;> cases right <;> revert isPrefix <;> dsimp only [start] <;> decide

theorem start_eq_of_bytes {left right : StoreKey} {first : Bytes}
    (ofLeft : left.start <+: first) (ofRight : first <+: right.bytes) :
    left.start = right.start := by
  rcases prefix_or_prefix_of_prefix (ofLeft.trans ofRight) right.start_isPrefix_bytes with
    isPrefix | isPrefix
  · exact start_eq_of_isPrefix isPrefix
  · exact (start_eq_of_isPrefix isPrefix).symm

/-- The families are injective in their arguments and do not meet. -/
theorem bytes_inj {left right : StoreKey} : left.bytes = right.bytes ↔ left = right := by
  refine ⟨fun same => ?_, congrArg bytes⟩
  have sameStart : left.start = right.start :=
    start_eq_of_bytes (same ▸ left.start_isPrefix_bytes) prefix_rfl
  -- keys of different families differ in their starts
  cases left <;> cases right <;> try exact absurd sameStart (by dsimp only [start]; decide)
  case height.height => exact congrArg height (makeHeightKey_inj.mp same)
  case block.block => exact congrArg block (makeBlockKey_inj.mp same)
  case metaHeight.metaHeight => rfl
  case metaHeight.metaBase => exact absurd same keyMetaHeight_ne_keyMetaBase
  case metaBase.metaHeight => exact absurd same keyMetaBase_ne_keyMetaHeight
  case metaBase.metaBase => rfl
  case cert.cert => exact congrArg cert (makeCertKey_inj.mp same)
  case certRound.certRound =>
    obtain ⟨rfl, rfl⟩ := roundIndex.key_inj.mp same
    rfl
  case certHeight.certHeight =>
    obtain ⟨rfl, rfl⟩ := heightIndex.key_inj.mp same
    rfl
  case batch.batch => exact congrArg batch (append_cancel_left same)

theorem makeCertRoundPrefix_isPrefix_iff (round : UInt64) (key : StoreKey) :
    makeCertRoundPrefix round <+: key.bytes ↔
      ∃ validatorIdx, key = certRound round validatorIdx := by
  constructor
  · intro isPrefix
    have sameStart : (certRound round 0).start = key.start :=
      start_eq_of_bytes (prefix_append _ _) isPrefix
    cases key <;> try exact absurd sameStart (by dsimp only [start]; decide)
    case certRound other validatorIdx =>
      rw [roundIndex.numberPrefix_isPrefix_key_iff.mp isPrefix]
      exact ⟨validatorIdx, rfl⟩
  · rintro ⟨validatorIdx, rfl⟩
    exact roundIndex.numberPrefix_isPrefix_key_iff.mpr rfl

theorem makeCertHeightPrefix_isPrefix_iff (h : Int64) (key : StoreKey) :
    makeCertHeightPrefix h <+: key.bytes ↔ ∃ validatorIdx, key = certHeight h validatorIdx := by
  constructor
  · intro isPrefix
    have sameStart : (certHeight h 0).start = key.start :=
      start_eq_of_bytes (prefix_append _ _) isPrefix
    cases key <;> try exact absurd sameStart (by dsimp only [start]; decide)
    case certHeight other validatorIdx =>
      rw [heightIndex.numberPrefix_isPrefix_key_iff.mp isPrefix]
      exact ⟨validatorIdx, rfl⟩
  · rintro ⟨validatorIdx, rfl⟩
    exact heightIndex.numberPrefix_isPrefix_key_iff.mpr rfl

end StoreKey

theorem compareKeys_eq (left right : Bytes) :
    compareKeys left right = match compare left right with | .lt => -1 | .eq => 0 | .gt => 1 := by
  induction left generalizing right with
  | nil => cases right <;> rfl
  | cons a as ih =>
    cases right with
    | nil => rfl
    | cons b bs =>
      rw [compareKeys, List.compare_cons_cons, compare_byte, ih bs]
      simp only [UInt8.lt_iff_toNat_lt]
      rcases lt_trichotomy a.toNat b.toNat with less | same | greater
      · rw [if_pos less, Nat.compare_eq_lt.mpr less]
        rfl
      · rw [if_neg same.not_lt, if_neg same.not_gt, Nat.compare_eq_eq.mpr same]
        rfl
      · rw [if_neg greater.asymm, if_pos greater, Nat.compare_eq_gt.mpr greater]
        rfl

/-- Keys are determined by their bytes; those of the height index are ordered as the heights; scans
of the certificate indexes are exact; the comparison is lexicographic and a block value is read
back. -/
theorem storeKeys_sound :
    (∀ left right : StoreKey, left.bytes = right.bytes ↔ left = right) ∧
    (∀ left right : Int64, 0 ≤ left → 0 ≤ right →
      compare (makeHeightKey left) (makeHeightKey right) = compare left.toInt right.toInt) ∧
    (∀ left right : Bytes, compareKeys left right =
      match compare left right with | .lt => -1 | .eq => 0 | .gt => 1) ∧
    (∀ (round : UInt64) (key : StoreKey), makeCertRoundPrefix round <+: key.bytes ↔
      ∃ validatorIdx, key = .certRound round validatorIdx) ∧
    (∀ (height : Int64) (key : StoreKey), makeCertHeightPrefix height <+: key.bytes ↔
      ∃ validatorIdx, key = .certHeight height validatorIdx) ∧
    ∀ (height : Int64) (data : Bytes),
      parseBlockValue (makeBlockValue height data) = (height, data) :=
  ⟨fun _ _ => StoreKey.bytes_inj, fun _ _ => compare_makeHeightKey, compareKeys_eq,
    StoreKey.makeCertRoundPrefix_isPrefix_iff, StoreKey.makeCertHeightPrefix_isPrefix_iff,
    parseBlockValue_makeBlockValue⟩

end Blockberry
