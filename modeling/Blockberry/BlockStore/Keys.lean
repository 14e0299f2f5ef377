import Blockberry.Lib.BigEndian
import Blockberry.Lib.KeyValue
import Blockberry.Types.Basic

/-!
# Keys of the disk stores

LevelDB and Badger keep all data of a block store in one key space. The first bytes of
a key say what it is for; heights are written with a fixed width, so that the keys of
positive heights are ordered as the heights are.
-/

namespace Blockberry

open BigEndian List

/-- The prefix `H:`, from heights to hashes. -/
def prefixHeight : Bytes := [72, 58]

/-- The prefix `B:`, from hashes to block records. -/
def prefixBlock : Bytes := [66, 58]

def keyMetaHeight : Bytes := [77, 58, 104, 101, 105, 103, 104, 116]

def keyMetaBase : Bytes := [77, 58, 98, 97, 115, 101]

def makeHeightKey (height : Int64) : Bytes := prefixHeight ++ encodeWord height

def makeBlockKey (hash : Bytes) : Bytes := prefixBlock ++ hash

def makeBlockValue (height : Int64) (data : Bytes) : Bytes := encodeWord height ++ data

def parseBlockValue (value : Bytes) : Int64 × Bytes :=
  if value.length < 8 then (0, []) else (decodeWord value, value.drop 8)

/-- The height that a key of the height index is for. -/
def heightOfKey (key : Bytes) : Int64 := decodeWord (key.drop prefixHeight.length)

variable (h : Int64)

@[simp] theorem heightOfKey_makeHeightKey : heightOfKey (makeHeightKey h) = h := by
  rw [heightOfKey, makeHeightKey, drop_left, decodeWord_encodeWord]

@[simp] theorem parseBlockValue_makeBlockValue (data : Bytes) :
    parseBlockValue (makeBlockValue h data) = (h, data) := by
  have long : ¬(makeBlockValue h data).length < 8 := by simp [makeBlockValue]
  rw [parseBlockValue, if_neg long, makeBlockValue, decodeWord_encodeWord_append,
    drop_left' (length_encodeWord h)]

@[simp] theorem makeHeightKey_inj {left right : Int64} :
    makeHeightKey left = makeHeightKey right ↔ left = right := by
  rw [makeHeightKey, makeHeightKey, append_cancel_left_eq, encodeWord_inj]

@[simp] theorem makeBlockKey_inj {left right : Bytes} :
    makeBlockKey left = makeBlockKey right ↔ left = right := by
  rw [makeBlockKey, makeBlockKey, append_cancel_left_eq]

variable (hash : Bytes)

@[simp] theorem makeHeightKey_ne_makeBlockKey : makeHeightKey h ≠ makeBlockKey hash := by
  simp [makeHeightKey, makeBlockKey, prefixHeight, prefixBlock]

@[simp] theorem makeBlockKey_ne_makeHeightKey :
    makeBlockKey hash ≠ makeHeightKey h := (makeHeightKey_ne_makeBlockKey h hash).symm

@[simp] theorem keyMetaHeight_ne_keyMetaBase : keyMetaHeight ≠ keyMetaBase := by decide

@[simp] theorem keyMetaBase_ne_keyMetaHeight : keyMetaBase ≠ keyMetaHeight := by decide

theorem keyMetaHeight_ne_makeBlockKey : keyMetaHeight ≠ makeBlockKey hash := by
  simp [keyMetaHeight, makeBlockKey, prefixBlock]

theorem keyMetaBase_ne_makeBlockKey : keyMetaBase ≠ makeBlockKey hash := by
  simp [keyMetaBase, makeBlockKey, prefixBlock]

@[simp] theorem prefixHeight_isPrefix_makeHeightKey : prefixHeight <+: makeHeightKey h :=
  prefix_append _ _

theorem not_prefixHeight_isPrefix_makeBlockKey : ¬prefixHeight <+: makeBlockKey hash := by
  simp [prefixHeight, makeBlockKey, prefixBlock, cons_prefix_cons]

theorem not_prefixHeight_isPrefix_keyMetaHeight : ¬prefixHeight <+: keyMetaHeight := by decide

theorem not_prefixHeight_isPrefix_keyMetaBase : ¬prefixHeight <+: keyMetaBase := by decide

theorem ne_makeHeightKey {key : Bytes} (outside : ¬prefixHeight <+: key) (h : Int64) :
    key ≠ makeHeightKey h := by
  rintro rfl
  exact outside (prefixHeight_isPrefix_makeHeightKey h)

theorem compare_makeHeightKey {left right : Int64} (leftNonneg : 0 ≤ left)
    (rightNonneg : 0 ≤ right) :
    compare (makeHeightKey left) (makeHeightKey right) = compare left.toInt right.toInt := by
  rw [Int64.le_iff_toInt_le, Int64.toInt_zero] at leftNonneg rightNonneg
  rw [← compare_encodeWord leftNonneg rightNonneg]
  simp [makeHeightKey, prefixHeight, List.compare_cons_cons]

theorem prefixHeight_isPrefix_of_between {lower upper : Int64} {key : Bytes}
    (above : (compare (makeHeightKey lower) key).isLE = true)
    (below : compare key (makeHeightKey upper) = .lt) : prefixHeight <+: key :=
  KeyValue.isPrefix_of_between above below

end Blockberry
