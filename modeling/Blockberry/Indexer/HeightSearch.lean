import Blockberry.Indexer.Consistency
import Blockberry.Indexer.EventQuery

/-!
# Height queries

The heights are indexed in big-endian order, so a range is one iterator. The largest height is the
last key of the open ranges, which leaves it out, and the height after it is zero.
-/

namespace Blockberry.Indexer

open BigEndian KeyValue TxIndexer List Nat

def decimal (n : Nat) : Bytes :=
  if n = 0 then [48] else ((digits 10 n).map fun digit => UInt8.ofNat (48 + digit)).reverse

theorem parseUint_decimal (height : UInt64) : parseUint (decimal height.toNat) = some height := by
  have small (digit : Nat) (member : digit ∈ digits 10 height.toNat) :
      (UInt8.ofNat (48 + digit)).toNat = 48 + digit := by
    have := digits_lt_base (by decide) member
    rw [UInt8.toNat_ofNat', mod_eq_of_lt (by omega)]
  have value : (decimal height.toNat).foldl (fun value c => value * 10 + (c.toNat - 48)) 0 =
      height.toNat := by
    rw [decimal]
    split
    next zero => simp [zero]
    rw [foldl_reverse, foldr_map]
    conv_rhs => rw [← ofDigits_digits 10 height.toNat, ofDigits_eq_foldr]
    apply foldr_ext
    intro digit member value
    rw [small digit member, cast_id]
    omega
  have digits : decimal height.toNat ≠ [] ∧ ∀ c ∈ decimal height.toNat, 48 ≤ c ∧ c ≤ 57 := by
    rw [decimal]
    split
    next => simp
    next nonzero =>
      refine ⟨by simpa [digits_eq_nil_iff_eq_zero] using nonzero, fun c member => ?_⟩
      obtain ⟨digit, isDigit, rfl⟩ := mem_map.mp (mem_reverse.mp member)
      have := digits_lt_base (by decide) isDigit
      rw [UInt8.le_iff_toNat_le, UInt8.le_iff_toNat_le, small digit isDigit]
      simp
      omega
  rw [parseUint, if_pos digits]
  dsimp only
  rw [value, if_pos height.toNat_lt, UInt64.ofNat_toNat]

/-! ## The height index -/

/-- The entries under the keys of heights are those of the results. -/
def HeightEntries (idx : TxIndexer) (results : List TxIndexResult) : Prop :=
  ∀ key hash, prefixTxByHeight <+: key → (idx.db[key]? = some hash ↔
    ∃ result ∈ results, result.hash = hash ∧ key = txHeightKey result.height hash)

variable {json : Json} {idx : TxIndexer} {results : List TxIndexResult}

theorem txHeightKey_inj {height other : UInt64} {hash another : Bytes}
    (same : txHeightKey height hash = txHeightKey other another) :
    height = other ∧ hash = another := by
  rw [txHeightKey, txHeightKey, append_assoc, append_assoc, append_cancel_left_eq] at same
  obtain ⟨sameHeight, sameHash⟩ := append_inj same (by
    rw [length_encodeHeight, length_encodeHeight])
  exact ⟨UInt64.toNat_inj.mp (encode_inj height.toNat_lt other.toNat_lt sameHeight), sameHash⟩

theorem HeightEntries.put (entries : HeightEntries idx results) (result : TxIndexResult) :
    HeightEntries (idx.put json result) (results ++ [result]) := by
  intro key hash isHeight
  have own : key ∈ idx.keysOf result result.hash ↔ key = txHeightKey result.height result.hash :=
    ⟨fun member => eq_txHeightKey_of_mem member isHeight, fun same => same ▸ mem_cons_self⟩
  rw [put_secondary idx result (secondary_of_height isHeight), if_congr own rfl rfl]
  have before := entries key hash isHeight
  grind [txHeightKey_inj]

theorem heightEntries_after (entries : HeightEntries idx results) (isOpen : idx.closed = false)
    (later : List TxIndexResult) (nonempty : ∀ result ∈ later, result.hash ≠ []) :
    HeightEntries (Run.after (TxIndexer.step json) idx (Content.ops later)) (results ++ later) := by
  induction later generalizing idx results with
  | nil => rwa [append_nil]
  | cons result later ih =>
    have isPut : idx.step json (.index (some result)) = idx.put json result :=
      index_eq_put isOpen (nonempty result mem_cons_self)
    have put : HeightEntries (idx.step json (.index (some result))) (results ++ [result]) :=
      isPut ▸ entries.put result
    have last := ih put (closed_step isOpen _) fun other member =>
      nonempty other (mem_cons_of_mem _ member)
    rwa [append_assoc] at last

def Content.indexerFor (json : Json) (indexAllEvents : Bool) (content : Content) : TxIndexer :=
  Run.after (TxIndexer.step json) (newTxIndexer indexAllEvents) (ops content.results)

theorem heightEntries_indexerFor (json : Json) (indexAllEvents : Bool) (content : Content) :
    HeightEntries (content.indexerFor json indexAllEvents) content.results := by
  have empty : HeightEntries (newTxIndexer indexAllEvents) [] := by
    intro key hash isHeight
    simp [newTxIndexer]
  exact heightEntries_after empty rfl content.results content.nonempty

/-- The hashes are those of the results with such a height, each once, in the order of the
heights. -/
structure AnswersHeights (content : Content) (asked : UInt64 → Prop) (hashes : List Bytes) :
    Prop where
  nodup : hashes.Nodup
  mem_iff : ∀ hash, hash ∈ hashes ↔ ∃ result ∈ content.results, result.hash = hash ∧
    asked result.height
  ordered : hashes.Pairwise fun earlier later => ∀ left ∈ content.results,
    ∀ right ∈ content.results, left.hash = earlier → right.hash = later → left.height ≤ right.height

variable {content : Content}

theorem answersHeights_select {p : Bytes → Bool} {asked : UInt64 → Prop}
    (entries : HeightEntries idx content.results)
    (heights : ∀ key, p key = true → prefixTxByHeight <+: key)
    (isAsked : ∀ height hash, p (txHeightKey height hash) = true ↔ asked height) :
    AnswersHeights content asked (values (select idx.db p)) := by
  have distinct : ∀ left ∈ content.results, ∀ right ∈ content.results, left.hash = right.hash →
      left = right := inj_on_of_nodup_map content.nodup
  -- The entry of a hash is under the key of its only result.
  have ofEntry (entry : Bytes × Bytes) (member : entry ∈ select idx.db p) :
      p entry.1 = true ∧ ∃ result ∈ content.results, result.hash = entry.2 ∧
        entry.1 = txHeightKey result.height entry.2 := by
    obtain ⟨selected, stored⟩ := mem_select.mp member
    exact ⟨selected, (entries entry.1 entry.2 (heights entry.1 selected)).mp stored⟩
  have ordered := pairwise_select idx.db p
  constructor
  · rw [values, List.Nodup, pairwise_map]
    refine ordered.imp_of_mem fun {left right} isLeft isRight less same => ?_
    have sameKey : left.1 = right.1 := by grind
    rw [sameKey, Std.compare_self] at less
    cases less
  · intro hash
    rw [values, mem_map]
    constructor
    · rintro ⟨entry, member, rfl⟩
      obtain ⟨selected, result, inResults, isHash, isKey⟩ := ofEntry entry member
      exact ⟨result, inResults, isHash, (isAsked _ _).mp (isKey ▸ selected)⟩
    · rintro ⟨result, inResults, rfl, asks⟩
      have isHeight : prefixTxByHeight <+: txHeightKey result.height result.hash := by
        simp [txHeightKey]
      refine ⟨(txHeightKey result.height result.hash, result.hash), mem_select.mpr ⟨?_, ?_⟩, rfl⟩
      · exact (isAsked _ _).mpr asks
      · exact (entries _ _ isHeight).mpr ⟨result, inResults, rfl, rfl⟩
  · rw [values, pairwise_map]
    refine ordered.imp_of_mem fun {earlier later} isEarlier isLater less => ?_
    intro left inLeft right inRight isLeft isRight
    have earlierKey : earlier.1 = txHeightKey left.height left.hash := by grind
    have laterKey : later.1 = txHeightKey right.height right.hash := by grind
    rw [earlierKey, laterKey, txHeightKey, txHeightKey, append_assoc, append_assoc,
      compare_append rfl, Std.compare_self, Ordering.eq_then, compare_append (by
        rw [length_encodeHeight, length_encodeHeight]), compare_encodeHeight] at less
    rw [UInt64.le_iff_toNat_le, ← not_lt]
    intro greater
    rw [Nat.compare_eq_gt.mpr greater] at less
    cases less

theorem answersHeights_between (entries : HeightEntries idx content.results)
    {start limit : Bytes} {asked : UInt64 → Prop}
    (isAsked : ∀ height hash, (compare start (encodeHeight height ++ hash)).isLE = true ∧
      compare (encodeHeight height ++ hash) limit = .lt ↔ asked height) :
    AnswersHeights content asked (idx.between start limit) := by
  apply answersHeights_select entries
  · intro key selected
    rw [Bool.and_eq_true, beq_iff_eq] at selected
    exact isPrefix_of_between selected.1 selected.2
  · intro height hash
    rw [← isAsked height hash, Bool.and_eq_true, beq_iff_eq, txHeightKey, append_assoc,
      compare_append rfl, compare_append rfl, Std.compare_self, Ordering.eq_then, Ordering.eq_then]

/-- The heights whose results a query finds. -/
def Finds (op : Operator) (queried height : UInt64) : Prop :=
  match op with
  | .equal => height = queried
  | .greater => queried + 1 ≤ height ∧ height < maxHeight
  | .greaterEqual => queried ≤ height ∧ height < maxHeight
  | .less => height < queried
  | .lessEqual => height < queried + 1
  | .notEqual => False

theorem answersHeights_searchByHeight
    (entries : HeightEntries idx content.results) (op : Operator) (queried : UInt64)
    (isOperator : op ≠ .notEqual) :
    ∃ hashes, idx.searchByHeight op (decimal queried.toNat) = .ok hashes ∧
      AnswersHeights content (Finds op queried) hashes := by
  rw [searchByHeight, parseUint_decimal]
  have fromStart (height : UInt64) (hash : Bytes) :
      (compare [] (encodeHeight height ++ hash)).isLE = true := by
    cases encodeHeight height ++ hash <;> rfl
  cases op with
  | equal =>
    refine ⟨_, rfl, answersHeights_select entries ?_ ?_⟩
    · intro key selected
      have isPrefix := isPrefixOf_iff_prefix.mp selected
      exact (prefix_append _ _).trans isPrefix
    · intro height hash
      rw [txHeightKey, append_assoc, isPrefixOf_iff_prefix, prefix_append_right_inj,
        encodeHeight_prefix_iff, Finds, eq_comm]
  | greater | greaterEqual =>
    refine ⟨_, rfl, answersHeights_between entries fun height hash => ?_⟩
    rw [isLE_compare_encodeHeight, compare_encodeHeight_lt, Finds]
  | less | lessEqual =>
    refine ⟨_, rfl, answersHeights_between entries fun height hash => ?_⟩
    rw [compare_encodeHeight_lt, Finds]
    exact and_iff_right (fromStart height hash)
  | notEqual => exact absurd rfl isOperator

/-- A query treats a height as its operator asks. -/
def TreatsHeight (op : Operator) (queried height : UInt64) : Prop :=
  match op with
  | .greaterEqual => height ≠ maxHeight
  | .greater => height = maxHeight ↔ queried = maxHeight
  | .lessEqual => queried ≠ maxHeight
  | _ => True

theorem finds_iff_asks (op : Operator) (isOperator : op ≠ .notEqual) (queried height : UInt64) :
    (Finds op queried height ↔ Asks op height queried) ↔ TreatsHeight op queried height := by
  cases op with
  | notEqual => exact absurd rfl isOperator
  | equal | less => exact iff_of_true Iff.rfl trivial
  | greaterEqual | greater | lessEqual =>
    simp only [Finds, Asks, TreatsHeight, maxHeight, UInt64.le_iff_toNat_le,
      UInt64.lt_iff_toNat_lt, ← UInt64.toNat_inj, UInt64.toNat_add, ne_eq]
    have := queried.toNat_lt
    have := height.toNat_lt
    simp
    omega

/-- A height query answers with the hashes of the results with such a height, each once and in
order, exactly if no result is at the largest height for `>=` and `>`, all are for `>` and the
largest height, and the largest height is not queried with `<=`. -/
theorem searchByHeight_answers_iff (json : Json) (indexAllEvents : Bool) (content : Content)
    (op : Operator) (queried : UInt64) :
    (∃ hashes, (content.indexerFor json indexAllEvents).searchByHeight op
        (decimal queried.toNat) = .ok hashes ∧
      AnswersHeights content (Asks op · queried) hashes) ↔
    op ≠ .notEqual ∧ ∀ result ∈ content.results, TreatsHeight op queried result.height := by
  have entries := heightEntries_indexerFor json indexAllEvents content
  by_cases isOperator : op = .notEqual
  · subst isOperator
    simp [searchByHeight, parseUint_decimal]
  · obtain ⟨hashes, found, answers⟩ := answersHeights_searchByHeight entries op queried isOperator
    rw [and_iff_right isOperator]
    constructor
    · rintro ⟨_, isAnswer, asked⟩ result member
      cases isAnswer.symm.trans found
      rw [← finds_iff_asks op isOperator]
      have distinct := inj_on_of_nodup_map content.nodup
      have either := (answers.mem_iff result.hash).symm.trans (asked.mem_iff result.hash)
      grind
    · intro treats
      refine ⟨hashes, found, answers.nodup, fun hash => ?_, answers.ordered⟩
      rw [answers.mem_iff]
      have agree (result : TxIndexResult) (member : result ∈ content.results) :=
        (finds_iff_asks op isOperator queried result.height).mpr (treats result member)
      grind

/-- A transaction at the largest height is not found by `>= 0`. -/
theorem searchByHeight_misses_maxHeight :
    (Run.after (TxIndexer.step PlainJson.json) (newTxIndexer true)
      [.index (some ⟨[9], maxHeight, 0, none⟩)]).searchByHeight .greaterEqual (decimal 0) =
        .ok [] := by
  decide +kernel

end Blockberry.Indexer
