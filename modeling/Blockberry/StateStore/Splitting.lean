import Blockberry.Lib.Loop
import Blockberry.Lib.Machine
import Blockberry.StateStore.Snapshot

/-!
# The loop that cuts a snapshot into chunks

`splitIntoChunks` steps through the data by the chunk size, which `SetChunkSize` takes without a
check. The position is a machine word: a size of zero makes the loop go on for ever, a negative
size and a position past the largest word make a slice expression panic.
-/

namespace Blockberry.StateStore

open Loop Chunks List Int64 Int

/-- A byte slice in memory. Its length is an `int`. -/
structure ByteSlice where
  bytes : Bytes
  length_lt : bytes.length < 2 ^ 63

namespace ByteSlice

def len (data : ByteSlice) : Int64 := Int64.ofInt data.bytes.length

/-- The expression `data[low:high]` for a bound that is not above the length; none if it
panics. -/
def slice (data : ByteSlice) (low high : Int64) : Option Bytes :=
  if 0 ≤ low ∧ low ≤ high ∧ high ≤ data.len then
    some ((data.bytes.take high.toInt.toNat).drop low.toInt.toNat)
  else none

theorem toInt_len (data : ByteSlice) : data.len.toInt = data.bytes.length := by
  have bound := data.length_lt
  rw [len, toInt_ofInt]
  exact Machine.wrap_of_inRange ⟨by omega, by omega⟩

end ByteSlice

/-- One round of the loop: the condition, the chunk and the step. -/
def splitRound (data : ByteSlice) (chunkSize : Int64) (state : Int64 × List Bytes) :
    Round (Int64 × List Bytes) (Option (List Bytes)) :=
  if state.1 < data.len then
    match data.slice state.1 (min (state.1 + chunkSize) data.len) with
    | none => .done none
    | some chunk => .next (state.1 + chunkSize, state.2 ++ [chunk])
  else .done (some state.2)

/-- The call of `splitIntoChunks` comes back with these chunks, or panics for none. -/
def SplitEnds (data : ByteSlice) (chunkSize : Int64) (result : Option (List Bytes)) : Prop :=
  if data.len = 0 then result = some [] else Ends (splitRound data chunkSize) (0, []) result

/-- Chunks of one size, the last of which may be shorter. -/
structure Splits (data : ByteSlice) (chunkSize : Int64) (chunks : List Bytes) : Prop where
  nonempty : ∀ chunk ∈ chunks, chunk ≠ []
  flatten : chunks.flatten = data.bytes
  full : ∀ chunk ∈ chunks.dropLast, (chunk.length : Int) = chunkSize.toInt
  short : ∀ chunk ∈ chunks, (chunk.length : Int) ≤ chunkSize.toInt
  count : chunks.length = data.bytes.length ⌈/⌉ chunkSize.toInt.toNat

/-- The positions up to the first one that is not in the data are words. -/
def StepsFit (data : ByteSlice) (chunkSize : Int64) : Prop :=
  chunkSize.toInt.toNat * (data.bytes.length ⌈/⌉ chunkSize.toInt.toNat) < 2 ^ 63

theorem toInt_min (left right : Int64) : (min left right).toInt = min left.toInt right.toInt := by
  have isMin : min left right = if left ≤ right then left else right := rfl
  rw [isMin]
  split
  next less => exact (min_eq_left (le_iff_toInt_le.mp less)).symm
  next more =>
    rw [le_iff_toInt_le, not_le] at more
    exact (min_eq_right more.le).symm

section Rounds

variable {data : ByteSlice} {chunkSize : Int64} {size : Nat} {i : Int64} {chunks : List Bytes}

theorem splitRound_of_end (atEnd : (data.bytes.length : Int) ≤ i.toInt) :
    splitRound data chunkSize (i, chunks) = .done (some chunks) := by
  rw [splitRound, if_neg]
  rw [lt_iff_toInt_lt, data.toInt_len]
  exact not_lt.mpr atEnd

theorem splitRound_of_inside (inside : i.toInt < data.bytes.length) :
    splitRound data chunkSize (i, chunks) =
      match data.slice i (min (i + chunkSize) data.len) with
      | none => .done none
      | some chunk => .next (i + chunkSize, chunks ++ [chunk]) := by
  rw [splitRound, if_pos]
  rw [lt_iff_toInt_lt, data.toInt_len]
  exact inside

/-- A step to a negative position panics, also if the position is the result of an overflow. -/
theorem splitRound_of_neg (inside : i.toInt < data.bytes.length) (nonneg : 0 ≤ i.toInt)
    (negative : (i + chunkSize).toInt < 0) :
    splitRound data chunkSize (i, chunks) = .done none := by
  have panics : data.slice i (min (i + chunkSize) data.len) = none := by
    rw [ByteSlice.slice, if_neg]
    rw [le_iff_toInt_le, le_iff_toInt_le, toInt_min, data.toInt_len]
    omega
  rw [splitRound_of_inside inside, panics]

theorem toInt_step (isSize : chunkSize.toInt = size) {rounds : Nat}
    (isPosition : i.toInt = (size * rounds : Nat)) (fits : size * (rounds + 1) < 2 ^ 63) :
    (i + chunkSize).toInt = (size * (rounds + 1) : Nat) := by
  rw [Nat.mul_succ] at fits ⊢
  rw [Machine.toInt_add_of_inRange ⟨by omega, by omega⟩]
  omega

theorem splitRound_of_inRange (isSize : chunkSize.toInt = size) {rounds : Nat}
    (isPosition : i.toInt = (size * rounds : Nat)) (inside : size * rounds < data.bytes.length)
    (fits : size * (rounds + 1) < 2 ^ 63) :
    splitRound data chunkSize (i, chunks) =
      .next (i + chunkSize, chunks ++ [(data.bytes.drop (size * rounds)).take size]) := by
  have high : (min (i + chunkSize) data.len).toInt =
      (min (size * rounds + size) data.bytes.length : Nat) := by
    rw [toInt_min, toInt_step isSize isPosition fits, data.toInt_len, Nat.cast_min, Nat.mul_succ]
  have cut : data.slice i (min (i + chunkSize) data.len) =
      some ((data.bytes.drop (size * rounds)).take size) := by
    rw [ByteSlice.slice, if_pos]
    · rw [high, isPosition, toNat_natCast, toNat_natCast, ← take_eq_take_min, take_drop]
    · rw [le_iff_toInt_le, le_iff_toInt_le, le_iff_toInt_le, high, isPosition,
        data.toInt_len]
      exact ⟨natCast_nonneg _, by omega, by omega⟩
  rw [splitRound_of_inside (by omega), cut]

end Rounds

section Loops

variable {data : ByteSlice} {chunkSize : Int64} {size : Nat}

/-- After some rounds the chunks are those of the data before the position. -/
def HasCut (data : ByteSlice) (size : Nat) (state : Int64 × List Bytes) : Prop :=
  ∃ rounds : Nat, state.1.toInt = (size * rounds : Nat) ∧
    state.2 ++ Chunks.chunksOf size (data.bytes.drop (size * rounds)) =
      Chunks.chunksOf size data.bytes

/-- The position after some rounds is in the data. -/
def IsInside (data : ByteSlice) (size : Nat) (state : Int64 × List Bytes) : Prop :=
  ∃ rounds : Nat, state.1.toInt = (size * rounds : Nat) ∧ size * rounds < data.bytes.length

/-- What is after the position. -/
def remaining (data : ByteSlice) (state : Int64 × List Bytes) : Nat :=
  data.bytes.length - state.1.toInt.toNat

theorem lt_ceilDiv_iff {length rounds : Nat} (pos : 0 < size) :
    rounds < length ⌈/⌉ size ↔ size * rounds < length := by
  rw [← not_le, ceilDiv_le_iff_le_mul pos, not_le]

theorem ends_of_fits (isSize : chunkSize.toInt = size) (pos : 0 < size)
    (fits : size * (data.bytes.length ⌈/⌉ size) < 2 ^ 63) :
    Ends (splitRound data chunkSize) (0, []) (some (chunksOf size data.bytes)) := by
  have initially : HasCut data size (0, []) := ⟨0, by simp, by simp⟩
  have each (state : Int64 × List Bytes) (hasCut : HasCut data size state) :
      (∃ later, splitRound data chunkSize state = .next later ∧ HasCut data size later ∧
        remaining data later < remaining data state) ∨
      ∃ result, splitRound data chunkSize state = .done result ∧
        result = some (chunksOf size data.bytes) := by
    obtain ⟨i, chunks⟩ := state
    obtain ⟨rounds, isPosition, sofar⟩ := hasCut
    change i.toInt = _ at isPosition
    rcases lt_or_ge (size * rounds) data.bytes.length with inside | atEnd
    · have inRange : size * (rounds + 1) < 2 ^ 63 :=
        (Nat.mul_le_mul_left size ((lt_ceilDiv_iff pos).mpr inside)).trans_lt fits
      have moved := toInt_step isSize isPosition inRange
      refine .inl ⟨_, splitRound_of_inRange isSize isPosition inside inRange,
        ⟨rounds + 1, moved, ?_⟩, ?_⟩
      · have some : data.bytes.drop (size * rounds) ≠ [] := by
          rw [ne_eq, drop_eq_nil_iff]
          omega
        rw [← sofar, chunksOf_of_ne_nil pos some, append_assoc, drop_drop, Nat.mul_succ]
        rfl
      · rw [remaining, remaining, moved, isPosition, Nat.mul_succ]
        omega
    · rw [drop_of_length_le atEnd, chunksOf_nil, append_nil] at sofar
      exact .inr ⟨_, splitRound_of_end (by omega), congrArg some sofar⟩
  obtain ⟨result, ends, rfl⟩ := exists_ends (HasCut data size) (remaining data) each initially
  exact ends

theorem ends_of_overflow (isSize : chunkSize.toInt = size) (pos : 0 < size)
    (overflows : 2 ^ 63 ≤ size * (data.bytes.length ⌈/⌉ size)) :
    Ends (splitRound data chunkSize) (0, []) none := by
  have initially : IsInside data size (0, []) := by
    refine ⟨0, by simp, ?_⟩
    by_contra empty
    rw [Nat.eq_zero_of_not_pos empty, zero_ceilDiv] at overflows
    omega
  have each (state : Int64 × List Bytes) (inside : IsInside data size state) :
      (∃ later, splitRound data chunkSize state = .next later ∧ IsInside data size later ∧
        remaining data later < remaining data state) ∨
      ∃ result, splitRound data chunkSize state = .done result ∧ result = none := by
    obtain ⟨i, chunks⟩ := state
    obtain ⟨rounds, isPosition, inside⟩ := inside
    change i.toInt = _ at isPosition
    rcases lt_or_ge (size * (rounds + 1)) (2 ^ 63) with inRange | overflow
    · have later : rounds + 1 < data.bytes.length ⌈/⌉ size :=
        lt_of_mul_lt_mul_left (inRange.trans_le overflows) (Nat.zero_le size)
      have moved := toInt_step isSize isPosition inRange
      refine .inl ⟨_, splitRound_of_inRange isSize isPosition inside inRange,
        ⟨rounds + 1, moved, (lt_ceilDiv_iff pos).mp later⟩, ?_⟩
      rw [remaining, remaining, moved, isPosition, Nat.mul_succ]
      omega
    · rw [Nat.mul_succ] at overflow
      refine .inr ⟨none, splitRound_of_neg (by omega) (by omega) ?_, rfl⟩
      exact Machine.toInt_add_neg_of_overflow (by omega)
  obtain ⟨result, ends, rfl⟩ := exists_ends (IsInside data size) (remaining data) each initially
  exact ends

theorem ends_of_neg (nonempty : data.bytes ≠ []) (negative : chunkSize.toInt < 0) :
    Ends (splitRound data chunkSize) (0, []) none := by
  have some := length_pos_iff.mpr nonempty
  apply Ends.done
  apply splitRound_of_neg
  · simpa using some
  · simp
  · simpa using negative

theorem not_ends_of_zero (nonempty : data.bytes ≠ []) (isZero : chunkSize.toInt = 0)
    (result : Option (List Bytes)) : ¬Ends (splitRound data chunkSize) (0, []) result := by
  have inside : 0 * 0 < data.bytes.length := by simpa using length_pos_iff.mpr nonempty
  have isSize : chunkSize.toInt = (0 : Nat) := isZero
  have each (state : Int64 × List Bytes) (atZero : state.1.toInt = 0) :
      ∃ later, splitRound data chunkSize state = .next later ∧ later.1.toInt = 0 := by
    obtain ⟨i, chunks⟩ := state
    have isPosition : i.toInt = (0 * 0 : Nat) := atZero
    exact ⟨_, splitRound_of_inRange isSize isPosition inside (by omega),
      toInt_step isSize isPosition (by omega)⟩
  exact not_ends (fun state => state.1.toInt = 0) each rfl result

end Loops

variable {data : ByteSlice}

theorem splits_chunksOf {chunkSize : Int64} {size : Nat}
    (isSize : chunkSize.toInt = size) (pos : 0 < size) :
    Splits data chunkSize (chunksOf size data.bytes) where
  nonempty _ member := ne_nil_of_mem_chunksOf pos member
  flatten := flatten_chunksOf pos data.bytes
  full chunk member := by
    rw [isSize, length_eq_of_mem_dropLast_chunksOf pos member]
  short chunk member := by
    rw [isSize]
    exact ofNat_le.mpr (length_le_of_mem_chunksOf pos member)
  count := by
    rw [isSize, toNat_natCast]
    exact length_chunksOf pos data.bytes

theorem splitEnds_of_empty (empty : data.bytes = []) (chunkSize : Int64)
    (result : Option (List Bytes)) : SplitEnds data chunkSize result ↔ result = some [] := by
  rw [SplitEnds, if_pos]
  rw [ByteSlice.len, empty]
  rfl

theorem splitEnds_of_ne_nil (nonempty : data.bytes ≠ []) (chunkSize : Int64)
    (result : Option (List Bytes)) :
    SplitEnds data chunkSize result ↔ Ends (splitRound data chunkSize) (0, []) result := by
  rw [SplitEnds, if_neg]
  intro zero
  have length := data.toInt_len
  rw [zero] at length
  have some := length_pos_iff.mpr nonempty
  simp at length
  omega

/-- The function that the snapshot store is modelled with is what the loop computes, where the
positions fit. -/
theorem splitEnds_iff_splitIntoChunks {chunkSize : Int64}
    (fits : StepsFit data chunkSize) (chunks : List Bytes) :
    SplitEnds data chunkSize (some chunks) ↔
      splitIntoChunks data.bytes chunkSize.toInt = some chunks := by
  rw [splitIntoChunks]
  split
  next empty => rw [splitEnds_of_empty empty, eq_comm]
  next nonempty =>
    rw [splitEnds_of_ne_nil nonempty]
    split
    next notPos =>
      apply iff_of_false _ (by simp)
      intro ends
      rcases lt_or_eq_of_le notPos with negative | zero
      · cases (ends_of_neg nonempty negative).unique ends
      · exact not_ends_of_zero nonempty zero _ ends
    next pos =>
      obtain ⟨size, isSize⟩ := eq_ofNat_of_zero_le (not_le.mp pos).le
      rw [StepsFit, isSize, toNat_natCast] at fits
      have ends := ends_of_fits isSize (by omega) fits
      rw [isSize, toNat_natCast]
      constructor
      · intro endsToo
        exact ends.unique endsToo
      · rintro same
        rwa [same] at ends

/-- Cutting data into chunks comes back with the chunks that it is to give exactly if there is
no data, or the size is positive and the first position after the data is a word. -/
theorem exists_splits_iff_stepsFit (data : ByteSlice) (chunkSize : Int64) :
    (∃ chunks, SplitEnds data chunkSize (some chunks) ∧ Splits data chunkSize chunks) ↔
      data.bytes = [] ∨ 0 < chunkSize.toInt ∧ StepsFit data chunkSize := by
  by_cases empty : data.bytes = []
  · refine iff_of_true ⟨[], (splitEnds_of_empty empty chunkSize _).mpr rfl, ?_⟩ (.inl empty)
    exact ⟨by simp, by simp [empty], by simp, by simp, by simp [empty]⟩
  · rw [or_iff_right empty]
    constructor
    · rintro ⟨chunks, ends, -⟩
      rw [splitEnds_of_ne_nil empty] at ends
      rcases lt_trichotomy chunkSize.toInt 0 with negative | zero | pos
      · cases (ends_of_neg empty negative).unique ends
      · exact absurd ends (not_ends_of_zero empty zero _)
      · refine ⟨pos, ?_⟩
        obtain ⟨size, isSize⟩ := Int.eq_ofNat_of_zero_le pos.le
        rw [StepsFit, isSize, Int.toNat_natCast]
        by_contra overflows
        cases (ends_of_overflow isSize (by omega) (not_lt.mp overflows)).unique ends
    · rintro ⟨pos, fits⟩
      obtain ⟨size, isSize⟩ := Int.eq_ofNat_of_zero_le pos.le
      rw [StepsFit, isSize, Int.toNat_natCast] at fits
      have posSize : 0 < size := by omega
      exact ⟨_, (splitEnds_of_ne_nil empty chunkSize _).mpr (ends_of_fits isSize posSize fits),
        splits_chunksOf isSize posSize⟩

/-- One byte and a chunk size of zero: the call never comes back. With a size of -1 it
panics. -/
theorem splitEnds_zero_and_neg :
    (∀ result, ¬SplitEnds ⟨[1], by decide⟩ 0 result) ∧ SplitEnds ⟨[1], by decide⟩ (-1) none := by
  constructor
  · intro result
    rw [splitEnds_of_ne_nil (by simp)]
    exact not_ends_of_zero (by simp) rfl result
  · rw [splitEnds_of_ne_nil (by simp)]
    exact ends_of_neg (by simp) (by decide)

end Blockberry.StateStore
