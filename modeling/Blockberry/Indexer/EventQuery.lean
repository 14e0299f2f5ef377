import Blockberry.Lib.Machine
import Blockberry.Indexer.Entries

/-!
# Event queries

A query such as `transfer.sender='value'` is answered by the entries whose keys begin with its
parts. The parser refuses an operator `>=`, `<=` or `!=` in the quoted value too. Otherwise the
answer is exact if and only if every event key that begins with the parts is one of the queried
attribute, of the same result or a later one.
-/

namespace Blockberry.Indexer

open KeyValue Strings TxIndexer List

/-- Letters, digits and underscores; the encodings of other letters have larger bytes. -/
def NameByte (c : UInt8) : Prop :=
  (48 ≤ c ∧ c ≤ 57) ∨ (65 ≤ c ∧ c ≤ 90) ∨ (97 ≤ c ∧ c ≤ 122) ∨ c = 95 ∨ 128 ≤ c

instance (c : UInt8) : Decidable (NameByte c) := by
  unfold NameByte
  infer_instance

/-- A name has bytes of letters, digits and underscores, and no white space. -/
structure IsName (name : Bytes) : Prop where
  bytes : ∀ c ∈ name, NameByte c
  noSpace : ∀ unit ∈ whiteSpace, ¬unit <:+: name

structure EventQuery where
  kind : Bytes
  key : Bytes
  value : Bytes
  isKind : IsName kind
  isKey : IsName key
  notHeight : kind ++ 46 :: key ≠ txHeight
  unquoted : ∀ c ∈ value, c ∉ quotes

/-- The operators that are looked for before the equality sign. -/
def earlierOperators : List Operator := [.greaterEqual, .lessEqual, .notEqual]

namespace EventQuery

variable {query : EventQuery} {idx : TxIndexer}

/-- `kind.key='value'`. -/
def text (query : EventQuery) : Bytes :=
  (query.kind ++ 46 :: query.key) ++ 61 :: 39 :: (query.value ++ [39])

def start (query : EventQuery) : Bytes := eventPrefix query.kind query.key query.value

/-- The result has an event of the kind with an attribute of exactly the key and the value. -/
def Matches (query : EventQuery) (result : TxIndexResult) : Prop :=
  (query.kind, query.key, query.value) ∈ result.indexed true

/-- The value has no operator that the parser would find before the equality sign. -/
def Plain (query : EventQuery) : Prop :=
  ∀ op ∈ earlierOperators, cut op.text query.value = none

theorem not_mem_name {name : Bytes} (isName : IsName name) {c : UInt8} (special : ¬NameByte c) :
    c ∉ name :=
  fun member => special (isName.bytes c member)

theorem not_mem_path (query : EventQuery) {c : UInt8} (special : ¬NameByte c) (notDot : c ≠ 46) :
    c ∉ query.kind ++ 46 :: query.key := by
  simp [not_mem_name query.isKind special, not_mem_name query.isKey special, notDot]

theorem not_mem_whiteSpace :
    ∀ unit ∈ whiteSpace, unit ≠ [] ∧ 46 ∉ unit ∧ 39 ∉ unit ∧ 61 ∉ unit := by
  decide

theorem trimSpace_text (query : EventQuery) : trimSpace query.text = query.text := by
  apply trimUnits_eq_self
  · intro unit member isPrefix
    have units := not_mem_whiteSpace unit member
    rw [text, append_assoc] at isPrefix
    have inKind := isPrefix_of_append_cons units.2.1 isPrefix
    exact query.isKind.noSpace unit member inKind.isInfix
  · intro unit member isSuffix
    have units := not_mem_whiteSpace unit member
    rw [text, ← cons_append, ← cons_append, ← append_assoc] at isSuffix
    exact units.1 (suffix_nil.mp (isSuffix_of_append_cons units.2.2.1 isSuffix))

theorem trimSpace_path (query : EventQuery) :
    trimSpace (query.kind ++ 46 :: query.key) = query.kind ++ 46 :: query.key := by
  apply trimUnits_eq_self
  · intro unit member isPrefix
    have units := not_mem_whiteSpace unit member
    exact query.isKind.noSpace unit member (isPrefix_of_append_cons units.2.1 isPrefix).isInfix
  · intro unit member isSuffix
    have units := not_mem_whiteSpace unit member
    exact query.isKey.noSpace unit member (isSuffix_of_append_cons units.2.1 isSuffix).isInfix

theorem trimSpace_quoted (value : Bytes) :
    trimSpace (39 :: (value ++ [39])) = 39 :: (value ++ [39]) := by
  apply trimUnits_eq_self
  · intro unit member isPrefix
    have units := not_mem_whiteSpace unit member
    rw [← nil_append (39 :: (value ++ [39]))] at isPrefix
    exact units.1 (prefix_nil.mp (isPrefix_of_append_cons units.2.2.1 isPrefix))
  · intro unit member isSuffix
    have units := not_mem_whiteSpace unit member
    rw [← cons_append] at isSuffix
    exact units.1 (suffix_nil.mp (isSuffix_of_append_cons units.2.2.1 isSuffix))

theorem cut_earlier (query : EventQuery) {op : Operator} (earlier : op ∈ earlierOperators) :
    cut op.text query.text = (cut op.text query.value).map fun parts =>
      ((query.kind ++ 46 :: query.key) ++ 61 :: 39 :: parts.1, parts.2 ++ [39]) := by
  have general (c : UInt8) (special : ¬NameByte c) (others : c ≠ 46 ∧ c ≠ 61 ∧ c ≠ 39) :
      cut [c, 61] query.text = (cut [c, 61] query.value).map fun parts =>
        ((query.kind ++ 46 :: query.key) ++ 61 :: 39 :: parts.1, parts.2 ++ [39]) := by
    have notPath := query.not_mem_path special others.1
    have absent : c ∉ (query.kind ++ 46 :: query.key) ++ [61, 39] := by
      simp only [mem_append, notPath, false_or]
      simp [others.2.1, others.2.2]
    have split : query.text =
        ((query.kind ++ 46 :: query.key) ++ [61, 39]) ++ (query.value ++ [39]) := by
      simp [text]
    rw [split, cut_append absent, cut_pair_append_singleton (by decide), Option.map_map]
    congr 1
    funext parts
    simp
  simp only [earlierOperators, mem_cons, not_mem_nil, or_false] at earlier
  rcases earlier with rfl | rfl | rfl
  · exact general 62 (by decide) (by decide)
  · exact general 60 (by decide) (by decide)
  · exact general 33 (by decide) (by decide)

theorem cut_equal (query : EventQuery) : cut Operator.equal.text query.text =
      some (query.kind ++ 46 :: query.key, 39 :: (query.value ++ [39])) :=
  cut_singleton (query.not_mem_path (by decide) (by decide)) _

/-- The operator and the parts that the parser finds. -/
def found (query : EventQuery) : Option (Operator × Bytes × Bytes) :=
  operators.findSome? fun op => (cut op.text query.text).map fun parts => (op, parts)

theorem exists_found_of_not_plain (notPlain : ¬query.Plain) :
    ∃ op front back, op ∈ earlierOperators ∧
      query.found = some (op, (query.kind ++ 46 :: query.key) ++ 61 :: 39 :: front, back) := by
  let find (op : Operator) := (cut op.text query.text).map fun parts => (op, parts)
  have isFound : ((earlierOperators.findSome? find).isSome) = true := by
    simp only [Plain, not_forall] at notPlain
    obtain ⟨op, earlier, inValue⟩ := notPlain
    have isSome : (find op).isSome = true := by
      rw [Option.isSome_map, query.cut_earlier earlier, Option.isSome_map]
      exact Option.isSome_iff_ne_none.mpr inValue
    exact List.findSome?_isSome_iff.mpr ⟨op, earlier, isSome⟩
  obtain ⟨found, isFirst⟩ := Option.isSome_iff_exists.mp isFound
  obtain ⟨op, earlier, isOp⟩ := exists_of_findSome?_eq_some isFirst
  obtain ⟨parts, isParts, rfl⟩ := Option.map_eq_some_iff.mp isOp
  rw [query.cut_earlier earlier] at isParts
  obtain ⟨inValue, -, rfl⟩ := Option.map_eq_some_iff.mp isParts
  refine ⟨op, inValue.1, inValue.2 ++ [39], earlier, ?_⟩
  have split : operators = earlierOperators ++ [.equal, .greater, .less] := rfl
  rw [EventQuery.found, split, List.findSome?_append]
  exact congrArg (Option.or · _) isFirst

/-- Such a query is refused: what stands before the operator is not a height, and events are
asked for with the equality sign only. -/
theorem executeQuery_of_not_plain (idx : TxIndexer) (notPlain : ¬query.Plain) :
    idx.executeQuery query.text = .error .invalidQuery := by
  obtain ⟨op, front, back, earlier, isFound⟩ := exists_found_of_not_plain notPlain
  have notEqual : op ≠ .equal := by
    rintro rfl
    exact absurd earlier (by decide)
  have member : 61 ∈ trimSpace ((query.kind ++ 46 :: query.key) ++ 61 :: 39 :: front) :=
    mem_trimUnits (fun unit isUnit => (not_mem_whiteSpace unit isUnit).2.2.2) (by simp)
  have notHeight : trimSpace ((query.kind ++ 46 :: query.key) ++ 61 :: 39 :: front) ≠ txHeight := by
    intro same
    rw [same] at member
    exact absurd member (by decide)
  rw [found] at isFound
  rw [executeQuery, query.trimSpace_text, isFound]
  simp only [notHeight, ↓reduceIte, searchByEvent, notEqual]
  split
  next => rfl
  next => rfl

theorem executeQuery_of_plain (idx : TxIndexer) (plain : query.Plain) :
    idx.executeQuery query.text = .ok (idx.under query.start) := by
  have notFound (op : Operator) (earlier : op ∈ earlierOperators) :
      cut op.text query.text = none := by
    rw [query.cut_earlier earlier, plain op earlier, Option.map_none]
  have isFound : query.found =
      some (.equal, query.kind ++ 46 :: query.key, 39 :: (query.value ++ [39])) := by
    simp only [found, operators, List.findSome?_cons, notFound .greaterEqual (by decide),
      notFound .lessEqual (by decide), notFound .notEqual (by decide), query.cut_equal,
      Option.map_none, Option.map_some]
  have unquoted : trim (39 :: (query.value ++ [39])) quotes = query.value :=
    trim_enclosed (by decide) (by decide) query.unquoted
  have parts : cut [46] (query.kind ++ 46 :: query.key) = some (query.kind, query.key) :=
    cut_singleton (not_mem_name query.isKind (by decide)) query.key
  rw [found] at isFound
  rw [executeQuery, query.trimSpace_text, isFound]
  simp only [query.trimSpace_path, trimSpace_quoted, unquoted, query.notHeight, ↓reduceIte, parts,
    searchByEvent, start]

end EventQuery

open EventQuery

/-- Results with distinct hashes, none of them empty. -/
structure Content where
  results : List TxIndexResult
  nodup : (results.map TxIndexResult.hash).Nodup
  nonempty : ∀ result ∈ results, result.hash ≠ []

namespace Content

variable {json : Json} {content : Content} {query : EventQuery} {hash key : Bytes}

/-- The calls of `Index` for the results. -/
def ops (results : List TxIndexResult) : List TxIndexer.Op :=
  results.map fun result => .index (some result)

def indexer (json : Json) (content : Content) : TxIndexer :=
  Run.after (TxIndexer.step json) (newTxIndexer true) (ops content.results)

/-- The last of the results with a key has this hash. -/
def Wrote (results : List TxIndexResult) (key hash : Bytes) : Prop :=
  ∃ result later, (result :: later) <:+ results ∧ result.hash = hash ∧
    key ∈ result.secondaryKeys true hash ∧
      ∀ other ∈ later, key ∉ other.secondaryKeys true other.hash

theorem wrote_cons (result : TxIndexResult) (results : List TxIndexResult) :
    Wrote (result :: results) key hash ↔ Wrote results key hash ∨
      result.hash = hash ∧ key ∈ result.secondaryKeys true hash ∧
        ∀ other ∈ results, key ∉ other.secondaryKeys true other.hash := by
  constructor
  · intro wrote
    obtain ⟨last, later, isSuffix, isHash, member, notLater⟩ := wrote
    rcases suffix_cons_iff.mp isSuffix with same | shorter
    · cases same
      exact Or.inr ⟨isHash, member, notLater⟩
    · exact Or.inl ⟨last, later, shorter, isHash, member, notLater⟩
  · intro either
    rcases either with ⟨last, later, isSuffix, wrote⟩ | isLast
    · exact ⟨last, later, isSuffix.trans (suffix_cons result results), wrote⟩
    · exact ⟨result, results, suffix_rfl, isLast⟩

theorem getElem?_after (secondary : Secondary key) {idx : TxIndexer} (isOpen : idx.closed = false)
    (all : idx.indexAllEvents = true) (results : List TxIndexResult)
    (nonempty : ∀ result ∈ results, result.hash ≠ []) :
    (Run.after (step json) idx (ops results)).db[key]? = some hash ↔ Wrote results key hash ∨
        (∀ other ∈ results, key ∉ other.secondaryKeys true other.hash) ∧
          idx.db[key]? = some hash := by
  induction results generalizing idx with
  | nil => simp [ops, Wrote]
  | cons result results ih =>
    have isPut : idx.step json (.index (some result)) = idx.put json result :=
      index_eq_put isOpen (nonempty result mem_cons_self)
    have isLater : (Run.after (step json) idx (ops (result :: results))) =
        Run.after (step json) (idx.put json result) (ops results) := by
      rw [← isPut]
      rfl
    rw [isLater, @ih (idx.put json result) isOpen all fun other member =>
      nonempty other (mem_cons_of_mem _ member), wrote_cons,
      put_secondary idx result secondary, keysOf, all, or_assoc]
    apply or_congr_right
    rw [forall_mem_cons]
    by_cases member : key ∈ result.secondaryKeys true result.hash
    · rw [if_pos member, Option.some_inj]
      constructor
      · rintro ⟨notLater, rfl⟩
        exact Or.inl ⟨rfl, member, notLater⟩
      · rintro (⟨isHash, -, notLater⟩ | ⟨notMember, -⟩)
        · exact ⟨notLater, isHash⟩
        · exact absurd member notMember.1
    · rw [if_neg member]
      constructor
      · intro before
        exact Or.inr ⟨⟨member, before.1⟩, before.2⟩
      · rintro (⟨rfl, isMember, -⟩ | before)
        · exact absurd isMember member
        · exact ⟨before.1.2, before.2⟩

/-- The entry of a secondary key is the hash of the last result with the key. -/
theorem getElem?_indexer (json : Json) (content : Content) (secondary : Secondary key) :
    (content.indexer json).db[key]? = some hash ↔ Wrote content.results key hash := by
  refine (getElem?_after secondary rfl rfl content.results content.nonempty).trans ?_
  simp [newTxIndexer]

variable {result : TxIndexResult}

theorem exists_wrote {results : List TxIndexResult}
    (member : result ∈ results) (isKey : key ∈ result.secondaryKeys true result.hash) :
    ∃ hash, Wrote results key hash := by
  induction results generalizing result with
  | nil => cases member
  | cons first results ih =>
    simp only [wrote_cons]
    by_cases isLater : ∃ other ∈ results, key ∈ other.secondaryKeys true other.hash
    · obtain ⟨other, inLater, isOther⟩ := isLater
      obtain ⟨hash, wrote⟩ := ih inLater isOther
      exact ⟨hash, Or.inl wrote⟩
    · have notLater : ∀ other ∈ results, key ∉ other.secondaryKeys true other.hash :=
        fun other inLater isOther => isLater ⟨other, inLater, isOther⟩
      rcases mem_cons.mp member with rfl | inLater
      · exact ⟨result.hash, Or.inr ⟨rfl, isKey, notLater⟩⟩
      · exact absurd isKey (notLater result inLater)

theorem Wrote.exists_of_suffix {results later : List TxIndexResult}
    (wrote : Wrote results key hash) (isSuffix : (result :: later) <:+ results)
    (isKey : key ∈ result.secondaryKeys true result.hash) :
    ∃ last ∈ result :: later, last.hash = hash := by
  obtain ⟨last, rest, isLast, isHash, -, notLater⟩ := wrote
  rcases suffix_or_suffix_of_suffix isLast isSuffix with shorter | longer
  · exact ⟨last, shorter.subset mem_cons_self, isHash⟩
  · rcases suffix_cons_iff.mp longer with same | inRest
    · cases same
      exact ⟨result, mem_cons_self, isHash⟩
    · exact absurd isKey (notLater result (inRest.subset mem_cons_self))

/-! ## Exactness -/

/-- One of the results with the queried attribute has this hash. -/
def Found (content : Content) (query : EventQuery) (hash : Bytes) : Prop :=
  ∃ result ∈ content.results, result.hash = hash ∧ query.Matches result

def Separated (content : Content) (query : EventQuery) : Prop :=
  ∀ result later, (result :: later) <:+ content.results → ∀ attr ∈ result.indexed true,
    query.start <+: txEventKey attr.1 attr.2.1 attr.2.2 result.hash →
    ∃ other ∈ result :: later, query.Matches other ∧
      txEventKey attr.1 attr.2.1 attr.2.2 result.hash = query.start ++ other.hash

theorem secondary_of_start (isPrefix : query.start <+: key) : Secondary key := by
  obtain ⟨rest, rfl⟩ := isPrefix
  exact secondary_eventPrefix_append _ _ _ _

theorem exists_attr (isPrefix : query.start <+: key)
    (member : key ∈ result.secondaryKeys true hash) :
    ∃ attr ∈ result.indexed true, txEventKey attr.1 attr.2.1 attr.2.2 hash = key := by
  rcases mem_cons.mp member with isHeight | isEvent
  · rw [isHeight] at isPrefix
    simp [start, eventPrefix, txHeightKey, prefixTxByHeight, prefixTxByEvent] at isPrefix
  · exact mem_map.mp isEvent

theorem mem_of_attr {attr : Bytes × Bytes × Bytes} (isAttr : attr ∈ result.indexed true) :
    txEventKey attr.1 attr.2.1 attr.2.2 result.hash ∈ result.secondaryKeys true result.hash :=
  mem_cons_of_mem _ (mem_map.mpr ⟨attr, isAttr, rfl⟩)

theorem mem_of_matches (isMatch : query.Matches result) :
    query.start ++ result.hash ∈ result.secondaryKeys true result.hash := by
  change txEventKey query.kind query.key query.value result.hash ∈ _
  exact mem_of_attr isMatch

theorem matches_of_found (member : result ∈ content.results)
    (found : content.Found query result.hash) : query.Matches result := by
  obtain ⟨other, isOther, sameHash, isMatch⟩ := found
  rwa [← inj_on_of_nodup_map content.nodup isOther member sameHash]

theorem exists_wrote_of_found (found : content.Found query hash) :
    ∃ other, Wrote content.results (query.start ++ hash) other := by
  obtain ⟨result, member, rfl, isMatch⟩ := found
  exact exists_wrote member (mem_of_matches isMatch)

/-- Under this condition a key under the query is that of the hash it leads to. -/
theorem Separated.entry (separated : content.Separated query) (isPrefix : query.start <+: key)
    (wrote : Wrote content.results key hash) :
    content.Found query hash ∧ key = query.start ++ hash := by
  obtain ⟨result, later, isSuffix, rfl, member, notLater⟩ := wrote
  obtain ⟨attr, isAttr, rfl⟩ := exists_attr isPrefix member
  obtain ⟨other, isOther, isMatch, sameKey⟩ := separated result later isSuffix attr isAttr isPrefix
  rcases mem_cons.mp isOther with rfl | inLater
  · exact ⟨⟨other, isSuffix.subset mem_cons_self, rfl, isMatch⟩, sameKey⟩
  · have isKey := mem_of_matches isMatch
    rw [← sameKey] at isKey
    exact absurd isKey (notLater other inLater)

/-- A function that moves every element of a list to a later place, and no two to the same,
moves none. -/
theorem eq_of_later {α β : Type} (name : α → β) (move : β → β) {elements : List α}
    (nodup : (elements.map name).Nodup)
    (later : ∀ element rest, (element :: rest) <:+ elements →
      ∃ other ∈ element :: rest, name other = move (name element))
    (injective : ∀ left ∈ elements, ∀ right ∈ elements,
      move (name left) = move (name right) → name left = name right) :
    ∀ element ∈ elements, move (name element) = name element := by
  induction elements with
  | nil => simp
  | cons first elements ih =>
    rw [map_cons, nodup_cons] at nodup
    have stays := ih nodup.2
      (fun element rest isSuffix => later element rest (isSuffix.trans (suffix_cons _ _)))
      fun left isLeft right isRight => injective left (mem_cons_of_mem _ isLeft) right
        (mem_cons_of_mem _ isRight)
    rw [forall_mem_cons]
    refine ⟨?_, stays⟩
    obtain ⟨other, isOther, moved⟩ := later first elements suffix_rfl
    rcases mem_cons.mp isOther with rfl | inRest
    · exact moved.symm
    · have same := injective first mem_cons_self other isOther (by rw [← moved, stays other inRest])
      exact absurd (same ▸ mem_map_of_mem inRest) nodup.1

open Classical in
/-- The hash to which the key of a result with the attribute leads. -/
noncomputable def lastWriter (json : Json) (content : Content) (query : EventQuery) (hash : Bytes) :
    Bytes :=
  if content.Found query hash then
    ((content.indexer json).db[query.start ++ hash]?).getD []
  else hash

theorem lastWriter_of_not_found (json : Json) (notFound : ¬content.Found query hash) :
    lastWriter json content query hash = hash :=
  if_neg notFound

theorem wrote_lastWriter (json : Json) (found : content.Found query hash) :
    Wrote content.results (query.start ++ hash) (lastWriter json content query hash) := by
  have secondary := secondary_of_start (prefix_append query.start hash)
  obtain ⟨other, wrote⟩ := exists_wrote_of_found found
  have entry := (content.getElem?_indexer json secondary).mpr wrote
  rw [lastWriter, if_pos found, entry, Option.getD_some]
  exact wrote

theorem lastWriter_later (json : Json) (content : Content) (query : EventQuery)
    (result : TxIndexResult) (later : List TxIndexResult)
    (isSuffix : (result :: later) <:+ content.results) :
    ∃ other ∈ result :: later, other.hash = lastWriter json content query result.hash := by
  by_cases found : content.Found query result.hash
  · have isMatch := matches_of_found (isSuffix.subset mem_cons_self) found
    exact (wrote_lastWriter json found).exists_of_suffix isSuffix (mem_of_matches isMatch)
  · exact ⟨result, mem_cons_self, (lastWriter_of_not_found json found).symm⟩

/-- Searching under the parts of the query finds each result with the attribute once. -/
structure Answers (json : Json) (content : Content) (query : EventQuery) : Prop where
  nodup : ((content.indexer json).under query.start).Nodup
  mem_iff : ∀ hash, hash ∈ (content.indexer json).under query.start ↔ content.Found query hash

theorem Separated.answers (separated : content.Separated query) (json : Json) :
    Answers json content query := by
  have entry (key hash : Bytes) (isPrefix : query.start <+: key)
      (isEntry : (content.indexer json).db[key]? = some hash) :
      content.Found query hash ∧ key = query.start ++ hash :=
    separated.entry isPrefix
      ((content.getElem?_indexer json (secondary_of_start isPrefix)).mp isEntry)
  constructor
  · rw [nodup_under_iff]
    intro left right hash isLeft isRight leftEntry rightEntry
    rw [(entry left hash isLeft leftEntry).2, (entry right hash isRight rightEntry).2]
  · intro hash
    rw [mem_under]
    constructor
    · rintro ⟨key, isPrefix, isEntry⟩
      exact (entry key hash isPrefix isEntry).1
    · intro found
      have isPrefix : query.start <+: query.start ++ hash := prefix_append _ _
      obtain ⟨other, wrote⟩ := exists_wrote_of_found found
      have same := append_cancel_left (separated.entry isPrefix wrote).2
      subst same
      exact ⟨query.start ++ hash, isPrefix,
        (content.getElem?_indexer json (secondary_of_start isPrefix)).mpr wrote⟩

namespace Answers

variable (answers : Answers json content query)
include answers

theorem key_unique {left right : Bytes} (isLeft : query.start <+: left)
    (isRight : query.start <+: right) (leftWrote : Wrote content.results left hash)
    (rightWrote : Wrote content.results right hash) : left = right :=
  nodup_under_iff.mp answers.nodup left right hash isLeft isRight
    ((content.getElem?_indexer json (secondary_of_start isLeft)).mpr leftWrote)
    ((content.getElem?_indexer json (secondary_of_start isRight)).mpr rightWrote)

theorem found_of_wrote (isPrefix : query.start <+: key) (wrote : Wrote content.results key hash) :
    content.Found query hash := by
  apply (answers.mem_iff hash).mp
  rw [mem_under]
  exact ⟨key, isPrefix, (content.getElem?_indexer json (secondary_of_start isPrefix)).mpr wrote⟩

theorem lastWriter_injective {left right : Bytes}
    (same : lastWriter json content query left = lastWriter json content query right) :
    left = right := by
  have isPrefix (hash : Bytes) : query.start <+: query.start ++ hash := prefix_append _ _
  have isFound {hash : Bytes} (found : content.Found query hash) :=
    answers.found_of_wrote (isPrefix hash) (wrote_lastWriter json found)
  by_cases leftFound : content.Found query left
  · by_cases rightFound : content.Found query right
    · have leftWrote := wrote_lastWriter json leftFound
      rw [same] at leftWrote
      exact append_cancel_left (answers.key_unique (isPrefix left) (isPrefix right) leftWrote
        (wrote_lastWriter json rightFound))
    · rw [lastWriter_of_not_found json rightFound] at same
      exact absurd (same ▸ isFound leftFound) rightFound
  · rw [lastWriter_of_not_found json leftFound] at same
    by_cases rightFound : content.Found query right
    · exact absurd (same ▸ isFound rightFound) leftFound
    · rwa [lastWriter_of_not_found json rightFound] at same

/-- Every result with the attribute is the last one with its key, since each key leads to
such a result that is not before, and no two keys to the same. -/
theorem wrote_self (found : content.Found query hash) :
    Wrote content.results (query.start ++ hash) hash := by
  have stays := eq_of_later TxIndexResult.hash (lastWriter json content query) content.nodup
    (lastWriter_later json content query)
    (fun _ _ _ _ same => answers.lastWriter_injective same)
  have wrote := wrote_lastWriter json found
  obtain ⟨result, member, rfl, -⟩ := found
  rwa [stays result member] at wrote

theorem separated : content.Separated query := by
  intro result later isSuffix attr isAttr isPrefix
  have member := isSuffix.subset mem_cons_self
  obtain ⟨hash, wrote⟩ := exists_wrote member (mem_of_attr isAttr)
  have found := answers.found_of_wrote isPrefix wrote
  have sameKey := answers.key_unique isPrefix (prefix_append _ _) wrote (answers.wrote_self found)
  obtain ⟨last, isLast, rfl⟩ := wrote.exists_of_suffix isSuffix (mem_of_attr isAttr)
  exact ⟨last, isLast, matches_of_found (isSuffix.subset isLast) found, sameKey⟩

end Answers

/-! ## Pages -/

def pageStart (page perPage : Int64) : Int :=
  let page := if page < 1 then 1 else page
  let perPage := if perPage < 1 then 30 else perPage
  let perPage := if 100 < perPage then 100 else perPage
  (page.toInt - 1) * perPage.toInt

theorem one_le_clamped (number least : Int64) (pos : 1 ≤ least.toInt) :
    1 ≤ (if number < 1 then least else number).toInt := by
  split
  next => exact pos
  next notLess =>
    rw [Int64.lt_iff_toInt_lt, Int64.toInt_one] at notLess
    omega

theorem le_pageStart {number size : Int64} (isNumber : 1 ≤ number.toInt) (isSize : 1 ≤ size.toInt)
    (negative : ((number - 1) * size).toInt < 0) : 2 ^ 63 ≤ (number.toInt - 1) * size.toInt := by
  have bound := number.toInt_lt
  have before : (number - 1).toInt = number.toInt - 1 :=
    Machine.toInt_sub_of_inRange ⟨by rw [Int64.toInt_one]; omega, by rw [Int64.toInt_one]; omega⟩
  have nonneg : 0 ≤ (number.toInt - 1) * size.toInt := Int.mul_nonneg (by omega) (by omega)
  by_contra small
  have product : ((number - 1) * size).toInt = (number.toInt - 1) * size.toInt := by
    rw [← before] at small nonneg ⊢
    exact Machine.toInt_mul_of_inRange ⟨by omega, not_le.mp small⟩
  omega

/-- A page of an answer has records of hashes in it, and the total counts the hashes. No page
is returned where its beginning overflows. -/
theorem search_of_executeQuery {idx : TxIndexer} {text : Bytes} {hashes : List Bytes}
    (isOpen : idx.closed = false) (nonempty : text ≠ [])
    (answer : idx.executeQuery text = .ok hashes) (page perPage : Int64) :
    (2 ^ 63 ≤ pageStart page perPage ∧ idx.search json text page perPage = none) ∨
      ∃ records, idx.search json text page perPage = some (.ok (records, hashes.length)) ∧
        ∀ result ∈ records, ∃ hash ∈ hashes, idx.getUnlocked json hash = .ok result := by
  rw [search, if_neg nonempty, if_neg (Bool.eq_false_iff.mp isOpen), answer, pageStart]
  simp only
  have isNumber := one_le_clamped page 1 (by decide)
  generalize (if page < 1 then 1 else page) = number at isNumber ⊢
  have isWanted := one_le_clamped perPage 30 (by decide)
  generalize (if perPage < 1 then 30 else perPage) = wanted at isWanted ⊢
  have isSize : 1 ≤ (if 100 < wanted then 100 else wanted).toInt := by
    split
    next => decide
    next => exact isWanted
  generalize (if 100 < wanted then 100 else wanted) = size at isSize ⊢
  split
  next isEmpty =>
    rw [isEmpty]
    exact Or.inr ⟨[], rfl, by simp⟩
  next =>
    split
    next => exact Or.inr ⟨[], rfl, by simp⟩
    split
    next negative => exact Or.inl ⟨le_pageStart isNumber isSize negative, rfl⟩
    refine Or.inr ⟨_, rfl, ?_⟩
    intro result member
    obtain ⟨hash, selected, isRecord⟩ := mem_filterMap.mp member
    refine ⟨hash, mem_of_mem_take (mem_of_mem_drop selected), ?_⟩
    cases read : idx.getUnlocked json hash with
    | error err =>
      rw [read] at isRecord
      cases isRecord
    | ok record =>
      rw [read] at isRecord
      cases isRecord
      rfl

theorem mem_of_getUnlocked {result : TxIndexResult}
    (read : (content.indexer json).getUnlocked json hash = .ok result) :
    result ∈ content.results ∧ result.hash = hash := by
  cases isStored : (content.indexer json).stored json hash with
  | none =>
    obtain ⟨err, isError⟩ := getUnlocked_of_not_stored isStored
    rw [isError] at read
    cases read
  | some record =>
    rw [getUnlocked_of_stored isStored] at read
    cases read
    rcases stored_after rfl isStored with before | ⟨indexed, isHash, -⟩
    · simp [stored, newTxIndexer] at before
    · obtain ⟨other, member, same⟩ := mem_map.mp indexed
      cases same
      exact ⟨member, isHash⟩

/-- `Search` finds exactly the results with the attribute, and counts each once. -/
structure Exact (json : Json) (content : Content) (query : EventQuery) (hashes : List Bytes) :
    Prop where
  answer : (content.indexer json).executeQuery query.text = .ok hashes
  nodup : hashes.Nodup
  mem_iff : ∀ hash, hash ∈ hashes ↔ content.Found query hash
  pages : ∀ page perPage,
    (2 ^ 63 ≤ pageStart page perPage ∧
      (content.indexer json).search json query.text page perPage = none) ∨
    ∃ records,
      (content.indexer json).search json query.text page perPage =
        some (.ok (records, hashes.length)) ∧
      ∀ result ∈ records, result ∈ content.results ∧ query.Matches result

theorem Answers.exact (answers : Answers json content query) (plain : query.Plain) :
    Exact json content query ((content.indexer json).under query.start) where
  answer := executeQuery_of_plain _ plain
  nodup := answers.nodup
  mem_iff := answers.mem_iff
  pages page perPage := by
    have isOpen : (content.indexer json).closed = false := closed_after rfl _
    have nonempty : query.text ≠ [] := by simp [text]
    rcases search_of_executeQuery isOpen nonempty
        (executeQuery_of_plain _ plain) page perPage with
        overflows | ⟨records, isPage, read⟩
    · exact Or.inl overflows
    · refine Or.inr ⟨records, isPage, fun result member => ?_⟩
      obtain ⟨hash, isHash, isRecord⟩ := read result member
      obtain ⟨inResults, rfl⟩ := mem_of_getUnlocked isRecord
      exact ⟨inResults, matches_of_found inResults ((answers.mem_iff _).mp isHash)⟩

end Content

/-- The answer to an event query is exact if and only if the value has none of the operators `>=`,
`<=` and `!=` and every event key under the query is one of the queried attribute, of this result or
a later one. -/
theorem exact_iff_separated (json : Json) (content : Content) (query : EventQuery) :
    (∃ hashes, Content.Exact json content query hashes) ↔
      query.Plain ∧ content.Separated query := by
  constructor
  · rintro ⟨hashes, exact⟩
    have plain : query.Plain := by
      by_contra notPlain
      have refused := exact.answer
      rw [EventQuery.executeQuery_of_not_plain _ notPlain] at refused
      cases refused
    have answer := exact.answer
    rw [EventQuery.executeQuery_of_plain _ plain] at answer
    cases answer
    have answers : Content.Answers json content query := ⟨exact.nodup, exact.mem_iff⟩
    exact ⟨plain, answers.separated⟩
  · rintro ⟨plain, separated⟩
    exact ⟨_, (separated.answers json).exact plain⟩

/-- A transaction with an event `a` whose attribute `b` has the value `c/d`, and one where it
has the value `>=`. -/
def slashed : Content where
  results := [⟨[9], 1, 0, some [⟨[97], [⟨[98], [99, 47, 100], true⟩]⟩]⟩,
    ⟨[8], 1, 1, some [⟨[97], [⟨[98], [62, 61], true⟩]⟩]⟩]
  nodup := by decide
  nonempty := by decide

def slashedQuery : EventQuery where
  kind := [97]
  key := [98]
  value := [99, 47, 100]
  isKind := ⟨by decide +kernel, by decide +kernel⟩
  isKey := ⟨by decide +kernel, by decide +kernel⟩
  notHeight := by decide
  unquoted := by decide +kernel

/-- The query for the whole value is answered exactly. -/
theorem exact_slashedQuery :
    ∃ hashes, Content.Exact PlainJson.json slashed slashedQuery hashes := by
  apply (exact_iff_separated PlainJson.json slashed slashedQuery).mpr
  have plain : ∀ op ∈ earlierOperators, cut op.text slashedQuery.value = none := by decide +kernel
  refine ⟨plain, fun result later isSuffix attr isAttr isPrefix => ?_⟩
  rcases suffix_cons_iff.mp isSuffix with same | isLater
  · cases same
    rw [mem_singleton.mp isAttr]
    exact ⟨_, mem_cons_self, mem_singleton.mpr rfl, rfl⟩
  · have same : result :: later = slashed.results.tail := by
      rcases suffix_cons_iff.mp isLater with same | isNil
      · exact same
      · cases suffix_nil.mp isNil
    cases same
    rw [mem_singleton.mp isAttr] at isPrefix
    exact absurd isPrefix (by decide)

/-- The query `a.b='c'` finds the value `c/d`, and `a.b='>='` is refused. -/
theorem slashed_value_found :
    (slashed.indexer PlainJson.json).executeQuery [97, 46, 98, 61, 39, 99, 39] = .ok [[9]] ∧
      (∀ result ∈ slashed.results, ([97], [98], [99]) ∉ result.indexed true) ∧
      (slashed.indexer PlainJson.json).executeQuery [97, 46, 98, 61, 39, 62, 61, 39] =
        .error .invalidQuery := by
  decide +kernel

end Blockberry.Indexer
