import Blockberry.Lib.Serial
import Blockberry.Lib.Strings
import Blockberry.Types.Database

/-!
# The transaction indexer

`TxIndexer` keeps every result under its hash, and the hash under the height and every indexed
attribute of an event. The parts of an event key are separated by slashes, which the parts may
contain as well.
-/

namespace Blockberry.Indexer

open BigEndian KeyValue Strings

structure EventAttribute where
  key : Bytes
  value : Bytes
  index : Bool
  deriving DecidableEq, Repr

structure Event where
  kind : Bytes
  attributes : List EventAttribute
  deriving DecidableEq, Repr

/-- Of the outcome of a transaction only the events matter. -/
structure TxIndexResult where
  hash : Bytes
  height : UInt64
  index : UInt32
  result : Option (List Event)
  deriving DecidableEq, Repr

/-- The marshalling of results, which round-trips. -/
structure Json where
  marshal : TxIndexResult → Bytes
  unmarshal : Bytes → Option TxIndexResult
  unmarshal_marshal : ∀ result, unmarshal (marshal result) = some result

inductive IndexError where
  | indexCorrupted
  | txNotFound
  | invalidQuery
  | unmarshaling
  deriving DecidableEq, Repr

def prefixTxByHash : Bytes := [116, 104, 47]

def prefixTxByHeight : Bytes := [104, 116, 47]

def prefixTxByEvent : Bytes := [101, 118, 47]

def slash : Bytes := [47]

def txHashKey (hash : Bytes) : Bytes := prefixTxByHash ++ hash

def encodeHeight (height : UInt64) : Bytes := encode 8 height.toNat

def txHeightKey (height : UInt64) (hash : Bytes) : Bytes :=
  prefixTxByHeight ++ encodeHeight height ++ hash

/-- The beginning of an event key, which is also what a query looks for. -/
def eventPrefix (eventKind attrKey attrValue : Bytes) : Bytes :=
  prefixTxByEvent ++ eventKind ++ slash ++ attrKey ++ slash ++ attrValue ++ slash

def txEventKey (eventKind attrKey attrValue hash : Bytes) : Bytes :=
  eventPrefix eventKind attrKey attrValue ++ hash

/-- The kinds, keys and values that are indexed for a result. -/
def TxIndexResult.indexed (result : TxIndexResult) (indexAllEvents : Bool) :
    List (Bytes × Bytes × Bytes) :=
  (result.result.getD []).flatMap fun event =>
    (event.attributes.filter fun attr => indexAllEvents || attr.index).map fun attr =>
      (event.kind, attr.key, attr.value)

/-- The keys of a result besides its primary one. -/
def TxIndexResult.secondaryKeys (result : TxIndexResult) (indexAllEvents : Bool) (hash : Bytes) :
    List Bytes :=
  txHeightKey result.height hash ::
    (result.indexed indexAllEvents).map fun attr => txEventKey attr.1 attr.2.1 attr.2.2 hash

structure TxIndexer where
  db : Database
  indexAllEvents : Bool
  closed : Bool

def newTxIndexer (indexAllEvents : Bool) : TxIndexer := ⟨∅, indexAllEvents, false⟩

namespace TxIndexer

variable (json : Json)

def indexBatch (idx : TxIndexer) (result : TxIndexResult) : Batch :=
  .put (txHashKey result.hash) (json.marshal result) ::
    (result.secondaryKeys idx.indexAllEvents result.hash).map (.put · result.hash)

def index (idx : TxIndexer) (result : Option TxIndexResult) : TxIndexer × Option IndexError :=
  match result with
  | none => (idx, none)
  | some result =>
    if result.hash = [] then (idx, none)
    else if idx.closed then (idx, some .indexCorrupted)
    else ({ idx with db := write idx.db (idx.indexBatch json result) }, none)

def getUnlocked (idx : TxIndexer) (hash : Bytes) : Except IndexError TxIndexResult :=
  match idx.db[txHashKey hash]? with
  | none => .error .txNotFound
  | some data =>
    match json.unmarshal data with
    | none => .error .unmarshaling
    | some result => .ok result

def delete (idx : TxIndexer) (hash : Bytes) : TxIndexer × Option IndexError :=
  if hash = [] then (idx, none)
  else if idx.closed then (idx, some .indexCorrupted)
  else
    match idx.getUnlocked json hash with
    | .error .txNotFound => (idx, none)
    | .error err => (idx, some err)
    | .ok result =>
      let keys := txHashKey hash :: result.secondaryKeys idx.indexAllEvents hash
      ({ idx with db := write idx.db (keys.map .delete) }, none)

end TxIndexer

structure TxBatch where
  batch : Batch
  deletes : List Bytes

def newTxBatch : TxBatch := ⟨[], []⟩

namespace TxBatch

variable (json : Json)

def add (b : TxBatch) (idx : TxIndexer) (result : Option TxIndexResult) : TxBatch :=
  match result with
  | none => b
  | some result =>
    if result.hash = [] then b
    else { b with batch := b.batch ++ idx.indexBatch json result }

def delete (b : TxBatch) (hash : Bytes) : TxBatch :=
  if hash = [] then b
  else
    { b with batch := b.batch ++ [.delete (txHashKey hash)]
             deletes := b.deletes ++ [hash] }

/-- The secondary keys of the record that is stored for a hash. -/
def storedKeys (idx : TxIndexer) (hash : Bytes) : List Bytes :=
  match idx.getUnlocked json hash with
  | .error _ => []
  | .ok result => result.secondaryKeys idx.indexAllEvents hash

def commit (b : TxBatch) (idx : TxIndexer) : TxIndexer × Option IndexError :=
  if idx.closed then (idx, some .indexCorrupted)
  else
    let cleanup : Batch := (b.deletes.flatMap (storedKeys json idx)).map .delete
    ({ idx with db := write idx.db (b.batch ++ cleanup) }, none)

end TxBatch

inductive Operator where
  | greaterEqual
  | lessEqual
  | notEqual
  | equal
  | greater
  | less
  deriving DecidableEq, Repr

def Operator.text : Operator → Bytes
  | .greaterEqual => [62, 61]
  | .lessEqual => [60, 61]
  | .notEqual => [33, 61]
  | .equal => [61]
  | .greater => [62]
  | .less => [60]

/-- The operators in the order in which they are looked for. -/
def operators : List Operator :=
  [.greaterEqual, .lessEqual, .notEqual, .equal, .greater, .less]

/-- The UTF-8 encodings of white space. -/
def whiteSpace : List Bytes :=
  [[9], [10], [11], [12], [13], [32], [194, 133], [194, 160], [225, 154, 128],
    [226, 128, 128], [226, 128, 129], [226, 128, 130], [226, 128, 131], [226, 128, 132],
    [226, 128, 133], [226, 128, 134], [226, 128, 135], [226, 128, 136], [226, 128, 137],
    [226, 128, 138], [226, 128, 168], [226, 128, 169], [226, 128, 175], [226, 129, 159],
    [227, 128, 128]]

def trimSpace (s : Bytes) : Bytes := trimUnits whiteSpace s

def quotes : Bytes := [39, 34]

/-- `tx.height`. -/
def txHeight : Bytes := [116, 120, 46, 104, 101, 105, 103, 104, 116]

/-- `strconv.ParseUint` in base 10 for 64 bits. -/
def parseUint (s : Bytes) : Option UInt64 :=
  if s ≠ [] ∧ ∀ c ∈ s, 48 ≤ c ∧ c ≤ 57 then
    let value := s.foldl (fun value c => value * 10 + (c.toNat - 48)) 0
    if value < 2 ^ 64 then some (UInt64.ofNat value) else none
  else none

def maxHeight : UInt64 := 18446744073709551615

namespace TxIndexer

variable (json : Json)

/-- The values of an iterator over keys. -/
def values (entries : List (Bytes × Bytes)) : List Bytes := entries.map Prod.snd

variable (idx : TxIndexer)

/-- The values under the keys that begin in some way. -/
def under (start : Bytes) : List Bytes :=
  values (select idx.db fun key => start.isPrefixOf key)

/-- The values of the height index from a first to below a last key. -/
def between (start limit : Bytes) : List Bytes :=
  values (range idx.db (prefixTxByHeight ++ start) (prefixTxByHeight ++ limit))

def searchByHeight (op : Operator) (value : Bytes) : Except IndexError (List Bytes) :=
  match parseUint value with
  | none => .error .invalidQuery
  | some height =>
    match op with
    | .equal => .ok (idx.under (prefixTxByHeight ++ encodeHeight height))
    | .greater => .ok (idx.between (encodeHeight (height + 1)) (encodeHeight maxHeight))
    | .greaterEqual => .ok (idx.between (encodeHeight height) (encodeHeight maxHeight))
    | .less => .ok (idx.between [] (encodeHeight height))
    | .lessEqual => .ok (idx.between [] (encodeHeight (height + 1)))
    | .notEqual => .error .invalidQuery

def searchByEvent (eventType attrKey : Bytes) (op : Operator) (value : Bytes) :
    Except IndexError (List Bytes) :=
  if op = .equal then .ok (idx.under (eventPrefix eventType attrKey value))
  else .error .invalidQuery

def executeQuery (query : Bytes) : Except IndexError (List Bytes) :=
  match operators.findSome? fun op =>
      (cut op.text (trimSpace query)).map fun parts => (op, parts) with
  | none => .error .invalidQuery
  | some (op, parts) =>
    let key := trimSpace parts.1
    let value := trim (trimSpace parts.2) quotes
    if key = txHeight then idx.searchByHeight op value
    else
      match cut [46] key with
      | some (eventType, attrKey) => idx.searchByEvent eventType attrKey op value
      | none => .error .invalidQuery

/-- The results of a page and the total. `none` is the panic of a negative slice index,
after an overflow. -/
def search (query : Bytes) (page perPage : Int64) :
    Option (Except IndexError (List TxIndexResult × Nat)) :=
  if query = [] then some (.error .invalidQuery)
  else if idx.closed then some (.error .indexCorrupted)
  else
    match idx.executeQuery query with
    | .error err => some (.error err)
    | .ok hashes =>
      let total := hashes.length
      if total = 0 then some (.ok ([], 0))
      else
        let page := if page < 1 then 1 else page
        let perPage := if perPage < 1 then 30 else perPage
        let perPage := if 100 < perPage then 100 else perPage
        let start := (page - 1) * perPage
        if (total : Int) ≤ start.toInt then some (.ok ([], total))
        else if start.toInt < 0 then none
        else
          let stop := min (start.toInt + perPage.toInt) total
          let selected := (hashes.take stop.toNat).drop start.toInt.toNat
          some (.ok (selected.filterMap fun hash => (idx.getUnlocked json hash).toOption, total))

end TxIndexer

namespace PlainJson

open Serial

def bytes : Encoding Bytes := list byte

def attr : Encoding EventAttribute :=
  retract (pair bytes (pair bytes byte))
    (fun attr => (attr.key, attr.value, if attr.index then 1 else 0))
    (fun parts => ⟨parts.1, parts.2.1, parts.2.2 = 1⟩) fun attr => by
      obtain ⟨key, value, index⟩ := attr
      cases index with
      | false | true => rfl

def event : Encoding Event :=
  retract (pair bytes (list attr)) (fun event => (event.kind, event.attributes))
    (fun parts => ⟨parts.1, parts.2⟩) fun _ => rfl

def height : Encoding UInt64 :=
  bounded 8 UInt64.toNat UInt64.ofNat UInt64.toNat_lt fun _ => UInt64.ofNat_toNat

def position : Encoding UInt32 :=
  bounded 4 UInt32.toNat UInt32.ofNat UInt32.toNat_lt fun _ => UInt32.ofNat_toNat

def result : Encoding TxIndexResult :=
  retract (pair bytes (pair height (pair position (option (list event)))))
    (fun result => (result.hash, result.height, result.index, result.result))
    (fun parts => ⟨parts.1, parts.2.1, parts.2.2.1, parts.2.2.2⟩) fun _ => rfl

/-- A marshalling that round-trips. -/
def json : Json where
  marshal := result.write
  unmarshal data := (result.read data).map Prod.fst
  unmarshal_marshal value := by
    have read := result.read_write value []
    rw [List.append_nil] at read
    rw [read, Option.map_some]

end PlainJson

end Blockberry.Indexer
