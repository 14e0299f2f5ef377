import Blockberry.BlockStore.BadgerDB
import Blockberry.BlockStore.LevelDB
import Blockberry.BlockStore.MemoryCertificates
import Blockberry.Lib.Fallible

/-!
# Certificates on disk

The disk stores keep a certificate under its digest and index it under its round and
author, and under its height and author. A key of an index has room for one digest, so
that an index knows only the latest certificate of an author in a round or at a height.
-/

namespace Blockberry

open CertificateData hiding round
open BigEndian CertificateHistory KeyValue SortSlice

/-- The prefix `C:`, from digests to certificates. -/
def prefixCert : Bytes := [67, 58]

/-- The prefix `CR:`, from rounds and authors to digests. -/
def prefixCertRound : Bytes := [67, 82, 58]

/-- The prefix `CH:`, from heights and authors to digests. -/
def prefixCertHeight : Bytes := [67, 72, 58]

def makeCertKey (digest : Bytes) : Bytes := prefixCert ++ digest

@[simp] theorem makeCertKey_inj {left right : Bytes} :
    makeCertKey left = makeCertKey right ↔ left = right := by
  rw [makeCertKey, makeCertKey, List.append_cancel_left_eq]

/-- The marshalling of certificates, which another module provides. -/
structure CertificateCodec (κ : Type) where
  marshal : κ → Bytes
  unmarshal : Bytes → Option κ
  unmarshal_marshal : ∀ cert, unmarshal (marshal cert) = some cert

/-! ## Indexes by number and author -/

/-- The keys of an index, a prefix followed by a number of eight bytes and an author. -/
structure CertIndex (K : Type) where
  first : Bytes
  number : K → Bytes
  length_number : ∀ k, (number k).length = 8
  number_inj : ∀ {left right}, number left = number right → left = right
  outside : ∀ digest, ¬first <+: makeCertKey digest

namespace CertIndex

variable {K : Type} (index : CertIndex K)

def numberPrefix (k : K) : Bytes := index.first ++ index.number k

def key (k : K) (validatorIdx : UInt16) : Bytes :=
  index.numberPrefix k ++ encode 2 validatorIdx.toNat

theorem numberPrefix_isPrefix_key_iff {left right : K} {validatorIdx : UInt16} :
    index.numberPrefix left <+: index.key right validatorIdx ↔ left = right := by
  constructor
  · intro isPrefix
    have sameLength : (index.numberPrefix left).length = (index.numberPrefix right).length := by
      simp [numberPrefix, index.length_number]
    have same := List.prefix_of_prefix_length_le isPrefix (List.prefix_append _ _) sameLength.le
    have same := same.eq_of_length sameLength
    exact index.number_inj (List.append_cancel_left same)
  · intro same
    rw [same]
    exact List.prefix_append _ _

theorem key_inj {left right : K} {leftIdx rightIdx : UInt16} :
    index.key left leftIdx = index.key right rightIdx ↔ left = right ∧ leftIdx = rightIdx := by
  constructor
  · intro same
    have isPrefix : index.numberPrefix left <+: index.key left leftIdx := List.prefix_append _ _
    rw [same, numberPrefix_isPrefix_key_iff] at isPrefix
    subst isPrefix
    have sameIdx := encode_inj leftIdx.toNat_lt rightIdx.toNat_lt (List.append_cancel_left same)
    exact ⟨rfl, UInt16.toNat_inj.mp sameIdx⟩
  · intro same
    rw [same.1, same.2]

theorem first_isPrefix_key (k : K) (validatorIdx : UInt16) :
    index.first <+: index.key k validatorIdx :=
  (List.prefix_append _ _).trans (List.prefix_append _ _)

theorem key_ne_makeCertKey (k : K) (validatorIdx : UInt16) (digest : Bytes) :
    index.key k validatorIdx ≠ makeCertKey digest := by
  intro same
  exact index.outside digest (same ▸ index.first_isPrefix_key k validatorIdx)

end CertIndex

open CertIndex

def roundIndex : CertIndex UInt64 where
  first := prefixCertRound
  number round := encode 8 round.toNat
  length_number _ := length_encode 8 _
  number_inj same := UInt64.toNat_inj.mp (encode_inj (UInt64.toNat_lt _) (UInt64.toNat_lt _) same)
  outside digest := by simp [prefixCertRound, makeCertKey, prefixCert, List.cons_prefix_cons]

def heightIndex : CertIndex Int64 where
  first := prefixCertHeight
  number := encodeWord
  length_number := length_encodeWord
  number_inj := encodeWord_inj.mp
  outside digest := by simp [prefixCertHeight, makeCertKey, prefixCert, List.cons_prefix_cons]

def makeCertRoundKey (round : UInt64) (validatorIdx : UInt16) : Bytes :=
  roundIndex.key round validatorIdx

def makeCertRoundPrefix (round : UInt64) : Bytes := roundIndex.numberPrefix round

def makeCertHeightKey (height : Int64) (validatorIdx : UInt16) : Bytes :=
  heightIndex.key height validatorIdx

def makeCertHeightPrefix (height : Int64) : Bytes := heightIndex.numberPrefix height

theorem not_prefixCertRound_isPrefix (height : Int64) (validatorIdx : UInt16) :
    ¬prefixCertRound <+: makeCertHeightKey height validatorIdx := by
  simp [prefixCertRound, makeCertHeightKey, key, numberPrefix, heightIndex,
    prefixCertHeight, List.cons_prefix_cons]

theorem not_prefixCertHeight_isPrefix (round : UInt64) (validatorIdx : UInt16) :
    ¬prefixCertHeight <+: makeCertRoundKey round validatorIdx := by
  simp [prefixCertHeight, makeCertRoundKey, key, numberPrefix, roundIndex,
    prefixCertRound, List.cons_prefix_cons]

namespace DiskBlockStore

variable {κ : Type} [CertificateData κ] (codec : CertificateCodec κ)

variable (s : DiskBlockStore)

def getCertificateUnlocked (digest : Bytes) : Except CertificateError κ :=
  match s.db[makeCertKey digest]? with
  | none => .error .certificateNotFound
  | some data =>
    match codec.unmarshal data with
    | none => .error .unmarshal
    | some cert => .ok cert

def saveCertificate : Option κ → DiskBlockStore × Option CertificateError
  | none => (s, some .nilCertificate)
  | some cert =>
    if s.db[makeCertKey (digest cert)]?.isSome then (s, some .certificateAlreadyExists)
    else
      ({ s with
         db := write s.db
           [.put (makeCertKey (digest cert)) (codec.marshal cert),
            .put (makeCertRoundKey (CertificateData.round cert) (author cert)) (digest cert)] },
        none)

def setCertificateBlockHeight (digest : Bytes) (height : Int64) :
    DiskBlockStore × Option CertificateError :=
  match getCertificateUnlocked codec s digest with
  | .error err => (s, some err)
  | .ok cert =>
    ({ s with db := write s.db [.put (makeCertHeightKey height (author cert)) digest] }, none)

/-- The loop of the queries over the digests under a prefix. -/
def certificatesUnder (start : Bytes) : Except CertificateError (List κ) :=
  ((select s.db fun key => start.isPrefixOf key).map Prod.snd).mapM
    (getCertificateUnlocked codec s)

variable (sorter : Sorter (authorRank : κ → Nat))

def getCertificatesForRound (s : DiskBlockStore) (round : UInt64) :
    Except CertificateError (List κ) :=
  (certificatesUnder codec s (makeCertRoundPrefix round)).map sorter.sort

def getCertificatesForHeight (s : DiskBlockStore) (height : Int64) :
    Except CertificateError (List κ) :=
  (certificatesUnder codec s (makeCertHeightPrefix height)).map sorter.sort

def certificates : CertificateStore DiskBlockStore κ where
  new := DiskBlockStore.new
  saveCertificate := saveCertificate codec
  setCertificateBlockHeight := setCertificateBlockHeight codec
  getCertificatesForRound := getCertificatesForRound codec sorter
  getCertificatesForHeight := getCertificatesForHeight codec sorter

end DiskBlockStore

def LevelDBBlockStore.certificates {κ : Type} [CertificateData κ] (codec : CertificateCodec κ)
    (sorter : Sorter (authorRank : κ → Nat)) : CertificateStore LevelDBBlockStore κ :=
  DiskBlockStore.certificates codec sorter

/-- The certificates of the Badger store, which makes the same reads and writes. -/
def BadgerDBBlockStore.certificates {κ : Type} [CertificateData κ] (codec : CertificateCodec κ)
    (sorter : Sorter (authorRank : κ → Nat)) : CertificateStore BadgerDBBlockStore κ :=
  DiskBlockStore.certificates codec sorter

section Index

variable {κ K : Type} [CertificateData κ] [DecidableEq K]

variable (entries : List (K × κ))

/-- The latest certificate of an author under a number. -/
def latest (k : K) (validatorIdx : UInt16) : Option κ :=
  (entries.reverse.find? fun entry => entry.1 == k && author entry.2 == validatorIdx).map Prod.snd

/-- No author has two certificates under one number. -/
def OnePerAuthor : Prop :=
  ∀ k left right, (k, left) ∈ entries → (k, right) ∈ entries →
    author left = author right → left = right

theorem latest_concat (k query : K) (cert : κ) (validatorIdx : UInt16) :
    latest (entries ++ [(k, cert)]) query validatorIdx =
      if k = query ∧ author cert = validatorIdx then some cert
      else latest entries query validatorIdx := by
  by_cases same : k = query ∧ author cert = validatorIdx
  · simp [latest, same]
  · have skipped : (k == query && author cert == validatorIdx) = false := by simpa using same
    simp [latest, same, skipped]

theorem mem_of_latest {entries : List (K × κ)} {k : K} {cert : κ} {validatorIdx : UInt16}
    (found : latest entries k validatorIdx = some cert) :
    (k, cert) ∈ entries ∧ author cert = validatorIdx := by
  obtain ⟨entry, isLast, rfl⟩ := Option.map_eq_some_iff.mp found
  have member := List.mem_reverse.mp (List.mem_of_find?_eq_some isLast)
  have slot := List.find?_some isLast
  simp only [Bool.and_eq_true, beq_iff_eq] at slot
  rw [← slot.1]
  exact ⟨member, slot.2⟩

theorem exists_latest {entries : List (K × κ)} {k : K} {cert : κ} (member : (k, cert) ∈ entries) :
    ∃ last, latest entries k (author cert) = some last := by
  have found : (entries.reverse.find? fun entry =>
      entry.1 == k && author entry.2 == author cert).isSome = true :=
    List.find?_isSome.mpr ⟨(k, cert), List.mem_reverse.mpr member, by simp⟩
  obtain ⟨entry, isLast⟩ := Option.isSome_iff_exists.mp found
  exact ⟨entry.2, Option.map_eq_some_iff.mpr ⟨entry, isLast, rfl⟩⟩

/-- The latest certificates are all of them if and only if no author has two. -/
theorem latest_eq_iff_onePerAuthor :
    (∀ k cert, latest entries k (author cert) = some cert ↔ (k, cert) ∈ entries) ↔
      OnePerAuthor entries := by
  constructor
  · intro every k left right leftMember rightMember sameAuthor
    have leftLast := (every k left).mpr leftMember
    rw [sameAuthor, (every k right).mpr rightMember] at leftLast
    exact (Option.some.inj leftLast).symm
  · intro one k cert
    constructor
    · intro found
      exact (mem_of_latest found).1
    · intro member
      obtain ⟨last, found⟩ := exists_latest member
      obtain ⟨lastMember, sameAuthor⟩ := mem_of_latest found
      rw [found, one k last cert lastMember member sameAuthor]

/-- An index of a database with the latest digests. -/
structure CertIndex.Holds (index : CertIndex K) (db : Database) (entries : List (K × κ)) :
    Prop where
  keys : ∀ key, index.first <+: key → db[key]?.isSome = true → ∃ k idx, key = index.key k idx
  values : ∀ k idx, db[index.key k idx]? = (latest entries k idx).map digest

namespace CertIndex.Holds

variable {index : CertIndex K} {db : Database} {entries : List (K × κ)}

theorem empty : index.Holds ∅ ([] : List (K × κ)) where
  keys key _ present := by simp at present
  values _ _ := by simp [latest]

theorem put (holds : index.Holds db entries) (k : K) (cert : κ) :
    index.Holds (write db [.put (index.key k (author cert)) (digest cert)])
      (entries ++ [(k, cert)]) := by
  constructor
  · intro key isPrefix present
    rw [getElem?_write_put] at present
    split at present
    next same => exact ⟨k, author cert, same.symm⟩
    next => exact holds.keys key isPrefix present
  · intro query idx
    rw [getElem?_write_put, latest_concat, holds.values]
    by_cases same : k = query ∧ author cert = idx
    · rw [if_pos (index.key_inj.mpr same), if_pos same]
      rfl
    · rw [if_neg (fun sameKey => same (index.key_inj.mp sameKey)), if_neg same]

theorem put_outside (holds : index.Holds db entries) {key value : Bytes}
    (outside : ¬index.first <+: key) : index.Holds (write db [.put key value]) entries := by
  constructor
  · intro query isPrefix present
    have other : key ≠ query := fun same => outside (same ▸ isPrefix)
    rw [getElem?_write_put, if_neg other] at present
    exact holds.keys query isPrefix present
  · intro k idx
    have other : key ≠ index.key k idx := fun same =>
      outside (same ▸ index.first_isPrefix_key k idx)
    rw [getElem?_write_put, if_neg other, holds.values]

end CertIndex.Holds

end Index

namespace DiskBlockStore

variable {κ : Type} [CertificateData κ] (codec : CertificateCodec κ)

/-- The database of the store after a history. -/
structure Holds (s : DiskBlockStore) (H : CertificateHistory κ) : Prop where
  certs : ∀ queried, s.db[makeCertKey queried]? = (findDigest H.saved queried).map codec.marshal
  byRound : roundIndex.Holds s.db H.rounds
  byHeight : heightIndex.Holds s.db H.committed

variable {codec} {s : DiskBlockStore} {H : CertificateHistory κ}

namespace Holds

variable (holds : Holds codec s H)

include holds

theorem getCertificateUnlocked_eq (queried : Bytes) : getCertificateUnlocked codec s queried =
      (findDigest H.saved queried).elim (.error .certificateNotFound) .ok := by
  rw [getCertificateUnlocked, holds.certs]
  cases findDigest H.saved queried with
  | none => rfl
  | some cert => simp [codec.unmarshal_marshal]

theorem save {cert : κ} (fresh : findDigest H.saved (digest cert) = none) :
    Holds codec (saveCertificate codec s (some cert)).1 { H with saved := H.saved ++ [cert] } ∧
      (saveCertificate codec s (some cert)).2 = none := by
  have absent : ¬s.db[makeCertKey (digest cert)]?.isSome = true := by simp [holds.certs, fresh]
  have batch : ∀ first second : Write Bytes Bytes,
      write s.db [first, second] = write (write s.db [first]) [second] :=
    fun first second => write_append s.db [first] [second]
  rw [show saveCertificate codec s (some cert) = _ from if_neg absent, batch]
  refine ⟨⟨?_, ?_, ?_⟩, rfl⟩
  · intro queried
    have outside : makeCertRoundKey (CertificateData.round cert) (author cert) ≠
        makeCertKey queried := roundIndex.key_ne_makeCertKey _ _ queried
    rw [getElem?_write_put, if_neg outside, getElem?_write_put, holds.certs, findDigest_concat]
    simp only [makeCertKey_inj]
    by_cases same : digest cert = queried
    · subst same
      simp [fresh]
    · simp [same]
  · rw [CertificateHistory.rounds, List.map_append]
    exact (holds.byRound.put_outside (roundIndex.outside _)).put (CertificateData.round cert) cert
  · exact (holds.byHeight.put_outside (heightIndex.outside _)).put_outside
      (not_prefixCertHeight_isPrefix _ _)

theorem commit {queried : Bytes} {height : Int64} {cert : κ}
    (known : findDigest H.saved queried = some cert) :
    Holds codec (setCertificateBlockHeight codec s queried height).1
        { H with committed := H.committed ++ [(height, cert)] } ∧
      (setCertificateBlockHeight codec s queried height).2 = none := by
  have found : getCertificateUnlocked codec s queried = .ok cert := by
    rw [holds.getCertificateUnlocked_eq, known]
    rfl
  have isDigest := (mem_of_findDigest known).2
  rw [setCertificateBlockHeight, found, ← isDigest]
  refine ⟨⟨?_, ?_, ?_⟩, rfl⟩
  · intro other
    have outside : makeCertHeightKey height (author cert) ≠ makeCertKey other :=
      heightIndex.key_ne_makeCertKey _ _ other
    rw [getElem?_write_put, if_neg outside, holds.certs]
  · exact holds.byRound.put_outside (not_prefixCertRound_isPrefix _ _)
  · exact holds.byHeight.put height cert

end Holds

theorem implements_certificates (codec : CertificateCodec κ)
    (sorter : Sorter (authorRank : κ → Nat)) :
    Implements (certificates codec sorter) (Holds codec) where
  new := ⟨fun _ => by simp [certificates, DiskBlockStore.new, loadMetadata, findDigest,
    CertificateHistory.empty], .empty, .empty⟩
  save_nil s := ⟨_, rfl⟩
  save_known s H cert holds known := by
    have present : s.db[makeCertKey (digest cert)]?.isSome = true := by
      rw [holds.certs, Option.isSome_map, known]
    exact ⟨_, if_pos present⟩
  save_fresh s H cert holds fresh := (holds.save fresh).symm
  set_unknown s H queried height holds unknown := by
    have missing : getCertificateUnlocked codec s queried = .error .certificateNotFound := by
      rw [holds.getCertificateUnlocked_eq, unknown]
      rfl
    refine ⟨.certificateNotFound, ?_⟩
    change setCertificateBlockHeight codec s queried height = _
    rw [setCertificateBlockHeight, missing]
  set_known s H queried height cert holds known := (holds.commit known).symm

section Queries

variable {K : Type} [DecidableEq K] {index : CertIndex K} {entries : List (K × κ)}

def indexEntry (index : CertIndex K) (k : K) (cert : κ) : Bytes × Bytes :=
  (index.key k (author cert), digest cert)

theorem mem_select_iff (indexed : index.Holds s.db entries) (k : K) (entry : Bytes × Bytes) :
    entry ∈ select s.db (fun key => (index.numberPrefix k).isPrefixOf key) ↔
      ∃ cert, latest entries k (author cert) = some cert ∧ indexEntry index k cert = entry := by
  obtain ⟨key, value⟩ := entry
  rw [mem_select_isPrefixOf]
  constructor
  · intro selected
    obtain ⟨isPrefix, stored⟩ := selected
    have inIndex := (List.prefix_append index.first (index.number k)).trans isPrefix
    obtain ⟨other, idx, rfl⟩ := indexed.keys key inIndex (by rw [stored]; rfl)
    have sameNumber := index.numberPrefix_isPrefix_key_iff.mp isPrefix
    subst sameNumber
    rw [indexed.values] at stored
    obtain ⟨cert, found, rfl⟩ := Option.map_eq_some_iff.mp stored
    have sameAuthor := (mem_of_latest found).2
    subst sameAuthor
    exact ⟨cert, found, rfl⟩
  · intro listed
    obtain ⟨cert, found, same⟩ := listed
    obtain ⟨rfl, rfl⟩ := Prod.mk.inj same
    refine ⟨List.prefix_append _ _, ?_⟩
    rw [indexed.values, found]
    rfl

theorem mapM_getCertificateUnlocked (holds : Holds codec s H) (valid : H.Valid) {certs : List κ}
    (saved : ∀ cert ∈ certs, cert ∈ H.saved) :
    (certs.map digest).mapM (getCertificateUnlocked codec s) = .ok certs := by
  have each : ∀ cert ∈ certs, getCertificateUnlocked codec s (digest cert) = .ok cert := by
    intro cert member
    rw [holds.getCertificateUnlocked_eq, valid.findDigest_eq (saved cert member)]
    rfl
  rw [List.mapM_map]
  exact (Fallible.mapM_eq_ok each).trans (congrArg Except.ok (List.map_id' certs))

theorem certificatesUnder_eq (holds : Holds codec s H) (valid : H.Valid)
    (indexed : index.Holds s.db entries) (saved : ∀ entry ∈ entries, entry.2 ∈ H.saved) (k : K) :
    ∃ certs, certificatesUnder codec s (index.numberPrefix k) = .ok certs ∧ certs.Nodup ∧
      ∀ cert, cert ∈ certs ↔ latest entries k (author cert) = some cert := by
  have isSaved : ∀ {cert}, latest entries k (author cert) = some cert → cert ∈ H.saved :=
    fun found => saved _ (mem_of_latest found).1
  have shape : select s.db (fun key => (index.numberPrefix k).isPrefixOf key) ∈
      Set.range (List.map fun cert : {cert : κ // latest entries k (author cert) = some cert} =>
        indexEntry index k cert.1) := by
    rw [Set.range_list_map]
    intro entry selected
    obtain ⟨cert, found, same⟩ := (mem_select_iff indexed k entry).mp selected
    exact ⟨⟨cert, found⟩, same⟩
  obtain ⟨found, same⟩ := shape
  have entriesEq : (found.map Subtype.val).map (indexEntry index k) =
      select s.db (fun key => (index.numberPrefix k).isPrefixOf key) := by
    rw [← same, List.map_map]
    rfl
  have isLatest : ∀ cert ∈ found.map Subtype.val, latest entries k (author cert) = some cert := by
    intro cert member
    obtain ⟨listed, -, rfl⟩ := List.mem_map.mp member
    exact listed.2
  refine ⟨found.map Subtype.val, ?_, ?_, ?_⟩
  · rw [certificatesUnder, ← entriesEq, List.map_map]
    exact mapM_getCertificateUnlocked holds valid fun cert member => isSaved (isLatest cert member)
  · have ordered := pairwise_select s.db fun key => (index.numberPrefix k).isPrefixOf key
    rw [← entriesEq] at ordered
    refine List.Nodup.of_map (indexEntry index k) (ordered.imp ?_)
    intro left right below sameEntry
    rw [sameEntry, Std.compare_self] at below
    cases below
  · intro cert
    refine ⟨isLatest cert, ?_⟩
    intro isLast
    have selected := (mem_select_iff indexed k (indexEntry index k cert)).mpr ⟨cert, isLast, rfl⟩
    rw [← entriesEq] at selected
    obtain ⟨listed, member, sameEntry⟩ := List.mem_map.mp selected
    have sameCert := valid.digest_inj listed (isSaved (isLatest listed member)) cert
      (isSaved isLast) (congrArg Prod.snd sameEntry)
    rwa [← sameCert]

/-- The queries of an index are exact if and only if no author is under one number twice. -/
theorem lists_certificatesUnder_iff (sorter : Sorter (authorRank : κ → Nat))
    (holds : Holds codec s H) (valid : H.Valid) (indexed : index.Holds s.db entries)
    (saved : ∀ entry ∈ entries, entry.2 ∈ H.saved) :
    (∀ k, ∃ certs, (certificatesUnder codec s (index.numberPrefix k)).map sorter.sort = .ok certs ∧
        Lists certs fun cert => (k, cert) ∈ entries) ↔ OnePerAuthor entries := by
  rw [← latest_eq_iff_onePerAuthor]
  constructor
  · intro every k cert
    obtain ⟨sorted, isOk, lists⟩ := every k
    obtain ⟨certs, loaded, -, mem_iff⟩ := certificatesUnder_eq holds valid indexed saved k
    rw [loaded] at isOk
    have isSorted : sorter.sort certs = sorted := Except.ok.inj isOk
    rw [← mem_iff, ← lists.mem_iff, ← isSorted, (sorter.perm certs).mem_iff]
  · intro every k
    obtain ⟨certs, loaded, nodup, mem_iff⟩ := certificatesUnder_eq holds valid indexed saved k
    refine ⟨sorter.sort certs, by rw [loaded]; rfl, ?_⟩
    rw [lists_sort_iff sorter fun cert => (mem_iff cert).trans (every k cert)]
    exact nodup

end Queries

/-- The disk stores answer all queries exactly if and only if no author has two
certificates in a round or at a height. -/
theorem exact_certificates_iff (sorter : Sorter (authorRank : κ → Nat))
    {r : Recorded DiskBlockStore κ} (isMatch : Matches (Holds codec) r H) :
    (certificates codec sorter).Exact r ↔ OnePerAuthor H.rounds ∧ OnePerAuthor H.committed := by
  have savedOfRound : ∀ entry ∈ H.rounds, entry.2 ∈ H.saved := by
    intro entry member
    obtain ⟨cert, isSaved, rfl⟩ := List.mem_map.mp member
    exact isSaved
  rw [← lists_certificatesUnder_iff sorter isMatch.store isMatch.valid isMatch.store.byRound
      savedOfRound,
    ← lists_certificatesUnder_iff sorter isMatch.store isMatch.valid isMatch.store.byHeight
      isMatch.valid.saved_of_committed]
  have inRound : ∀ queried cert, (queried, cert) ∈ H.rounds ↔
      cert ∈ r.saved ∧ CertificateData.round cert = queried := by
    intro queried cert
    rw [isMatch.saved]
    simp [CertificateHistory.rounds, and_comm]
  simp only [inRound, ← isMatch.assigned_iff]
  constructor
  · intro exact
    exact ⟨exact.forRound, exact.forHeight⟩
  · intro both
    exact ⟨both.1, both.2⟩

end DiskBlockStore

end Blockberry
