import Blockberry.BlockStore.Certificates

/-!
# Certificates in memory

The in-memory store keeps the digests of a round and of a height in lists to which each
call appends. Nothing is lost, but a digest that gets the same height twice is in its
list twice.
-/

namespace Blockberry

open CertificateData hiding round
open CertificateHistory SortSlice

/-- The fields of `MemoryBlockStore` for certificates. -/
structure MemoryCertificates (κ : Type) where
  certs : Finmap fun _ : Bytes => κ
  certsByRound : Finmap fun _ : UInt64 => List Bytes
  certsByHeight : Finmap fun _ : Int64 => List Bytes

/-- Authors as ranks, by which query results are sorted. -/
abbrev authorRank {κ : Type} [CertificateData κ] (cert : κ) : Nat := (author cert).toNat

theorem lists_sort_iff {κ : Type} [CertificateData κ] (sorter : Sorter (authorRank : κ → Nat))
    {certs : List κ} {belongs : κ → Prop}
    (mem_iff : ∀ cert, cert ∈ certs ↔ belongs cert) :
    Lists (sorter.sort certs) belongs ↔ certs.Nodup := by
  constructor
  · intro lists
    exact (sorter.perm certs).nodup_iff.mp lists.nodup
  · intro nodup
    refine ⟨(sorter.perm certs).nodup_iff.mpr nodup, ?_, ?_⟩
    · intro cert
      rw [(sorter.perm certs).mem_iff, mem_iff]
    · apply (sorter.ordered certs).imp
      intro left right ordered
      exact UInt16.le_iff_toNat_le.mpr ordered

def appendAt {K : Type} [DecidableEq K] (index : Finmap fun _ : K => List Bytes) (key : K)
    (digest : Bytes) : Finmap fun _ : K => List Bytes :=
  index.insert key ((index.lookup key).getD [] ++ [digest])

namespace MemoryCertificates

variable {κ : Type} [CertificateData κ]

def new : MemoryCertificates κ := ⟨∅, ∅, ∅⟩

def saveCertificate (m : MemoryCertificates κ) :
    Option κ → MemoryCertificates κ × Option CertificateError
  | none => (m, some .nilCertificate)
  | some cert =>
    if (m.certs.lookup (digest cert)).isSome then (m, some .certificateAlreadyExists)
    else
      ({ m with
         certs := m.certs.insert (digest cert) cert
         certsByRound := appendAt m.certsByRound (CertificateData.round cert) (digest cert) }, none)

def setCertificateBlockHeight (m : MemoryCertificates κ) (digest : Bytes) (height : Int64) :
    MemoryCertificates κ × Option CertificateError :=
  if (m.certs.lookup digest).isSome then
    ({ m with certsByHeight := appendAt m.certsByHeight height digest }, none)
  else (m, some .certificateNotFound)

variable (sorter : Sorter (authorRank : κ → Nat))

variable (m : MemoryCertificates κ)

/-- The loop of the queries over the digests of an index. -/
def certificatesOf (digests : List Bytes) : List κ :=
  if digests = [] then [] else sorter.sort (digests.filterMap m.certs.lookup)

def getCertificatesForRound (round : UInt64) : Except CertificateError (List κ) :=
  .ok (certificatesOf sorter m ((m.certsByRound.lookup round).getD []))

def getCertificatesForHeight (height : Int64) : Except CertificateError (List κ) :=
  .ok (certificatesOf sorter m ((m.certsByHeight.lookup height).getD []))

def api : CertificateStore (MemoryCertificates κ) κ where
  new
  saveCertificate
  setCertificateBlockHeight
  getCertificatesForRound := getCertificatesForRound sorter
  getCertificatesForHeight := getCertificatesForHeight sorter

/-- The maps of the store after a history. -/
structure Holds (m : MemoryCertificates κ) (H : CertificateHistory κ) : Prop where
  certs : ∀ queried, m.certs.lookup queried = findDigest H.saved queried
  byRound : ∀ queried, (m.certsByRound.lookup queried).getD [] =
    (H.saved.filter fun cert => CertificateData.round cert == queried).map digest
  byHeight : ∀ height, (m.certsByHeight.lookup height).getD [] =
    (H.committed.filter fun entry => entry.1 == height).map fun entry => digest entry.2

theorem lookup_appendAt {K : Type} [DecidableEq K] (index : Finmap fun _ : K => List Bytes)
    (key query : K) (digest : Bytes) :
    ((appendAt index key digest).lookup query).getD [] =
      (index.lookup query).getD [] ++ if key = query then [digest] else [] := by
  by_cases same : key = query
  · subst same
    simp [appendAt]
  · simp [appendAt, same, Finmap.lookup_insert_of_ne _ (Ne.symm same)]

theorem implements : Implements (api sorter) Holds where
  new := ⟨fun _ => rfl, fun _ => rfl, fun _ => rfl⟩
  save_nil m := ⟨_, rfl⟩
  save_known m H cert holds known := by
    rw [← holds.certs] at known
    exact ⟨_, if_pos known⟩
  save_fresh m H cert holds fresh := by
    have unknown : ¬(m.certs.lookup (digest cert)).isSome = true := by simp [holds.certs, fresh]
    have saved : saveCertificate m (some cert) = _ := if_neg unknown
    change (saveCertificate m (some cert)).2 = none ∧ Holds (saveCertificate m (some cert)).1 _
    rw [saved]
    refine ⟨rfl, ?_, ?_, holds.byHeight⟩
    · intro queried
      by_cases same : digest cert = queried
      · subst same
        simp [findDigest_concat, fresh]
      · simp [Finmap.lookup_insert_of_ne _ (Ne.symm same), holds.certs, findDigest_concat, same]
    · intro queried
      rw [lookup_appendAt, holds.byRound, List.filter_append, List.map_append]
      by_cases same : CertificateData.round cert = queried
      · simp [same]
      · simp [same]
  set_unknown m H queried height holds unknown := by
    have absent : ¬(m.certs.lookup queried).isSome = true := by simp [holds.certs, unknown]
    exact ⟨_, if_neg absent⟩
  set_known m H queried height cert holds known := by
    have present : (m.certs.lookup queried).isSome = true := by simp [holds.certs, known]
    have set : setCertificateBlockHeight m queried height = _ := if_pos present
    change (setCertificateBlockHeight m queried height).2 = none ∧
      Holds (setCertificateBlockHeight m queried height).1 _
    rw [set]
    refine ⟨rfl, holds.certs, holds.byRound, ?_⟩
    intro other
    rw [lookup_appendAt, holds.byHeight, List.filter_append, List.map_append]
    by_cases same : height = other
    · simp [same, (mem_of_findDigest known).2]
    · simp [same]

section Queries

variable {m : MemoryCertificates κ} {H : CertificateHistory κ}
  (sorter : Sorter (authorRank : κ → Nat)) (holds : Holds m H)

include holds

variable (valid : H.Valid)

include valid

theorem filterMap_lookup {certs : List κ} (saved : ∀ cert ∈ certs, cert ∈ H.saved) :
    (certs.map digest).filterMap m.certs.lookup = certs := by
  induction certs with
  | nil => rfl
  | cons cert certs ih =>
    have found : m.certs.lookup (digest cert) = some cert := by
      rw [holds.certs, valid.findDigest_eq (saved cert List.mem_cons_self)]
    rw [List.map_cons, List.filterMap_cons, found,
      ih fun other member => saved other (List.mem_cons_of_mem _ member)]

theorem certificatesOf_eq {certs : List κ} (saved : ∀ cert ∈ certs, cert ∈ H.saved) :
    certificatesOf sorter m (certs.map digest) = sorter.sort certs := by
  unfold certificatesOf
  split
  next empty =>
    rw [List.map_eq_nil_iff.mp empty]
    exact (List.perm_nil.mp (sorter.perm [])).symm
  next => rw [filterMap_lookup holds valid saved]

theorem getCertificatesForRound_eq (queried : UInt64) : getCertificatesForRound sorter m queried =
      .ok (sorter.sort (H.saved.filter fun cert => CertificateData.round cert == queried)) := by
  rw [getCertificatesForRound, holds.byRound, certificatesOf_eq sorter holds valid]
  intro cert member
  exact List.mem_of_mem_filter member

theorem getCertificatesForHeight_eq (height : Int64) : getCertificatesForHeight sorter m height =
      .ok (sorter.sort ((H.committed.filter fun entry => entry.1 == height).map Prod.snd)) := by
  have digests : ((H.committed.filter fun entry => entry.1 == height).map fun entry =>
      digest entry.2) =
        ((H.committed.filter fun entry => entry.1 == height).map Prod.snd).map digest := by
    rw [List.map_map]
    rfl
  rw [getCertificatesForHeight, holds.byHeight, digests, certificatesOf_eq sorter holds valid]
  intro cert member
  obtain ⟨entry, inIndex, rfl⟩ := List.mem_map.mp member
  exact valid.saved_of_committed entry (List.mem_of_mem_filter inIndex)

end Queries

/-- The lists under all keys are without repetitions if and only if the pairs are. -/
theorem nodup_iff_forall_filter {K α : Type} [DecidableEq K] (entries : List (K × α)) :
    (∀ key, ((entries.filter fun entry => entry.1 == key).map Prod.snd).Nodup) ↔
      entries.Nodup := by
  constructor
  · intro every
    rw [List.nodup_iff_sublist]
    intro entry twice
    have inFilter := twice.filter fun other : K × α => other.1 == entry.1
    have kept : [entry, entry].filter (fun other => other.1 == entry.1) = [entry, entry] := by simp
    rw [kept] at inFilter
    exact List.nodup_iff_sublist.mp (every entry.1) entry.2 (inFilter.map Prod.snd)
  · intro nodup key
    refine List.Nodup.map_on ?_ (nodup.filter _)
    intro left leftMember right rightMember same
    have leftKey := beq_iff_eq.mp (List.mem_filter.mp leftMember).2
    have rightKey := beq_iff_eq.mp (List.mem_filter.mp rightMember).2
    exact Prod.ext (leftKey.trans rightKey.symm) same

/-- The in-memory store answers all queries exactly if and only if no digest gets the
same height twice. -/
theorem exact_iff (sorter : Sorter (authorRank : κ → Nat)) {r : Recorded (MemoryCertificates κ) κ}
    {H : CertificateHistory κ} (isMatch : Matches Holds r H) :
    (api sorter).Exact r ↔ H.committed.Nodup := by
  rw [← nodup_iff_forall_filter]
  constructor
  · intro exact height
    obtain ⟨certs, isOk, lists⟩ := exact.forHeight height
    have result : getCertificatesForHeight sorter r.store height = .ok certs := isOk
    rw [getCertificatesForHeight_eq sorter isMatch.store isMatch.valid] at result
    cases result
    exact (sorter.perm _).nodup_iff.mp lists.nodup
  · intro nodup
    constructor
    · intro queried
      refine ⟨_, getCertificatesForRound_eq sorter isMatch.store isMatch.valid queried, ?_⟩
      rw [lists_sort_iff]
      · exact isMatch.valid.nodup.filter _
      · intro cert
        rw [List.mem_filter, beq_iff_eq, isMatch.saved]
    · intro height
      refine ⟨_, getCertificatesForHeight_eq sorter isMatch.store isMatch.valid height, ?_⟩
      rw [lists_sort_iff]
      · exact nodup height
      · intro cert
        rw [isMatch.assigned_iff, List.mem_map]
        constructor
        · intro listed
          obtain ⟨entry, member, rfl⟩ := listed
          obtain ⟨inHistory, isHeight⟩ := List.mem_filter.mp member
          rwa [← beq_iff_eq.mp isHeight]
        · intro committed
          exact ⟨(height, cert), List.mem_filter.mpr ⟨committed, beq_self_eq_true _⟩, rfl⟩

end MemoryCertificates

end Blockberry
