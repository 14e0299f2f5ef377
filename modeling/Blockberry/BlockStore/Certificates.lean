import Blockberry.Lib.FiniteMap
import Blockberry.Lib.Run
import Blockberry.Lib.SortSlice
import Blockberry.Types.Basic
import Mathlib.Data.List.Nodup

/-!
# Certificates in block stores

Stores index the certificates of the DAG mempool by round and by the height of the block that
committed them. Of a certificate only the digest, the round and the author are used. A run is
recorded with which of its calls succeeded, and what the queries should return is stated against
this record: `CertificateHistory` is a list of calls without a store, `Implements` what a store has
to do to follow it.
-/

namespace Blockberry

open List

class CertificateData (κ : Type) where
  digest : κ → Bytes
  round : κ → UInt64
  author : κ → UInt16

open CertificateData hiding round

inductive CertificateError where
  | nilCertificate
  | certificateAlreadyExists
  | certificateNotFound
  | unmarshal
  deriving DecidableEq, Repr

/-- The part of `CertificateStore` about certificates, with a fresh store. -/
structure CertificateStore (σ κ : Type) where
  new : σ
  saveCertificate : σ → Option κ → σ × Option CertificateError
  setCertificateBlockHeight : σ → Bytes → Int64 → σ × Option CertificateError
  getCertificatesForRound : σ → UInt64 → Except CertificateError (List κ)
  getCertificatesForHeight : σ → Int64 → Except CertificateError (List κ)

/-- The calls that change the certificates of a store. -/
inductive CertificateOp (κ : Type) where
  | saveCertificate (cert : Option κ)
  | setCertificateBlockHeight (digest : Bytes) (height : Int64)
  deriving DecidableEq, Repr

/-- A store with the certificates it accepted and the heights it accepted for digests. -/
structure Recorded (σ κ : Type) where
  store : σ
  saved : List κ
  assigned : List (Int64 × Bytes)

namespace CertificateStore

variable {σ κ : Type} (api : CertificateStore σ κ)

def start : Recorded σ κ := ⟨api.new, [], []⟩

/-- One call, recorded if it succeeds. -/
def record (r : Recorded σ κ) : CertificateOp κ → Recorded σ κ
  | .saveCertificate cert =>
    let outcome := api.saveCertificate r.store cert
    { store := outcome.1
      saved := if outcome.2.isNone then r.saved ++ cert.toList else r.saved
      assigned := r.assigned }
  | .setCertificateBlockHeight digest height =>
    let outcome := api.setCertificateBlockHeight r.store digest height
    { store := outcome.1
      saved := r.saved
      assigned := if outcome.2.isNone then r.assigned ++ [(height, digest)] else r.assigned }

end CertificateStore

/-- A query returns each certificate that belongs there once, ordered by author. -/
structure Lists {κ : Type} [CertificateData κ] (certs : List κ) (belongs : κ → Prop) : Prop where
  nodup : certs.Nodup
  mem_iff : ∀ cert, cert ∈ certs ↔ belongs cert
  ordered : certs.Pairwise fun left right => author left ≤ author right

/-- Both queries return what was recorded. -/
structure CertificateStore.Exact {σ κ : Type} [CertificateData κ] (api : CertificateStore σ κ)
    (r : Recorded σ κ) : Prop where
  forRound : ∀ queried, ∃ certs, api.getCertificatesForRound r.store queried = .ok certs ∧
    Lists certs fun cert => cert ∈ r.saved ∧ CertificateData.round cert = queried
  forHeight : ∀ height, ∃ certs, api.getCertificatesForHeight r.store height = .ok certs ∧
    Lists certs fun cert => cert ∈ r.saved ∧ (height, digest cert) ∈ r.assigned

variable {κ : Type} [CertificateData κ]

def findDigest (certs : List κ) (queried : Bytes) : Option κ :=
  certs.find? fun cert => digest cert == queried

/-- The certificates saved and the certificates committed at heights, in order. -/
structure CertificateHistory (κ : Type) where
  saved : List κ
  committed : List (Int64 × κ)

namespace CertificateHistory

variable {H : CertificateHistory κ} {cert : κ}

def empty : CertificateHistory κ := ⟨[], []⟩

/-- What a call adds. A digest is saved once, and only known digests get a height. -/
def step (H : CertificateHistory κ) : CertificateOp κ → CertificateHistory κ
  | .saveCertificate none => H
  | .saveCertificate (some cert) =>
    if (findDigest H.saved (digest cert)).isSome then H
    else { H with saved := H.saved ++ [cert] }
  | .setCertificateBlockHeight queried height =>
    match findDigest H.saved queried with
    | none => H
    | some cert => { H with committed := H.committed ++ [(height, cert)] }

def rounds (H : CertificateHistory κ) : List (UInt64 × κ) :=
  H.saved.map fun cert => (CertificateData.round cert, cert)

/-- Digests identify certificates, and only saved ones are committed. -/
structure Valid (H : CertificateHistory κ) : Prop where
  digest_inj : ∀ left ∈ H.saved, ∀ right ∈ H.saved, digest left = digest right → left = right
  nodup : H.saved.Nodup
  saved_of_committed : ∀ entry ∈ H.committed, entry.2 ∈ H.saved

theorem mem_of_findDigest {certs : List κ} {queried : Bytes}
    (found : findDigest certs queried = some cert) : cert ∈ certs ∧ digest cert = queried := by
  refine ⟨mem_of_find?_eq_some found, ?_⟩
  simpa using List.find?_some found

theorem findDigest_eq_none_iff {certs : List κ} {queried : Bytes} :
    findDigest certs queried = none ↔ ∀ cert ∈ certs, digest cert ≠ queried := by
  simp [findDigest]

theorem Valid.findDigest_eq (valid : Valid H) (isSaved : cert ∈ H.saved) :
    findDigest H.saved (digest cert) = some cert := by
  cases found : findDigest H.saved (digest cert) with
  | none => exact absurd rfl (findDigest_eq_none_iff.mp found cert isSaved)
  | some other =>
    obtain ⟨otherSaved, sameDigest⟩ := mem_of_findDigest found
    rw [valid.digest_inj other otherSaved cert isSaved sameDigest]

theorem findDigest_concat (certs : List κ) (cert : κ) (queried : Bytes) :
    findDigest (certs ++ [cert]) queried =
      (findDigest certs queried).or (if digest cert = queried then some cert else none) := by
  rw [findDigest, List.find?_append]
  by_cases same : digest cert = queried
  · simp [findDigest, same]
  · simp [findDigest, same]

theorem valid_empty : Valid (empty : CertificateHistory κ) where
  digest_inj _ member := by cases member
  nodup := nodup_nil
  saved_of_committed _ member := by cases member

theorem Valid.save (valid : Valid H) (fresh : findDigest H.saved (digest cert) = none) :
    Valid { H with saved := H.saved ++ [cert] } := by
  have other := findDigest_eq_none_iff.mp fresh
  constructor
  · intro left leftMember right rightMember same
    rcases mem_append.mp leftMember with leftOld | leftNew
    · rcases mem_append.mp rightMember with rightOld | rightNew
      · exact valid.digest_inj left leftOld right rightOld same
      · rw [mem_singleton.mp rightNew] at same
        exact absurd same (other left leftOld)
    · rcases mem_append.mp rightMember with rightOld | rightNew
      · rw [mem_singleton.mp leftNew] at same
        exact absurd same.symm (other right rightOld)
      · rw [mem_singleton.mp leftNew, mem_singleton.mp rightNew]
  · rw [← concat_eq_append, nodup_concat]
    exact ⟨fun member => other cert member rfl, valid.nodup⟩
  · intro entry member
    exact mem_append_left _ (valid.saved_of_committed entry member)

theorem Valid.commit (valid : Valid H) (isSaved : cert ∈ H.saved) (height : Int64) :
    Valid { H with committed := H.committed ++ [(height, cert)] } := by
  refine ⟨valid.digest_inj, valid.nodup, ?_⟩
  intro entry member
  rcases mem_append.mp member with old | new
  · exact valid.saved_of_committed entry old
  · rw [mem_singleton.mp new]
    exact isSaved

end CertificateHistory

open CertificateHistory

/-- What a store does that follows histories through a relation. -/
structure Implements {σ : Type} (api : CertificateStore σ κ)
    (holds : σ → CertificateHistory κ → Prop) : Prop where
  new : holds api.new .empty
  save_nil : ∀ s, ∃ err, api.saveCertificate s none = (s, some err)
  save_known : ∀ s H cert, holds s H → (findDigest H.saved (digest cert)).isSome = true →
    ∃ err, api.saveCertificate s (some cert) = (s, some err)
  save_fresh : ∀ s H cert, holds s H → findDigest H.saved (digest cert) = none →
    (api.saveCertificate s (some cert)).2 = none ∧
      holds (api.saveCertificate s (some cert)).1 { H with saved := H.saved ++ [cert] }
  set_unknown : ∀ s H queried height, holds s H → findDigest H.saved queried = none →
    ∃ err, api.setCertificateBlockHeight s queried height = (s, some err)
  set_known : ∀ s H queried height cert, holds s H → findDigest H.saved queried = some cert →
    (api.setCertificateBlockHeight s queried height).2 = none ∧
      holds (api.setCertificateBlockHeight s queried height).1
        { H with committed := H.committed ++ [(height, cert)] }

/-- A record is that of a history. -/
structure Matches {σ : Type} (holds : σ → CertificateHistory κ → Prop) (r : Recorded σ κ)
    (H : CertificateHistory κ) : Prop where
  store : holds r.store H
  valid : H.Valid
  saved : r.saved = H.saved
  assigned : r.assigned = H.committed.map fun entry => (entry.1, digest entry.2)

namespace Matches

variable {σ : Type} {holds : σ → CertificateHistory κ → Prop} {r : Recorded σ κ}
  {H : CertificateHistory κ} {api : CertificateStore σ κ} (implements : Implements api holds)

include implements

theorem record (isMatch : Matches holds r H)
    (op : CertificateOp κ) : Matches holds (api.record r op) (H.step op) := by
  cases op with
  | saveCertificate cert =>
    cases cert with
    | none =>
      obtain ⟨err, outcome⟩ := implements.save_nil r.store
      simp only [CertificateStore.record, outcome]
      exact isMatch
    | some cert =>
      cases known : findDigest H.saved (digest cert) with
      | some other =>
        have isKnown : (findDigest H.saved (digest cert)).isSome = true := by rw [known]; rfl
        obtain ⟨err, outcome⟩ :=
          implements.save_known r.store H cert isMatch.store isKnown
        simp only [CertificateStore.record, step, outcome, if_pos isKnown]
        exact isMatch
      | none =>
        obtain ⟨isOk, after⟩ := implements.save_fresh r.store H cert isMatch.store known
        have isNew : ¬(findDigest H.saved (digest cert)).isSome = true := by simp [known]
        simp only [CertificateStore.record, step, isOk, if_neg isNew]
        exact ⟨after, isMatch.valid.save known, congrArg (· ++ [cert]) isMatch.saved,
          isMatch.assigned⟩
  | setCertificateBlockHeight queried height =>
    cases known : findDigest H.saved queried with
    | none =>
      obtain ⟨err, outcome⟩ :=
        implements.set_unknown r.store H queried height isMatch.store known
      simp only [CertificateStore.record, step, outcome, known]
      exact isMatch
    | some cert =>
      obtain ⟨isOk, after⟩ :=
        implements.set_known r.store H queried height cert isMatch.store known
      obtain ⟨isSaved, isDigest⟩ := mem_of_findDigest known
      simp only [CertificateStore.record, step, isOk, known]
      refine ⟨after, isMatch.valid.commit isSaved height, isMatch.saved, ?_⟩
      simp [isMatch.assigned, isDigest]

theorem after (isMatch : Matches holds r H) (ops : List (CertificateOp κ)) :
    Matches holds (Run.after api.record r ops) (Run.after step H ops) := by
  induction ops generalizing r H with
  | nil => exact isMatch
  | cons op ops ih => exact ih (isMatch.record implements op)

theorem start : Matches holds api.start empty where
  store := implements.new
  valid := valid_empty
  saved := rfl
  assigned := rfl

omit implements

theorem assigned_iff (isMatch : Matches holds r H) {cert : κ} {height : Int64} :
    cert ∈ r.saved ∧ (height, digest cert) ∈ r.assigned ↔ (height, cert) ∈ H.committed := by
  rw [isMatch.saved, isMatch.assigned, mem_map]
  constructor
  · intro both
    obtain ⟨isSaved, entry, member, same⟩ := both
    obtain ⟨sameHeight, sameDigest⟩ := Prod.mk.inj same
    have sameCert :=
      isMatch.valid.digest_inj entry.2 (isMatch.valid.saved_of_committed entry member)
      cert isSaved sameDigest
    rwa [← sameHeight, ← sameCert]
  · intro member
    exact ⟨isMatch.valid.saved_of_committed _ member, (height, cert), member, rfl⟩

end Matches

end Blockberry
