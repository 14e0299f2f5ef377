import Blockberry.BlockStore.DiskCertificates

/-!
# Exactness of the certificate queries

The disk stores lose a certificate when its author has another one in the same round or at the same
height. The in-memory store lists a certificate twice when it gets the same height twice.
-/

namespace Blockberry

open SortSlice MemoryCertificates DiskBlockStore CertificateData

namespace CertificateStore

variable {σ κ : Type}

/-- The record of a run from a fresh store. -/
def afterCalls (api : CertificateStore σ κ) (ops : List (CertificateOp κ)) : Recorded σ κ :=
  Run.after api.record api.start ops

end CertificateStore

namespace CertificateHistory

variable {κ : Type} [CertificateData κ]

/-- What a list of calls saves and commits. -/
def ofCalls (ops : List (CertificateOp κ)) : CertificateHistory κ :=
  Run.after CertificateHistory.step .empty ops

variable (H : CertificateHistory κ)

def OnePerRound : Prop :=
  ∀ left ∈ H.saved, ∀ right ∈ H.saved, CertificateData.round left = CertificateData.round right →
    author left = author right → left = right

def OnePerHeight : Prop :=
  ∀ height left right, (height, left) ∈ H.committed → (height, right) ∈ H.committed →
    author left = author right → left = right

def AssignedOnce : Prop := H.committed.Nodup

theorem onePerAuthor_rounds_iff : OnePerAuthor H.rounds ↔ H.OnePerRound := by
  constructor
  · intro one left leftSaved right rightSaved sameRound
    have leftMember :=
      List.mem_map_of_mem (f := fun cert => (CertificateData.round cert, cert)) leftSaved
    have rightMember :=
      List.mem_map_of_mem (f := fun cert => (CertificateData.round cert, cert)) rightSaved
    rw [← sameRound] at rightMember
    exact one _ left right leftMember rightMember
  · intro one queried left right leftMember rightMember
    obtain ⟨left, leftSaved, sameLeft⟩ := List.mem_map.mp leftMember
    obtain ⟨right, rightSaved, sameRight⟩ := List.mem_map.mp rightMember
    obtain ⟨leftRound, rfl⟩ := Prod.mk.inj sameLeft
    obtain ⟨rightRound, rfl⟩ := Prod.mk.inj sameRight
    exact one left leftSaved right rightSaved (leftRound.trans rightRound.symm)

end CertificateHistory

open CertificateHistory

/-- For every list of calls, each store answers all queries exactly if and only if the
calls meet its condition. -/
theorem certificates_exact_iff {κ : Type} [CertificateData κ] (codec : CertificateCodec κ)
    (sorter : Sorter (authorRank : κ → Nat)) (ops : List (CertificateOp κ)) :
    ((MemoryCertificates.api sorter).Exact ((MemoryCertificates.api sorter).afterCalls ops) ↔
        (ofCalls ops).AssignedOnce) ∧
      ((LevelDBBlockStore.certificates codec sorter).Exact
          ((LevelDBBlockStore.certificates codec sorter).afterCalls ops) ↔
        (ofCalls ops).OnePerRound ∧ (ofCalls ops).OnePerHeight) ∧
      ((BadgerDBBlockStore.certificates codec sorter).Exact
          ((BadgerDBBlockStore.certificates codec sorter).afterCalls ops) ↔
        (ofCalls ops).OnePerRound ∧ (ofCalls ops).OnePerHeight) := by
  have inMemory := (Matches.start (implements sorter)).after
    (implements sorter) ops
  have onDisk := (Matches.start (implements_certificates codec sorter)).after
    (implements_certificates codec sorter) ops
  have diskExact := exact_certificates_iff sorter onDisk
  rw [onePerAuthor_rounds_iff] at diskExact
  exact ⟨exact_iff sorter inMemory, diskExact, diskExact⟩

/-- Two certificates of one author in one round. -/
inductive TwinCertificate where
  | first
  | second
  deriving DecidableEq, Repr

namespace TwinCertificate

instance : CertificateData TwinCertificate where
  digest
    | .first => [1]
    | .second => [2]
  round _ := 5
  author _ := 3

def codec : CertificateCodec TwinCertificate where
  marshal
    | .first => [1]
    | .second => [2]
  unmarshal
    | [1] => some .first
    | [2] => some .second
    | _ => none
  unmarshal_marshal cert := by cases cert <;> rfl

def saveBoth : List (CertificateOp TwinCertificate) :=
  [.saveCertificate (some .first), .saveCertificate (some .second)]

/-- One certificate is saved and gets a height twice. -/
def assignTwice : List (CertificateOp TwinCertificate) :=
  [.saveCertificate (some .first), .setCertificateBlockHeight [1] 4,
    .setCertificateBlockHeight [1] 4]

/-- The first of two certificates is lost on disk, and in memory a certificate is listed
twice. -/
theorem twins_not_exact :
    let memory := api (insertion (authorRank : TwinCertificate → Nat))
    let levelDB := LevelDBBlockStore.certificates codec (insertion authorRank)
    let badger := BadgerDBBlockStore.certificates codec (insertion authorRank)
    (levelDB.getCertificatesForRound (levelDB.afterCalls saveBoth).store 5 = .ok [.second] ∧
        ¬levelDB.Exact (levelDB.afterCalls saveBoth)) ∧
      (badger.getCertificatesForRound (badger.afterCalls saveBoth).store 5 = .ok [.second] ∧
        ¬badger.Exact (badger.afterCalls saveBoth)) ∧
      (memory.getCertificatesForHeight (memory.afterCalls assignTwice).store 4 =
          .ok [.first, .first] ∧
        ¬memory.Exact (memory.afterCalls assignTwice)) := by
  have onDisk : (certificates codec (insertion authorRank)).getCertificatesForRound
      ((certificates codec (insertion authorRank)).afterCalls saveBoth).store 5 =
        .ok [.second] := by decide +kernel
  have inMemory : (api (insertion authorRank)).getCertificatesForHeight
      ((api (insertion authorRank)).afterCalls assignTwice).store 4 =
        .ok [.first, .first] := by decide +kernel
  have savedFirst : TwinCertificate.first ∈ ((certificates codec
      (insertion authorRank)).afterCalls saveBoth).saved := by decide +kernel
  have lost : ¬(certificates codec (insertion authorRank)).Exact
      ((certificates codec (insertion authorRank)).afterCalls saveBoth) := by
    intro exact
    obtain ⟨certs, isOk, lists⟩ := exact.forRound 5
    have same := Except.ok.inj (onDisk.symm.trans isOk)
    have listed := (lists.mem_iff .first).mpr ⟨savedFirst, rfl⟩
    rw [← same] at listed
    exact absurd listed (by decide)
  refine ⟨⟨onDisk, lost⟩, ⟨onDisk, lost⟩, inMemory, ?_⟩
  intro exact
  obtain ⟨certs, isOk, lists⟩ := exact.forHeight 4
  have same := Except.ok.inj (inMemory.symm.trans isOk)
  have nodup := lists.nodup
  rw [← same] at nodup
  exact absurd nodup (by decide)

end TwinCertificate

end Blockberry
