import Blockberry.Handlers.Transactions

/-!
# Pending requests for transactions

Every section of the transactions reactor keeps what is pending until a note releases it, and
requests only hashes that are not pending. So a hash is requested again from a peer only after the
earlier request was answered, has expired, or the peer has disconnected.
-/

namespace Blockberry.Transactions

open FiniteMap NestedMap TransactionsReactor List Finmap Run

def Note.releases (peerID : PeerID) (hash : Bytes) : Note → Prop
  | .answered peer tx => peer = peerID ∧ tx = hash
  | .expired peer tx => peer = peerID ∧ tx = hash
  | .disconnected peer => peer = peerID
  | _ => False

section Loops

variable {maxPending now maxPendingAge : Int} {hashes : List Bytes} {hash : Bytes}
  {pending : Finmap fun _ : Bytes => Int}

theorem card_keys_pos (member : hash ∈ pending) : 0 < pending.keys.card :=
  Finset.card_pos.mpr ⟨hash, mem_keys.mpr member⟩

/-- What the loop that enters requests does. -/
structure Entered (pending : Finmap fun _ : Bytes => Int) (maxPending : Int)
    (result : List Bytes × Finmap fun _ : Bytes => Int) : Prop where
  nodup : result.1.Nodup
  fresh : ∀ hash ∈ result.1, hash ∉ pending
  entered : ∀ hash ∈ result.1, hash ∈ result.2
  kept : ∀ hash ∈ pending, hash ∈ result.2
  small : pending.keys.card ≤ maxPending → result.2.keys.card ≤ maxPending

theorem entered_nothing (maxPending : Int) (pending : Finmap fun _ : Bytes => Int) :
    Entered pending maxPending ([], pending) where
  nodup := nodup_nil
  fresh _ member := by cases member
  entered _ member := by cases member
  kept _ member := member
  small := id

theorem Entered.cons {result : List Bytes × Finmap fun _ : Bytes => Int}
    (rest : Entered (pending.insert hash now) maxPending result) (absent : hash ∉ pending)
    (room : ¬maxPending ≤ pending.keys.card) :
    Entered pending maxPending (hash :: result.1, result.2) where
  nodup := by
    refine nodup_cons.mpr ⟨fun again => ?_, rest.nodup⟩
    exact rest.fresh hash again (mem_insert.mpr (Or.inl rfl))
  fresh query member := by
    rcases mem_cons.mp member with rfl | later
    · exact absent
    · exact fun before => rest.fresh query later (mem_insert.mpr (Or.inr before))
  entered query member := by
    rcases mem_cons.mp member with rfl | later
    · exact rest.kept query (mem_insert.mpr (Or.inl rfl))
    · exact rest.entered query later
  kept query before := rest.kept query (mem_insert.mpr (Or.inr before))
  small _ := by
    apply rest.small
    rw [card_keys_insert absent, Int.natCast_succ]
    exact Int.add_one_le_iff.mpr (Int.not_le.mp room)

theorem entered_addPending (maxPending now : Int) (hashes : List Bytes)
    (pending : Finmap fun _ : Bytes => Int) :
    Entered pending maxPending (addPending maxPending now hashes pending) := by
  induction hashes generalizing pending with
  | nil => exact entered_nothing maxPending pending
  | cons hash hashes ih =>
    rw [addPending]
    split
    next => exact entered_nothing maxPending pending
    next room =>
      split
      next => exact ih pending
      next absent => exact (ih (pending.insert hash now)).cons absent room

/-- A request is pending after the loop if there was anything to enter. -/
theorem card_addPending_pos (positive : 0 < maxPending) (nonempty : hashes ≠ []) :
    0 < (addPending maxPending now hashes pending).2.keys.card := by
  cases hashes with
  | nil => exact absurd rfl nonempty
  | cons hash hashes =>
    rw [addPending]
    split
    next full => exact Int.natCast_pos.mp (positive.trans_le full)
    split
    next present =>
      exact card_keys_pos ((entered_addPending maxPending now hashes pending).kept hash present)
    next =>
      exact card_keys_pos ((entered_addPending maxPending now hashes _).kept hash
        (mem_insert.mpr (Or.inl rfl)))

/-- What the loop that deletes old requests does. -/
structure Reduced (pending : Finmap fun _ : Bytes => Int)
    (result : List Bytes × Finmap fun _ : Bytes => Int) : Prop where
  kept : ∀ hash ∈ pending, hash ∉ result.1 → hash ∈ result.2
  smaller : result.2.keys ⊆ pending.keys

theorem reduced_expire (now maxPendingAge : Int) (hashes : List Bytes)
    (pending : Finmap fun _ : Bytes => Int) :
    Reduced pending (expire now maxPendingAge hashes pending) := by
  induction hashes generalizing pending with
  | nil => exact ⟨fun _ member _ => member, subset_rfl⟩
  | cons hash hashes ih =>
    rw [expire]
    split
    next =>
      obtain ⟨kept, smaller⟩ := ih (pending.erase hash)
      constructor
      · intro query member stays
        have different : query ≠ hash := fun same => stays (same ▸ mem_cons_self)
        exact kept query (mem_erase.mpr ⟨different, member⟩)
          fun later => stays (mem_cons_of_mem hash later)
      · rw [keys_erase] at smaller
        exact smaller.trans (Finset.erase_subset hash pending.keys)
    next => exact ih pending

end Loops

/-! ## What a section does -/

variable {hashTx : Bytes → Bytes} {r next last : TransactionsReactor} {notes later : List Note}
  {peerID : PeerID} {hash : Bytes} {hashes : List Bytes}

def TransactionsReactor.Pending (r : TransactionsReactor) (peerID : PeerID) (hash : Bytes) : Prop :=
  Holds r.pendingRequests peerID hash

/-- A section keeps what no note of it releases, and the size of the inner maps. -/
structure Keeps (r : TransactionsReactor) (notes : List Note) (next : TransactionsReactor) :
    Prop where
  limit : next.maxPending = r.maxPending
  sized : 0 < r.maxPending → Sized r.maxPending r.pendingRequests →
    Sized r.maxPending next.pendingRequests
  pending : ∀ peerID hash, r.Pending peerID hash → (∀ note ∈ notes, ¬note.releases peerID hash) →
    next.Pending peerID hash

theorem Keeps.refl (r : TransactionsReactor) (notes : List Note) : Keeps r notes r :=
  ⟨rfl, fun _ sized => sized, fun _ _ pending _ => pending⟩

theorem Keeps.trans (first : Keeps r notes next) (second : Keeps next later last) :
    Keeps r (notes ++ later) last where
  limit := second.limit.trans first.limit
  sized positive sized := by
    have between := first.sized positive sized
    rw [← first.limit] at positive between ⊢
    exact second.sized positive between
  pending peerID hash pending unreleased := by
    apply second.pending peerID hash
    · exact first.pending peerID hash pending fun note made =>
        unreleased note (mem_append_left later made)
    · exact fun note made => unreleased note (mem_append_right notes made)

theorem keeps_onPeerDisconnected (r : TransactionsReactor) (peerID : PeerID) :
    Keeps r [.disconnected peerID] (r.onPeerDisconnected peerID) where
  limit := rfl
  sized _ sized := sized.erase peerID
  pending _ _ pending unreleased := pending.erase_of_ne (unreleased _ mem_cons_self)

/-- An inner map that has only lost what the notes release is put back. -/
theorem keeps_putBack {pending kept : Finmap fun _ : Bytes => Int}
    (isPending : r.pendingRequests.lookup peerID = some pending)
    (smaller : kept.keys ⊆ pending.keys)
    (stays : ∀ hash ∈ pending, (∀ note ∈ notes, ¬note.releases peerID hash) → hash ∈ kept) :
    Keeps r notes { r with pendingRequests := putBack r.pendingRequests peerID kept } where
  limit := rfl
  sized _ sized := by
    have fewer := Finset.card_le_card smaller
    exact sized.putBack ((Int.ofNat_le.mpr fewer).trans (sized peerID pending isPending).2)
  pending other query holds unreleased := by
    by_cases same : peerID = other
    · obtain ⟨found, isFound, member⟩ := holds
      rw [← same] at isFound unreleased ⊢
      rw [isPending] at isFound
      cases isFound
      exact holds_putBack_of_mem (stays query member unreleased)
    · exact holds.putBack_of_ne same

theorem keeps_clearPendingRequest (r : TransactionsReactor) (peerID : PeerID) (hash : Bytes)
    (notes : List Note) :
    Keeps r (.answered peerID hash :: notes) (r.clearPendingRequest peerID hash) := by
  rw [clearPendingRequest]
  split
  next => exact Keeps.refl r _
  next pending isPending =>
    apply keeps_putBack isPending
    · rw [keys_erase]
      exact Finset.erase_subset hash pending.keys
    · intro query member unreleased
      refine mem_erase.mpr ⟨fun same => ?_, member⟩
      exact unreleased _ mem_cons_self ⟨rfl, same.symm⟩

theorem keeps_cleanupPeer (r : TransactionsReactor) (now : Int) (peerID : PeerID)
    (hashes : List Bytes) :
    Keeps r (r.cleanupPeer now peerID hashes).2 (r.cleanupPeer now peerID hashes).1 := by
  rw [cleanupPeer]
  split
  next => exact Keeps.refl r _
  next pending isPending =>
    have reduced := reduced_expire now r.maxPendingAge hashes pending
    apply keeps_putBack isPending reduced.smaller
    intro query member unreleased
    refine reduced.kept query member fun expired => ?_
    exact unreleased _ (mem_map_of_mem expired) ⟨rfl, rfl⟩

theorem keeps_cleanupStaleRequests (now : Int) (r : TransactionsReactor)
    (order : List (PeerID × List Bytes)) :
    Keeps r (r.cleanupStaleRequests now order).2 (r.cleanupStaleRequests now order).1 := by
  induction order generalizing r with
  | nil => exact Keeps.refl r []
  | cons entry order ih =>
    exact (keeps_cleanupPeer r now entry.1 entry.2).trans (ih _)

theorem keeps_answerTx (hashTx : Bytes → Bytes) (r : TransactionsReactor) (env : Env)
    (peerID : PeerID) (tx : TransactionData) :
    Keeps r (r.answerTx hashTx env peerID tx).2 (r.answerTx hashTx env peerID tx).1 := by
  rw [answerTx]
  split
  next => exact Keeps.refl r _
  next =>
    split
    next => exact Keeps.refl r _
    next => exact keeps_clearPendingRequest r peerID tx.hash _

theorem keeps_trackRequests (r : TransactionsReactor) (now : Int) (peerID : PeerID)
    (nonempty : hashes ≠ []) (notes : List Note) :
    Keeps r notes (r.trackRequests now peerID hashes).1 := by
  have entered := entered_addPending r.maxPending now hashes
    ((r.pendingRequests.lookup peerID).getD ∅)
  refine ⟨rfl, fun positive sized => sized.insert (card_addPending_pos positive nonempty) ?_, ?_⟩
  · apply entered.small
    cases isPending : r.pendingRequests.lookup peerID with
    | none => exact positive.le
    | some pending => exact (sized peerID pending isPending).2
  · intro other query holds _
    by_cases same : peerID = other
    · obtain ⟨found, isFound, member⟩ := holds
      rw [← same] at isFound ⊢
      apply holds_insert_of_mem
      apply entered.kept
      rw [isFound]
      exact member
    · exact holds.insert_of_ne same

/-! ## What an event does -/

/-- Notes that are neither a request nor its sending. -/
def Note.plain : Note → Prop
  | .requested _ _ => False
  | .sendTransactionDataRequest _ _ => False
  | _ => True

/-- The hashes of a request were not pending and are so now. -/
structure Requests (r : TransactionsReactor) (next : TransactionsReactor) (peerID : PeerID)
    (hashes : List Bytes) : Prop where
  nodup : hashes.Nodup
  fresh : ∀ hash ∈ hashes, ¬r.Pending peerID hash
  pending : ∀ hash ∈ hashes, next.Pending peerID hash

theorem requests_trackRequests (r : TransactionsReactor) (now : Int) (peerID : PeerID)
    (hashes : List Bytes) :
    Requests r (r.trackRequests now peerID hashes).1 peerID
      (r.trackRequests now peerID hashes).2 := by
  have entered := entered_addPending r.maxPending now hashes
    ((r.pendingRequests.lookup peerID).getD ∅)
  refine ⟨entered.nodup, ?_, ?_⟩
  · rintro hash member ⟨found, isFound, pending⟩
    have absent := entered.fresh hash member
    rw [isFound] at absent
    exact absent pending
  · exact fun hash member => holds_insert_of_mem (entered.entered hash member)

/-- What a section can do, given the handlers that are between two sections. -/
inductive Progress (tasks : List Suspended) (r : TransactionsReactor) : Outcome → Prop where
  | quiet {outcome : Outcome} (keeps : Keeps r outcome.notes outcome.reactor)
      (plain : ∀ note ∈ outcome.notes, note.plain)
      (noSending : ∀ peerID hashes, outcome.suspended ≠ some (.sending peerID hashes)) :
      Progress tasks r outcome
  | requests {next : TransactionsReactor} {peerID : PeerID} {hashes : List Bytes}
      (keeps : Keeps r [.requested peerID hashes] next)
      (requests : Requests r next peerID hashes) :
      Progress tasks r ⟨next, [.requested peerID hashes], some (.sending peerID hashes)⟩
  | sends {peerID : PeerID} {hashes : List Bytes} {err : Option HandlerError}
      (requested : .sending peerID hashes ∈ tasks) :
      Progress tasks r ⟨r, [.sendTransactionDataRequest peerID hashes, .returned err], none⟩

variable {tasks : List Suspended} {outcome : Outcome}

theorem Progress.keeps
    (progress : Progress tasks r outcome) : Keeps r outcome.notes outcome.reactor := by
  cases progress with
  | quiet keeps plain noSending | requests keeps requests => exact keeps
  | sends requested => exact Keeps.refl r _

theorem Progress.requests_of_mem
    (progress : Progress tasks r outcome) (made : .requested peerID hashes ∈ outcome.notes) :
    Requests r outcome.reactor peerID hashes := by
  cases progress with
  | quiet keeps plain noSending => exact (plain _ made).elim
  | requests keeps requests =>
    cases mem_singleton.mp made
    exact requests
  | sends requested => simp at made

theorem Progress.requested_of_sending (progress : Progress tasks r outcome)
    (isSending : .sending peerID hashes ∈ outcome.suspended.toList) :
    .requested peerID hashes ∈ outcome.notes := by
  have suspended := Option.mem_toList.mp isSending
  cases progress with
  | quiet keeps plain noSending => exact absurd suspended (noSending peerID hashes)
  | requests keeps requests =>
    cases suspended
    exact mem_cons_self
  | sends requested => cases suspended

theorem progress_returned (err : Option HandlerError) :
    Progress tasks r { reactor := r, notes := [.returned err] } := by
  refine .quiet (Keeps.refl r _) ?_ fun _ _ same => by cases same
  intro note made
  rw [mem_singleton.mp made]
  trivial

theorem progress_suspended {task : Suspended}
    (noSending : ∀ peerID hashes, task ≠ .sending peerID hashes) :
    Progress tasks r { reactor := r, suspended := some task } := by
  refine .quiet (Keeps.refl r _) (fun _ made => by cases made) ?_
  intro peerID hashes same
  exact noSending peerID hashes (Option.some.inj same)

variable {note : Note}

theorem plain_of_penalize {message : String}
    (made : note ∈ r.penalize peerID message) : note.plain := by
  rw [penalize] at made
  split at made
  next =>
    rw [mem_singleton.mp made]
    trivial
  next => cases made

theorem plain_of_answerTx {env : Env} {tx : TransactionData}
    (made : note ∈ (r.answerTx hashTx env peerID tx).2) : note.plain := by
  rw [answerTx] at made
  split at made
  next => cases made
  split at made
  next => exact plain_of_penalize made
  rcases mem_cons.mp made with rfl | accepted
  · trivial
  · rw [acceptTx] at accepted
    split at accepted
    next => exact plain_of_penalize accepted
    rcases mem_cons.mp accepted with rfl | marked
    · trivial
    · split at marked
      next =>
        rw [mem_singleton.mp marked]
        trivial
      next => cases marked

theorem plain_of_cleanupPeer {now : Int}
    (made : note ∈ (r.cleanupPeer now peerID hashes).2) : note.plain := by
  rw [cleanupPeer] at made
  split at made
  next => cases made
  next =>
    obtain ⟨hash, -, rfl⟩ := mem_map.mp made
    trivial

theorem plain_of_cleanupStaleRequests {now : Int} {order : List (PeerID × List Bytes)}
    (made : note ∈ (r.cleanupStaleRequests now order).2) : note.plain := by
  induction order generalizing r with
  | nil => cases made
  | cons entry order ih =>
    rcases mem_append.mp made with first | later
    · exact plain_of_cleanupPeer first
    · exact ih later

theorem progress_resume {env : Env} {task : Suspended}
    (member : task ∈ tasks) : Progress tasks r (r.resume hashTx env task) := by
  cases task with
  | checking peerID hashes missing =>
    cases hashes with
    | nil =>
      rw [resume]
      split
      next => exact progress_suspended fun _ _ same => by cases same
      next => exact progress_returned none
    | cons hash hashes => exact progress_suspended fun _ _ same => by cases same
  | requesting peerID missing nonempty =>
    rw [resume]
    split
    next => exact progress_returned none
    dsimp only
    split
    next =>
      refine .quiet (keeps_trackRequests r env.now peerID nonempty _) ?_
        fun _ _ same => by cases same
      intro note made
      rw [mem_singleton.mp made]
      trivial
    next =>
      exact .requests (keeps_trackRequests r env.now peerID nonempty _)
        (requests_trackRequests r env.now peerID missing)
  | sending peerID toRequest =>
    rw [resume]
    split
    next => exact progress_returned _
    next => exact .sends member
  | answering peerID transactions =>
    cases transactions with
    | nil => exact progress_returned none
    | cons tx transactions =>
      exact .quiet (keeps_answerTx hashTx r env peerID tx) (fun _ => plain_of_answerTx)
        fun _ _ same => by cases same

theorem progress_outcome (hashTx : Bytes → Bytes) (sys : System) (event : Event) :
    Progress sys.tasks sys.reactor (event.outcome hashTx sys) := by
  cases event with
  | handleTransactionsResponse peerID response =>
    rw [Event.outcome]
    unfold handleTransactionsResponse
    split
    next => exact progress_returned _
    next =>
      split
      next => exact progress_returned none
      next => exact progress_suspended fun _ _ same => by cases same
  | handleTransactionDataResponse peerID response =>
    rw [Event.outcome]
    unfold handleTransactionDataResponse
    split
    next => exact progress_returned _
    next =>
      split
      next => exact progress_returned none
      next => exact progress_suspended fun _ _ same => by cases same
  | cleanupStaleRequests now order =>
    exact .quiet (keeps_cleanupStaleRequests now sys.reactor order)
      (fun _ => plain_of_cleanupStaleRequests) fun _ _ same => by cases same
  | onPeerDisconnected peerID =>
    refine .quiet (keeps_onPeerDisconnected sys.reactor peerID) ?_ fun _ _ same => by cases same
    intro note made
    rw [mem_singleton.mp made]
    trivial
  | resume position env =>
    rw [Event.outcome]
    split
    next task isTask => exact progress_resume (mem_of_getElem? isTask)
    next =>
      exact .quiet (Keeps.refl _ _) (fun _ made => by cases made) fun _ _ same => by cases same

section Runs

variable {log : List Note} {sys : System}

/-- A request of the hash that nothing has released since. -/
def Outstanding (log : List Note) (peerID : PeerID) (hash : Bytes) : Prop :=
  ∃ before hashes between, log = before ++ .requested peerID hashes :: between ∧ hash ∈ hashes ∧
    ∀ note ∈ between, ¬note.releases peerID hash

/-- A hash is requested if no request of it is outstanding, and what is sent was requested. -/
def Justified (before : List Note) : Note → Prop
  | .requested peerID hashes => hashes.Nodup ∧ ∀ hash ∈ hashes, ¬Outstanding before peerID hash
  | .sendTransactionDataRequest peerID hashes => .requested peerID hashes ∈ before
  | _ => True

theorem justified_of_plain {note : Note} (plain : note.plain) (before : List Note) :
    Justified before note := by
  cases note with
  | requested | sendTransactionDataRequest => exact plain.elim
  | _ => trivial

theorem outstanding_of_append (outstanding : Outstanding (log ++ notes) peerID hash) :
    (Outstanding log peerID hash ∧ ∀ note ∈ notes, ¬note.releases peerID hash) ∨
      ∃ hashes, .requested peerID hashes ∈ notes ∧ hash ∈ hashes := by
  obtain ⟨before, hashes, between, split, member, unreleased⟩ := outstanding
  rcases append_eq_append_iff.mp split with ⟨middle, -, isNotes⟩ | ⟨middle, isLog, isRest⟩
  · exact Or.inr ⟨hashes, by rw [isNotes]; simp, member⟩
  · cases middle with
    | nil => exact Or.inr ⟨hashes, by rw [← nil_append notes, ← isRest]; simp, member⟩
    | cons head middle =>
      obtain ⟨rfl, isBetween⟩ := cons_eq_cons.mp isRest
      rw [isBetween] at unreleased
      refine Or.inl ⟨⟨before, hashes, middle, isLog, member, ?_⟩, ?_⟩
      · exact fun note made => unreleased note (mem_append_left notes made)
      · exact fun note made => unreleased note (mem_append_right middle made)

/-- The state of the reactor and its log. -/
structure Accounted (bound : Int) (sys : System) (log : List Note) : Prop where
  limit : sys.reactor.maxPending = bound
  sized : Sized bound sys.reactor.pendingRequests
  outstanding : ∀ peerID hash, Outstanding log peerID hash → sys.reactor.Pending peerID hash
  sending : ∀ peerID hashes, .sending peerID hashes ∈ sys.tasks → .requested peerID hashes ∈ log
  causal : Log.Causal Justified log

variable {bound : Int}

theorem mem_tasks_of_others {event : Event} {task : Suspended}
    (member : task ∈ event.others sys) : task ∈ sys.tasks := by
  cases event with
  | resume position env => exact mem_of_mem_eraseIdx member
  | _ => exact member

theorem Accounted.causal_append (accounted : Accounted bound sys log) {outcome : Outcome}
    (progress : Progress sys.tasks sys.reactor outcome) :
    Log.Causal Justified (log ++ outcome.notes) := by
  apply accounted.causal.append
  intro first entry rest split
  have member : entry ∈ outcome.notes := by
    rw [split]
    exact mem_append_right first mem_cons_self
  cases progress with
  | quiet keeps plain noSending => exact justified_of_plain (plain entry member) _
  | requests keeps requests =>
    cases first with
    | nil =>
      cases split
      refine ⟨requests.nodup, fun hash asked outstanding => ?_⟩
      rw [append_nil] at outstanding
      exact requests.fresh hash asked (accounted.outstanding _ hash outstanding)
    | cons head first => simp at split
  | @sends peerID hashes err requested =>
    rcases mem_cons.mp member with rfl | returned
    · exact mem_append_left first (accounted.sending peerID hashes requested)
    · rw [mem_singleton.mp returned]
      trivial

theorem Accounted.step (positive : 0 < bound) (accounted : Accounted bound sys log)
    (event : Event) :
    Accounted bound (step hashTx sys event) (log ++ emit hashTx sys event) := by
  have progress := progress_outcome hashTx sys event
  have keeps := progress.keeps
  refine ⟨keeps.limit.trans accounted.limit, ?_, ?_, ?_, accounted.causal_append progress⟩
  · have sized := accounted.sized
    rw [← accounted.limit] at positive sized ⊢
    exact keeps.sized positive sized
  · intro peerID hash outstanding
    rcases outstanding_of_append outstanding with ⟨before, unreleased⟩ | ⟨hashes, made, member⟩
    · exact keeps.pending peerID hash (accounted.outstanding peerID hash before) unreleased
    · exact (progress.requests_of_mem made).pending hash member
  · intro peerID hashes member
    rcases mem_append.mp member with waiting | suspended
    · exact mem_append_left _ (accounted.sending peerID hashes (mem_tasks_of_others waiting))
    · exact mem_append_right log (progress.requested_of_sending suspended)

structure Disciplined (hashTx : Bytes → Bytes) (start : System) (events : List Event) : Prop where
  sized : Sized (after (step hashTx) start events).reactor.maxPending
    (after (step hashTx) start events).reactor.pendingRequests
  fresh : EveryStep (step hashTx)
    (fun sys event => ∀ peerID hashes, .requested peerID hashes ∈ emit hashTx sys event →
      hashes.Nodup ∧ ∀ hash ∈ hashes, ¬sys.reactor.Pending peerID hash) start events
  released : ∀ first peerID hashes second again third,
    trace (step hashTx) (emit hashTx) start events =
        first ++ .requested peerID hashes :: second ++ .requested peerID again :: third →
      ∀ hash ∈ hashes, hash ∈ again → ∃ note ∈ second, note.releases peerID hash
  sent : ∀ before peerID hashes after,
    trace (step hashTx) (emit hashTx) start events =
        before ++ .sendTransactionDataRequest peerID hashes :: after →
      .requested peerID hashes ∈ before

theorem accounted_new (mempoolSet networkSet peerManagerSet : Bool) :
    Accounted 100 ⟨newTransactionsReactor mempoolSet networkSet peerManagerSet, []⟩ [] where
  limit := rfl
  sized := sized_empty
  outstanding _ _ outstanding := by
    obtain ⟨before, hashes, between, split, -⟩ := outstanding
    simp at split
  sending _ _ member := by cases member
  causal := Log.causal_nil

theorem accounted_of_run (hashTx : Bytes → Bytes) (mempoolSet networkSet peerManagerSet : Bool)
    (events : List Event) :
    let start : System := ⟨newTransactionsReactor mempoolSet networkSet peerManagerSet, []⟩
    Accounted 100 (after (step hashTx) start events)
      (trace (step hashTx) (emit hashTx) start events) :=
  @invariant_trace _ _ _ (step hashTx) (emit hashTx) _ (Accounted 100) events []
    (accounted_new mempoolSet networkSet peerManagerSet)
    fun _ _ event accounted => accounted.step (by decide) event

theorem every_request_fresh (hashTx : Bytes → Bytes) (start : System) (events : List Event) :
    EveryStep (step hashTx)
      (fun sys event => ∀ peerID hashes, .requested peerID hashes ∈ emit hashTx sys event →
        hashes.Nodup ∧ ∀ hash ∈ hashes, ¬sys.reactor.Pending peerID hash) start events := by
  refine everyStep_of_forall ?_ events
  intro sys event peerID hashes made
  have requests := (progress_outcome hashTx sys event).requests_of_mem made
  exact ⟨requests.nodup, requests.fresh⟩

/-- Every run of the transactions reactor is disciplined. -/
theorem disciplined_of_run (hashTx : Bytes → Bytes)
    (mempoolSet networkSet peerManagerSet : Bool) (events : List Event) :
    Disciplined hashTx ⟨newTransactionsReactor mempoolSet networkSet peerManagerSet, []⟩
      events := by
  have accounted := accounted_of_run hashTx mempoolSet networkSet peerManagerSet events
  refine ⟨?_, every_request_fresh hashTx _ events, ?_, ?_⟩
  · rw [accounted.limit]
    exact accounted.sized
  · intro first peerID hashes second again third split hash asked askedAgain
    by_contra unreleased
    have justified := accounted.causal _ _ _ split
    refine justified.2 hash askedAgain ⟨first, hashes, second, rfl, asked, ?_⟩
    exact fun note made releases => unreleased ⟨note, made, releases⟩
  · intro before peerID hashes after split
    exact accounted.causal before _ after split

/-- A response that names a hash twice leads to one request of it. -/
example :
    let env : Env := ⟨0, fun _ => false, fun _ => false, none, none⟩
    trace (step id) (emit id) ⟨newTransactionsReactor true true true, []⟩
        (.handleTransactionsResponse "peer" (some [[1], [1], [2]]) ::
          List.replicate 6 (.resume 0 env)) =
      [.requested "peer" [[1], [2]], .sendTransactionDataRequest "peer" [[1], [2]],
        .returned none] := by
  decide +kernel

end Runs

end Blockberry.Transactions
