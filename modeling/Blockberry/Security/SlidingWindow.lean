import Blockberry.Lib.FiniteMap
import Blockberry.Lib.Machine
import Blockberry.Lib.Run
import Blockberry.Lib.Window

/-!
# The sliding window limiter

`SlidingWindowLimiter` keeps, for each key, the requests it granted and their total. A call first
takes off what has left the window, in one pass that looks for the first live entry. Where it finds
none, the expired entries are taken off the total and stay in the lists, so that the next pass
takes them off again. The limiter keeps to its rate in exactly the runs in which this has no effect
and no sum leaves the machine word.
-/

namespace Blockberry.Security

open FiniteMap Machine Window List

structure RateLimiterConfig where
  rate : Int64
  interval : Int
  rate_nonneg : 0 ≤ rate.toInt
  interval_pos : 0 < interval

/-- A granted request: one place of `counts` and of `timestamps`, which grow and are cut
together. -/
structure Entry where
  timestamp : Int
  count : Int64
  deriving DecidableEq, Repr

namespace Entry

abbrev amount (entry : Entry) : Int := entry.count.toInt

end Entry

open Entry

structure SlidingWindow where
  entries : List Entry
  total : Int64
  deriving DecidableEq, Repr

namespace SlidingWindow

def empty : SlidingWindow := ⟨[], 0⟩

def counts (w : SlidingWindow) : List Int64 := w.entries.map (·.count)

/-- The loop over the timestamps from index `i`: the first live index, or `0`, and what is left
of the total. -/
def findValid (cutoff : Int) : List Entry → Nat → Int64 → Nat × Int64
  | [], _, total => (0, total)
  | entry :: entries, i, total =>
    if cutoff < entry.timestamp then (i, total)
    else findValid cutoff entries (i + 1) (total - entry.count)

/-- The step "Remove expired entries" of `AllowN`. -/
def removeExpired (cutoff : Int) (w : SlidingWindow) : SlidingWindow :=
  let (validIdx, total) := findValid cutoff w.entries 0 w.total
  { entries := if 0 < validIdx then w.entries.drop validIdx else w.entries
    total }

/-- The rest of `AllowN`. -/
def tryAdd (cfg : RateLimiterConfig) (now : Int) (n : Int64) (w : SlidingWindow) :
    SlidingWindow × Bool :=
  if cfg.rate < w.total + n then (w, false)
  else ({ entries := w.entries ++ [⟨now, n⟩], total := w.total + n }, true)

def allowN (cfg : RateLimiterConfig) (now : Int) (n : Int64) (w : SlidingWindow) :
    SlidingWindow × Bool :=
  (w.removeExpired (now - cfg.interval)).tryAdd cfg now n

end SlidingWindow

open SlidingWindow

structure SlidingWindowLimiter where
  windows : Finmap fun _ : String => SlidingWindow

namespace SlidingWindowLimiter

/-- The window of a key, new where there is none. -/
def window (l : SlidingWindowLimiter) (key : String) : SlidingWindow :=
  valueOr .empty l.windows key

def allowN (cfg : RateLimiterConfig) (now : Int) (key : String) (n : Int64)
    (l : SlidingWindowLimiter) : SlidingWindowLimiter × Bool :=
  let (w, allowed) := (l.window key).allowN cfg now n
  (⟨l.windows.insert key w⟩, allowed)

def cleanupStale (l : SlidingWindowLimiter) : SlidingWindowLimiter :=
  ⟨filterValues (fun w => !(w.total == 0 && w.entries.length == 0)) l.windows⟩

end SlidingWindowLimiter

open SlidingWindowLimiter

/-- A request for `n` events under a key, or a tick of the cleanup. -/
inductive LimiterCall where
  | allowN (key : String) (n : Int64) (nonneg : 0 ≤ n.toInt)
  | cleanupStale

/-- A call and the time since the one before. -/
structure LimiterEvent where
  elapsed : Nat
  call : LimiterCall

/-- A limiter, the clock, and the requests granted so far with their keys. -/
structure Limited where
  limiter : SlidingWindowLimiter
  now : Int
  granted : List (String × Entry)

namespace Limited

def init (now : Int) : Limited := ⟨⟨∅⟩, now, []⟩

/-- The requests granted under a key, oldest first. -/
def log (s : Limited) (key : String) : List Entry :=
  (s.granted.filter (·.1 = key)).map (·.2)

def step (cfg : RateLimiterConfig) (s : Limited) (event : LimiterEvent) : Limited :=
  let now := s.now + event.elapsed
  match event.call with
  | .allowN key n _ =>
    let (limiter, allowed) := s.limiter.allowN cfg now key n
    { limiter, now
      granted := if allowed then s.granted ++ [(key, ⟨now, n⟩)] else s.granted }
  | .cleanupStale => { s with limiter := s.limiter.cleanupStale, now }

end Limited

namespace SlidingWindow

/-- The total is the sum of the counts. -/
def Exact (w : SlidingWindow) : Prop := w.total.toInt = exactSum w.counts

/-- What has not left the window. -/
def live (cutoff : Int) (w : SlidingWindow) : Int :=
  Window.since timestamp amount cutoff w.entries

variable {w : SlidingWindow} {cutoff : Int}

theorem exactSum_counts : exactSum w.counts = (w.entries.map amount).sum := by
  rw [counts, exactSum, map_map]
  rfl

theorem findValid_append {old : List Entry} (expired : ∀ entry ∈ old, entry.timestamp ≤ cutoff)
    (rest : List Entry) (i : Nat) (total : Int64) :
    findValid cutoff (old ++ rest) i total =
      findValid cutoff rest (i + old.length) ((old.map (·.count)).foldl (· - ·) total) := by
  induction old generalizing i total with
  | nil => rfl
  | cons entry old ih =>
    have first := expired entry mem_cons_self
    rw [cons_append, findValid, if_neg (by omega),
      ih fun other member => expired other (mem_cons_of_mem _ member)]
    simp only [length_cons, map_cons, foldl_cons]
    congr 1
    omega

theorem removeExpired_of_none (expired : ∀ entry ∈ w.entries, entry.timestamp ≤ cutoff) :
    w.removeExpired cutoff = { w with total := w.counts.foldl (· - ·) w.total } := by
  have none := findValid_append expired [] 0 w.total
  rw [append_nil] at none
  rw [removeExpired, none]
  rfl

theorem removeExpired_of_live {old rest : List Entry} {entry : Entry}
    (split : w.entries = old ++ entry :: rest)
    (expired : ∀ entry ∈ old, entry.timestamp ≤ cutoff) (live : cutoff < entry.timestamp) :
    w.removeExpired cutoff =
      { entries := entry :: rest, total := (old.map (·.count)).foldl (· - ·) w.total } := by
  rw [removeExpired, split, findValid_append expired, findValid, if_pos live]
  cases old with
  | nil => rfl
  | cons first old => simp

theorem mem_removeExpired {entry : Entry} (member : entry ∈ (w.removeExpired cutoff).entries) :
    entry ∈ w.entries := by
  rw [removeExpired] at member
  dsimp only at member
  split at member
  next => exact mem_of_mem_drop member
  next => exact member

/-- Taking off what has expired leaves the total of the live entries, whatever is cut. -/
theorem total_foldl_sub (exact : w.Exact) (nonneg : ∀ entry ∈ w.entries, 0 ≤ entry.amount)
    {old rest : List Entry} (split : w.entries = old ++ rest) :
    ((old.map (·.count)).foldl (· - ·) w.total).toInt = (rest.map amount).sum := by
  have whole : w.total.toInt = (old.map amount).sum + (rest.map amount).sum := by
    rw [exact, exactSum_counts, split, map_append, sum_append]
  have front : exactSum (old.map (·.count)) = (old.map amount).sum := by
    rw [exactSum, map_map]
    rfl
  have left : w.total.toInt - exactSum (old.map (·.count)) = (rest.map amount).sum := by
    rw [front, whole]
    omega
  have frontNonneg : 0 ≤ (old.map amount).sum := by
    apply sum_nonneg
    intro value member
    obtain ⟨entry, inOld, rfl⟩ := mem_map.mp member
    exact nonneg entry (split ▸ mem_append_left _ inOld)
  have restNonneg : 0 ≤ (rest.map amount).sum := by
    apply sum_nonneg
    intro value member
    obtain ⟨entry, inRest, rfl⟩ := mem_map.mp member
    exact nonneg entry (split ▸ mem_append_right _ inRest)
  have bound := w.total.toInt_lt
  rw [toInt_foldl_sub, left]
  exact wrap_of_inRange ⟨by omega, by omega⟩

end SlidingWindow

/-- What there is to know about the window of a key and the requests granted under it. -/
structure Accounts (cfg : RateLimiterConfig) (now : Int) (w : SlidingWindow) (log : List Entry) :
    Prop where
  exact : w.Exact
  ordered : log.Pairwise fun earlier later => earlier.timestamp ≤ later.timestamp
  past : ∀ entry ∈ log, entry.timestamp ≤ now
  nonneg : ∀ entry ∈ log, 0 ≤ entry.amount
  dropped : ∃ old, log = old ++ w.entries ∧ ∀ entry ∈ old, entry.timestamp ≤ now - cfg.interval
  bounded : Window.Bounded timestamp amount cfg.interval cfg.rate.toInt log

/-- A call finds a live entry, or nothing to take off, and the live total and the request
together fit in a machine word. -/
structure Accountable (cfg : RateLimiterConfig) (now : Int) (n : Int64) (w : SlidingWindow) :
    Prop where
  stops : (∃ entry ∈ w.entries, now - cfg.interval < entry.timestamp) ∨ exactSum w.counts = 0
  fits : w.live (now - cfg.interval) + n.toInt < 2 ^ 63

namespace Accounts

variable {cfg : RateLimiterConfig} {now : Int} {w : SlidingWindow} {log : List Entry} {n : Int64}
  (accounts : Accounts cfg now w log)

include accounts

theorem mono {later : Int} (le : now ≤ later) : Accounts cfg later w log where
  exact := accounts.exact
  ordered := accounts.ordered
  past entry member := (accounts.past entry member).trans le
  nonneg := accounts.nonneg
  dropped := by
    obtain ⟨old, split, expired⟩ := accounts.dropped
    exact ⟨old, split, fun entry member => (expired entry member).trans (by omega)⟩
  bounded := accounts.bounded

theorem mem_log {entry : Entry} (member : entry ∈ w.entries) : entry ∈ log := by
  obtain ⟨old, split, -⟩ := accounts.dropped
  exact split ▸ mem_append_right _ member

theorem since_log : since timestamp amount (now - cfg.interval) log =
      w.live (now - cfg.interval) := by
  obtain ⟨old, split, expired⟩ := accounts.dropped
  rw [split, since_append, since_eq_zero expired, zero_add]
  rfl

/-- The entries in front that have expired, and the others, which make up the live total. -/
theorem exists_split (cutoff : Int) :
    ∃ old rest, w.entries = old ++ rest ∧ (∀ entry ∈ old, entry.timestamp ≤ cutoff) ∧
      (∀ entry ∈ rest, cutoff < entry.timestamp) ∧
      w.live cutoff = (rest.map amount).sum := by
  obtain ⟨front, whole, -⟩ := accounts.dropped
  have ordered : w.entries.Pairwise fun earlier later => earlier.timestamp ≤ later.timestamp :=
    (whole ▸ accounts.ordered).sublist (sublist_append_right _ _)
  obtain ⟨old, rest, split, expired, live⟩ := Window.exists_split cutoff ordered
  refine ⟨old, rest, split, expired, live, ?_⟩
  rw [SlidingWindow.live, split, since_append, since_eq_zero expired, zero_add, since_eq_sum live]

theorem total_removeExpired (cutoff : Int) :
    (w.removeExpired cutoff).total.toInt = w.live cutoff := by
  obtain ⟨old, rest, split, expired, live, liveSum⟩ := accounts.exists_split cutoff
  have nonneg : ∀ entry ∈ w.entries, 0 ≤ entry.amount :=
    fun entry member => accounts.nonneg entry (accounts.mem_log member)
  rw [liveSum, ← total_foldl_sub accounts.exact nonneg split]
  cases rest with
  | nil =>
    rw [append_nil] at split
    rw [removeExpired_of_none (split ▸ expired), counts, split]
  | cons entry rest =>
    rw [removeExpired_of_live split expired (live entry mem_cons_self)]

theorem removeExpired (stops : (∃ entry ∈ w.entries, now - cfg.interval < entry.timestamp) ∨
      exactSum w.counts = 0) :
    Accounts cfg now (w.removeExpired (now - cfg.interval)) log := by
  have total := accounts.total_removeExpired (now - cfg.interval)
  obtain ⟨old, rest, split, expired, live, liveSum⟩ :=
    accounts.exists_split (now - cfg.interval)
  cases rest with
  | nil =>
    rw [append_nil] at split
    have empty : exactSum w.counts = 0 := by
      refine stops.resolve_left ?_
      rintro ⟨entry, member, isLive⟩
      have gone := expired entry (split ▸ member)
      omega
    have same := removeExpired_of_none (w := w) (split ▸ expired)
    refine { accounts with exact := ?_, dropped := ?_ }
    · rw [Exact, total, liveSum, counts, same]
      exact empty.symm
    · rw [same]
      exact accounts.dropped
  | cons entry rest =>
    have cut := removeExpired_of_live split expired (live entry mem_cons_self)
    refine { accounts with exact := ?_, dropped := ?_ }
    · rw [Exact, total, liveSum, exactSum_counts, cut]
    · obtain ⟨front, whole, gone⟩ := accounts.dropped
      refine ⟨front ++ old, ?_, fun other member => ?_⟩
      · rw [whole, split, cut, append_assoc]
      · cases mem_append.mp member with
        | inl inFront => exact gone other inFront
        | inr inOld => exact expired other inOld

/-- A request that fits the machine word is added only where the rate leaves room. -/
theorem tryAdd (nonneg : 0 ≤ n.toInt) (total : w.total.toInt =
      since timestamp amount (now - cfg.interval) log)
    (fits : w.total.toInt + n.toInt < 2 ^ 63) :
    Accounts cfg now (w.tryAdd cfg now n).1
      (if (w.tryAdd cfg now n).2 then log ++ [⟨now, n⟩] else log) := by
  have sum : (w.total + n).toInt = w.total.toInt + n.toInt :=
    toInt_add_of_inRange ⟨by have lower := w.total.le_toInt; omega, fits⟩
  rw [SlidingWindow.tryAdd]
  split
  next => exact accounts
  next room =>
    rw [Int64.lt_iff_toInt_lt, sum, not_lt, total] at room
    exact {
      exact := by
        have exact := accounts.exact
        rw [Exact, exactSum_counts] at exact ⊢
        rw [map_append, sum_append, ← exact]
        simpa using sum
      ordered := by
        refine pairwise_append.mpr ⟨accounts.ordered, pairwise_singleton _ _, ?_⟩
        intro entry member last isLast
        rw [mem_singleton.mp isLast]
        exact accounts.past entry member
      past := by
        intro entry member
        cases mem_append.mp member with
        | inl earlier => exact accounts.past entry earlier
        | inr last => rw [mem_singleton.mp last]
      nonneg := by
        intro entry member
        cases mem_append.mp member with
        | inl earlier => exact accounts.nonneg entry earlier
        | inr last =>
          rw [mem_singleton.mp last]
          exact nonneg
      dropped := by
        obtain ⟨old, split, expired⟩ := accounts.dropped
        refine ⟨old, ?_, expired⟩
        rw [← append_assoc, ← split]
        rfl
      bounded := accounts.bounded.append accounts.nonneg room }

theorem allowN (nonneg : 0 ≤ n.toInt) (accountable : Accountable cfg now n w) :
    Accounts cfg now (w.allowN cfg now n).1
      (if (w.allowN cfg now n).2 then log ++ [⟨now, n⟩] else log) := by
  have total := accounts.total_removeExpired (now - cfg.interval)
  apply (accounts.removeExpired accountable.stops).tryAdd nonneg
  · rw [total, accounts.since_log]
  · rw [total]
    exact accountable.fits

end Accounts

namespace Accounts

variable {cfg : RateLimiterConfig} {now : Int} {w : SlidingWindow} {log : List Entry} {n : Int64}
  (accounts : Accounts cfg now w log)

include accounts

/-- A call that finds only expired entries takes them off the total and leaves them in. -/
theorem not_exact_of_none (expired : ∀ entry ∈ w.entries, entry.timestamp ≤ now - cfg.interval)
    (counted : exactSum w.counts ≠ 0) : ¬(w.allowN cfg now n).1.Exact := by
  intro exact
  have total := accounts.total_removeExpired (now - cfg.interval)
  rw [SlidingWindow.live, since_eq_zero expired] at total
  have same := congrArg entries (removeExpired_of_none expired)
  rw [exactSum_counts] at counted
  rw [SlidingWindow.allowN, SlidingWindow.tryAdd] at exact
  split at exact
  next =>
    rw [Exact, exactSum_counts, same, total] at exact
    exact counted exact.symm
  next =>
    have sum : ((w.removeExpired (now - cfg.interval)).total + n).toInt = n.toInt := by
      rw [toInt_add, total, zero_add, wrap_of_inRange (inRange_toInt n)]
    rw [Exact, exactSum_counts, same, sum, map_append,
      sum_append] at exact
    simp at exact
    exact counted exact

/-- A request that overflows the machine word is granted, and the total is negative. -/
theorem not_exact_of_overflow (nonneg : 0 ≤ n.toInt)
    (overflow : 2 ^ 63 ≤ w.live (now - cfg.interval) + n.toInt) :
    ¬(w.allowN cfg now n).1.Exact := by
  intro exact
  rw [← accounts.total_removeExpired] at overflow
  have negative := toInt_add_neg_of_overflow overflow
  have rate := cfg.rate_nonneg
  rw [SlidingWindow.allowN, SlidingWindow.tryAdd, if_neg] at exact
  next =>
    have kept : 0 ≤ exactSum ((w.removeExpired (now - cfg.interval)).entries ++
        [Entry.mk now n] |>.map (·.count)) := by
      apply exactSum_nonneg
      intro count member
      obtain ⟨entry, inEntries, rfl⟩ := mem_map.mp member
      cases mem_append.mp inEntries with
      | inl earlier =>
        exact accounts.nonneg entry (accounts.mem_log (mem_removeExpired earlier))
      | inr last =>
        rw [mem_singleton.mp last]
        exact nonneg
    rw [Exact, counts] at exact
    dsimp only at exact
    omega
  next =>
    rw [Int64.lt_iff_toInt_lt]
    omega

theorem not_exact (nonneg : 0 ≤ n.toInt)
    (lost : ¬Accountable cfg now n w) : ¬(w.allowN cfg now n).1.Exact := by
  by_cases stops : (∃ entry ∈ w.entries, now - cfg.interval < entry.timestamp) ∨
      exactSum w.counts = 0
  · apply accounts.not_exact_of_overflow nonneg
    by_contra fits
    exact lost ⟨stops, not_le.mp fits⟩
  · rw [not_or] at stops
    apply accounts.not_exact_of_none _ stops.2
    intro entry member
    by_contra isLive
    exact stops.1 ⟨entry, member, not_le.mp isLive⟩

end Accounts

namespace SlidingWindowLimiter

variable {l : SlidingWindowLimiter} {cfg : RateLimiterConfig} {now : Int} {n : Int64}

theorem window_allowN (key query : String) : (l.allowN cfg now key n).1.window query =
      if query = key then ((l.window key).allowN cfg now n).1 else l.window query :=
  valueOr_insert _ _ _ _ _

theorem window_cleanupStale (key : String) : l.cleanupStale.window key = l.window key := by
  rw [window, valueOr, cleanupStale, lookup_filterValues, window, valueOr]
  cases l.windows.lookup key with
  | none => rfl
  | some w =>
    rw [Option.filter_some]
    split
    next => rfl
    next stale =>
      simp only [Bool.not_eq_true, Bool.not_eq_false', Bool.and_eq_true, beq_iff_eq,
        length_eq_zero_iff] at stale
      cases w
      simp_all [empty]

end SlidingWindowLimiter

namespace Limited

variable (cfg : RateLimiterConfig)

/-- The totals are the sums of the counts, and the granted requests keep to the rate. -/
structure WithinRate (s : Limited) : Prop where
  exact : ∀ key w, s.limiter.windows.lookup key = some w → w.Exact
  bounded : ∀ key,
    Window.Bounded timestamp amount cfg.interval cfg.rate.toInt (s.log key)

/-- A call finds the window of its key accountable. -/
def Accountable (s : Limited) (event : LimiterEvent) : Prop :=
  match event.call with
  | .allowN key n _ => Security.Accountable cfg (s.now + event.elapsed) n (s.limiter.window key)
  | .cleanupStale => True

/-- The accounts of every key. -/
def Kept (s : Limited) : Prop := ∀ key, Accounts cfg s.now (s.limiter.window key) (s.log key)

variable {cfg} {s : Limited}

theorem kept_init (now : Int) : Kept cfg (init now) := fun _ =>
  { exact := rfl
    ordered := List.Pairwise.nil
    past := by simp [log, init]
    nonneg := by simp [log, init]
    dropped := ⟨[], rfl, by simp⟩
    bounded := fun _ => cfg.rate_nonneg }

theorem Kept.withinRate (kept : Kept cfg s) : WithinRate cfg s where
  exact key w found := by
    have exact := (kept key).exact
    rw [window, valueOr, found] at exact
    exact exact
  bounded key := (kept key).bounded

theorem log_granted (limiter : SlidingWindowLimiter) (now : Int) (key query : String)
    (entry : Entry) (allowed : Bool) :
    log ⟨limiter, now, if allowed then s.granted ++ [(key, entry)] else s.granted⟩ query =
      if query = key then (if allowed then s.log query ++ [entry] else s.log query)
      else s.log query := by
  cases allowed with
  | false =>
    simp only [Bool.false_eq_true, if_false, ite_self]
    rfl
  | true =>
    rw [log, if_pos rfl, filter_append, map_append]
    split
    next same => simp [log, same]
    next different => simp [log, Ne.symm different]

theorem Kept.step (kept : Kept cfg s) {event : LimiterEvent} (ok : Accountable cfg s event) :
    Kept cfg (s.step cfg event) := by
  intro query
  have later := (kept query).mono (Int.le_add_of_nonneg_right (Int.natCast_nonneg event.elapsed))
  rw [Limited.step]
  rw [Accountable] at ok
  cases isCall : event.call with
  | allowN key n nonneg =>
    rw [isCall] at ok
    dsimp only at ok ⊢
    rw [window_allowN, log_granted]
    split
    next same =>
      subst same
      exact later.allowN nonneg ok
    next => exact later
  | cleanupStale =>
    dsimp only
    rw [window_cleanupStale]
    exact later

/-- A call that cannot be accounted for leaves the total of its key wrong. -/
theorem Kept.not_withinRate (kept : Kept cfg s) {event : LimiterEvent}
    (lost : ¬Accountable cfg s event) : ¬WithinRate cfg (s.step cfg event) := by
  intro within
  rw [Accountable] at lost
  cases isCall : event.call with
  | allowN key n nonneg =>
    have later := (kept key).mono (Int.le_add_of_nonneg_right (Int.natCast_nonneg event.elapsed))
    rw [isCall] at lost
    apply later.not_exact nonneg lost
    apply within.exact key
    rw [Limited.step, isCall]
    exact Finmap.lookup_insert _
  | cleanupStale =>
    rw [isCall] at lost
    exact lost trivial

/-- Whatever the calls and the clock, the totals stay exact and the granted requests within the rate
in exactly the runs in which every call finds a live entry or nothing to take off, and no total
leaves the machine word. -/
theorem withinRate_iff_accountable (cfg : RateLimiterConfig) (start : Int)
    (events : List LimiterEvent) :
    Run.EveryStep (step cfg) (fun s event => WithinRate cfg (s.step cfg event)) (init start)
        events ↔
      Run.EveryStep (step cfg) (Accountable cfg) (init start) events := by
  apply Run.everyStep_iff (kept_init start)
  · intro s event kept
    constructor
    · intro within
      by_contra lost
      exact kept.not_withinRate lost within
    · exact fun ok => (kept.step ok).withinRate
  · exact fun s event kept ok => kept.step ok

/-- Ten events in ten ticks. The first five have expired when the next five are granted, and are
taken off the total a second time one tick later: ten more are granted, fifteen in one window. -/
theorem fifteen_granted_in_window :
    let cfg : RateLimiterConfig := ⟨10, 10, by decide, by decide⟩
    let first : LimiterEvent := ⟨0, .allowN "peer" 5 (by decide)⟩
    let second : LimiterEvent := ⟨20, .allowN "peer" 5 (by decide)⟩
    let third : LimiterEvent := ⟨1, .allowN "peer" 10 (by decide)⟩
    let mid := Run.after (step cfg) (init 0) [first, second]
    let last := Run.after (step cfg) (init 0) [first, second, third]
    (mid.limiter.window "peer").total = 5 ∧
      exactSum (mid.limiter.window "peer").counts = 10 ∧
      within Entry.timestamp Entry.amount (21 - cfg.interval) 21 (last.log "peer") = 15 := by
  decide +kernel

end Limited

end Blockberry.Security
