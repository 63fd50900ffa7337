import Bdns.Network.Aliases

/-!
# Answers from the cache

`ResolveDomain` looks into the cache of the process first and does not ask for the phase of a domain
that it finds there. What is in the cache for a domain and a type is as old as the last insertion,
from outside or by a lookup that answered from the index, and it is given out for 300 seconds. So an
answer for a domain that is not live any more comes from an insertion of the last 300 seconds.
-/

namespace Bdns.Network

open Lib Blockchain Index

/-- The part of a full node that answers queries. -/
structure Resolver where
  index : IndexManager
  cache : Cache := fun _ => none

inductive ResolverAction
  | changeIndex (index : IndexManager)
  | setToCache (domain queryType : Bytes) (records : List Record)
  | resolveDomain (domain queryType : Bytes)

/-- Something that happens at a time, in seconds, and in a slot. -/
structure ResolverEvent where
  now : Int
  slot : Int64
  action : ResolverAction

section Histories

variable (E : External) (slotsPerDay : Int64)

/-- `ResolveDomain` on the full node; the argument for the wait of a light node is not used. -/
def Resolver.answer (r : Resolver) (now : Int) (slot : Int64) (domain queryType : Bytes) :
    Cache × Except Bytes (List Record) :=
  resolveDomain E r.index slot slotsPerDay true domain queryType now r.cache (now, r.cache)

def Resolver.step (r : Resolver) (e : ResolverEvent) : Resolver :=
  match e.action with
  | .changeIndex index => { r with index }
  | .setToCache domain queryType records =>
    { r with cache := setToCache r.cache e.now domain queryType records }
  | .resolveDomain domain queryType =>
    { r with cache := (r.answer E slotsPerDay e.now e.slot domain queryType).1 }

def Resolver.after (r : Resolver) (history : List ResolverEvent) : Resolver :=
  history.foldl (Resolver.step E slotsPerDay) r

/-- The domain is in the index and in its active phase. -/
def Resolver.Live (r : Resolver) (slot : Int64) (domain : Bytes) : Prop :=
  ∃ tx, ActiveEntry E r.index slot slotsPerDay domain tx

/-- The cache has an answer. -/
def Fresh (cache : Cache) (now : Int) (domain queryType : Bytes) : Prop :=
  ∃ entry, cache (domain, queryType) = some entry ∧ now ≤ entry.expiry

/-- The event puts records for a domain and a type into the cache: an insertion, or a lookup that
is not in the cache and finds records of the type under the domain itself. -/
def Resolver.Inserts (r : Resolver) (e : ResolverEvent) (domain queryType : Bytes) : Prop :=
  match e.action with
  | .changeIndex _ => False
  | .setToCache d q _ => (d, q) = (domain, queryType)
  | .resolveDomain d q => (d, q) = (domain, queryType) ∧ ¬ Fresh r.cache e.now d q ∧
      ∃ tx, ActiveEntry E r.index e.slot slotsPerDay d tx ∧
        ¬ (q ≠ utf8 "CNAME" ∧ hasCNAME tx.records = true) ∧ filterByType tx.records q ≠ []

/-- Every call that returns records is for a live domain. -/
def LiveAnswers (index : IndexManager) (history : List ResolverEvent) : Prop :=
  ∀ before e after, history = before ++ e :: after →
    ∀ domain queryType, e.action = .resolveDomain domain queryType →
      ∀ records, ((Resolver.after E slotsPerDay { index } before).answer E slotsPerDay e.now e.slot
          domain queryType).2 = .ok records →
        (Resolver.after E slotsPerDay { index } before).Live E slotsPerDay e.slot domain

/-- Every call for which something was inserted within the last 300 seconds is for a live
domain. -/
def LiveInsertions (index : IndexManager) (history : List ResolverEvent) : Prop :=
  ∀ before e after, history = before ++ e :: after →
    ∀ domain queryType, e.action = .resolveDomain domain queryType →
      (∃ earlier insertion later, before = earlier ++ insertion :: later ∧
        (Resolver.after E slotsPerDay { index } earlier).Inserts E slotsPerDay insertion domain
          queryType ∧ e.now ≤ insertion.now + 300) →
        (Resolver.after E slotsPerDay { index } before).Live E slotsPerDay e.slot domain

end Histories

section Steps

variable {E : External} {slotsPerDay : Int64} {cache : Cache} {now : Int} {domain queryType : Bytes}

theorem getFromCache_of_fresh (hFresh : Fresh cache now domain queryType) :
    ∃ records, getFromCache cache now domain queryType = (cache, some records) := by
  obtain ⟨entry, hEntry, hExpiry⟩ := hFresh
  unfold getFromCache
  rw [hEntry]
  exact ⟨entry.records, if_neg (by omega)⟩

/-- Without a fresh entry there is none afterwards. -/
theorem getFromCache_of_not_fresh (hOld : ¬ Fresh cache now domain queryType) :
    getFromCache cache now domain queryType =
      (Function.update cache (domain, queryType) none, none) := by
  unfold getFromCache
  cases hEntry : cache (domain, queryType) with
  | none =>
    dsimp only
    rw [← hEntry, Function.update_eq_self]
  | some entry =>
    have hExpired : entry.expiry < now := by
      by_contra hNot
      exact hOld ⟨entry, hEntry, Int.not_lt.mp hNot⟩
    exact if_pos hExpired

theorem Fresh.mono {before : Int} (hFresh : Fresh cache now domain queryType)
    (hBefore : before ≤ now) : Fresh cache before domain queryType := by
  obtain ⟨entry, hEntry, hExpiry⟩ := hFresh
  exact ⟨entry, hEntry, hBefore.trans hExpiry⟩

theorem fresh_update_self {d q : Bytes} {entry : Option CacheEntry}
    (hKey : (d, q) = (domain, queryType)) :
    Fresh (Function.update cache (d, q) entry) now domain queryType ↔
      ∃ e, entry = some e ∧ now ≤ e.expiry := by
  rw [Fresh, hKey, Function.update_self]

theorem fresh_update_of_ne {d q : Bytes} {entry : Option CacheEntry}
    (hKey : (d, q) ≠ (domain, queryType)) :
    Fresh (Function.update cache (d, q) entry) now domain queryType ↔
      Fresh cache now domain queryType := by
  rw [Fresh, Function.update_of_ne hKey.symm, Fresh]

/-- Where nothing is found under the domain itself, a lookup leaves the cache. -/
theorem cache_resolveLocally_of_not {im : IndexManager} {slot : Int64}
    (hNone : ¬ ∃ tx, ActiveEntry E im slot slotsPerDay domain tx ∧
      ¬ (queryType ≠ utf8 "CNAME" ∧ hasCNAME tx.records = true) ∧
      filterByType tx.records queryType ≠ []) :
    (resolveLocally E im slot slotsPerDay domain queryType now cache).1 = cache := by
  by_cases hActive : ∃ tx, ActiveEntry E im slot slotsPerDay domain tx
  · obtain ⟨tx, hTx⟩ := hActive
    rw [resolveLocally_of_active hTx]
    by_cases hAlias : queryType ≠ utf8 "CNAME" ∧ hasCNAME tx.records = true
    · rw [if_pos hAlias]
    · have hEmpty : filterByType tx.records queryType = [] := by
        by_contra hSome
        exact hNone ⟨tx, hTx, hAlias, hSome⟩
      rw [if_neg hAlias]
      dsimp only
      rw [if_pos (by rw [hEmpty]; rfl)]
  · unfold resolveLocally
    cases hTx : im.getDomain E domain with
    | none => rfl
    | some tx =>
      dsimp only
      rw [if_pos fun hPhase => hActive ⟨tx, hTx, hPhase⟩]

theorem cache_resolveLocally_of_some {im : IndexManager} {slot : Int64}
    (hSome : ∃ tx, ActiveEntry E im slot slotsPerDay domain tx ∧
      ¬ (queryType ≠ utf8 "CNAME" ∧ hasCNAME tx.records = true) ∧
      filterByType tx.records queryType ≠ []) :
    ∃ records, (resolveLocally E im slot slotsPerDay domain queryType now cache).1 =
      setToCache cache now domain queryType records := by
  obtain ⟨tx, hTx, hAlias, hRecords⟩ := hSome
  rw [resolveLocally_of_active hTx, if_neg hAlias]
  dsimp only
  rw [if_neg (mt List.eq_nil_of_length_eq_zero hRecords)]
  exact ⟨_, rfl⟩

/-- With a fresh entry the cache answers and stays. -/
theorem answer_of_fresh {r : Resolver} {slot : Int64} (hFresh : Fresh r.cache now domain queryType) :
    ∃ records, r.answer E slotsPerDay now slot domain queryType = (r.cache, .ok records) := by
  obtain ⟨records, hGet⟩ := getFromCache_of_fresh hFresh
  refine ⟨records, ?_⟩
  unfold Resolver.answer resolveDomain
  rw [hGet]

theorem answer_of_not_fresh {r : Resolver} {slot : Int64}
    (hOld : ¬ Fresh r.cache now domain queryType) :
    r.answer E slotsPerDay now slot domain queryType =
      resolveLocally E r.index slot slotsPerDay domain queryType now
        (Function.update r.cache (domain, queryType) none) := by
  unfold Resolver.answer resolveDomain
  rw [getFromCache_of_not_fresh hOld]
  rfl

/-- What one event does to the answers of the cache at a later time. -/
theorem fresh_step {r : Resolver} {e : ResolverEvent} (hNow : e.now ≤ now) :
    Fresh (r.step E slotsPerDay e).cache now domain queryType ↔
      r.Inserts E slotsPerDay e domain queryType ∧ now ≤ e.now + 300 ∨
        ¬ r.Inserts E slotsPerDay e domain queryType ∧ Fresh r.cache now domain queryType := by
  unfold Resolver.step Resolver.Inserts
  cases e.action with
  | changeIndex index => simp
  | setToCache d q records =>
    dsimp only
    by_cases hKey : (d, q) = (domain, queryType)
    · rw [setToCache, fresh_update_self hKey]
      simp [hKey]
    · rw [setToCache, fresh_update_of_ne hKey]
      simp [hKey]
  | resolveDomain d q =>
    dsimp only
    by_cases hFresh : Fresh r.cache e.now d q
    · obtain ⟨records, hAnswer⟩ := @answer_of_fresh E slotsPerDay e.now d q r e.slot hFresh
      rw [hAnswer]
      simp [hFresh]
    · rw [answer_of_not_fresh hFresh]
      by_cases hSome : ∃ tx, ActiveEntry E r.index e.slot slotsPerDay d tx ∧
          ¬ (q ≠ utf8 "CNAME" ∧ hasCNAME tx.records = true) ∧ filterByType tx.records q ≠ []
      · obtain ⟨records, hCache⟩ := cache_resolveLocally_of_some hSome
        rw [hCache, setToCache]
        by_cases hKey : (d, q) = (domain, queryType)
        · rw [fresh_update_self hKey]
          simp only [hKey, hFresh, hSome, Option.some.injEq, exists_eq_left', true_and,
            not_false_eq_true, not_true_eq_false, false_and, or_false]
        · rw [fresh_update_of_ne hKey, fresh_update_of_ne hKey]
          simp only [hKey, false_and, not_false_eq_true, true_and, false_or]
      · rw [cache_resolveLocally_of_not hSome]
        by_cases hKey : (d, q) = (domain, queryType)
        · -- the entry that is deleted here is not fresh later either
          have hLater : ¬ Fresh r.cache now domain queryType := by
            obtain ⟨rfl, rfl⟩ := Prod.mk.inj hKey
            exact fun h => hFresh (h.mono hNow)
          rw [fresh_update_self hKey]
          simp only [hSome, hLater, and_false, false_and, or_false, reduceCtorEq,
            exists_false, not_false_eq_true]
        · rw [fresh_update_of_ne hKey]
          simp only [hKey, false_and, not_false_eq_true, true_and, false_or]

end Steps

section Histories

variable {E : External} {slotsPerDay : Int64} {domain queryType : Bytes}

theorem after_concat (r : Resolver) (history : List ResolverEvent) (e : ResolverEvent) :
    r.after E slotsPerDay (history ++ [e]) =
      (r.after E slotsPerDay history).step E slotsPerDay e := by
  simp [Resolver.after]

/-- The cache has an answer exactly where something was inserted within the last 300 seconds. -/
theorem fresh_after {index : IndexManager} {history : List ResolverEvent} {now : Int}
    (hClock : history.Pairwise fun a b => a.now ≤ b.now) (hNow : ∀ e ∈ history, e.now ≤ now) :
    Fresh (Resolver.after E slotsPerDay { index } history).cache now domain queryType ↔
      ∃ earlier insertion later, history = earlier ++ insertion :: later ∧
        (Resolver.after E slotsPerDay { index } earlier).Inserts E slotsPerDay insertion domain
          queryType ∧ now ≤ insertion.now + 300 := by
  induction history using List.reverseRecOn with
  | nil =>
    constructor
    · rintro ⟨entry, hEntry, -⟩
      cases hEntry
    · rintro ⟨earlier, insertion, later, hSplit, -⟩
      simp at hSplit
  | append_singleton history e ih =>
    obtain ⟨hOld, -, hLast⟩ := List.pairwise_append.mp hClock
    have hIh := ih hOld fun a ha => hNow a (List.mem_append_left _ ha)
    rw [after_concat, fresh_step (hNow e (by simp)), hIh]
    constructor
    · rintro (⟨hInserts, hAge⟩ | ⟨-, earlier, insertion, later, rfl, hInserts, hAge⟩)
      · exact ⟨history, e, [], rfl, hInserts, hAge⟩
      · exact ⟨earlier, insertion, later ++ [e], by simp, hInserts, hAge⟩
    · rintro ⟨earlier, insertion, later, hSplit, hInserts, hAge⟩
      by_cases hNew : (Resolver.after E slotsPerDay { index } history).Inserts E slotsPerDay e
          domain queryType
      · -- the last insertion is the youngest
        refine .inl ⟨hNew, ?_⟩
        have hMem : insertion ∈ history ++ [e] := by simp [hSplit]
        rcases List.mem_append.mp hMem with hMem | hMem
        · have hLe := hLast insertion hMem e (by simp)
          omega
        · rwa [← List.mem_singleton.mp hMem]
      · refine .inr ⟨hNew, ?_⟩
        rcases List.eq_nil_or_concat later with rfl | ⟨later, last, rfl⟩
        · obtain ⟨rfl, hSame⟩ := List.append_inj' hSplit rfl
          obtain rfl : e = insertion := by simpa using hSame
          exact absurd hInserts hNew
        · rw [List.concat_eq_append, ← List.cons_append, ← List.append_assoc] at hSplit
          exact ⟨earlier, insertion, later, (List.append_inj' hSplit rfl).1, hInserts, hAge⟩

/-- Over every history with a clock that does not go back, all answers are live exactly where no
domain stops to be live within the 300 seconds after an insertion for it in which it is asked
for. -/
theorem liveAnswers_iff (index : IndexManager) {history : List ResolverEvent}
    (hClock : history.Pairwise fun a b => a.now ≤ b.now) :
    LiveAnswers E slotsPerDay index history ↔ LiveInsertions E slotsPerDay index history := by
  have hFresh : ∀ before e after, history = before ++ e :: after → ∀ domain queryType,
      Fresh (Resolver.after E slotsPerDay { index } before).cache e.now domain queryType ↔
        ∃ earlier insertion later, before = earlier ++ insertion :: later ∧
          (Resolver.after E slotsPerDay { index } earlier).Inserts E slotsPerDay insertion domain
            queryType ∧ e.now ≤ insertion.now + 300 := by
    rintro before e after rfl domain queryType
    obtain ⟨hBefore, -, hLater⟩ := List.pairwise_append.mp hClock
    exact fresh_after hBefore fun a ha => hLater a ha e List.mem_cons_self
  constructor
  · intro hLive before e after hSplit domain queryType hAction hInsertion
    obtain ⟨records, hAnswer⟩ := @answer_of_fresh E slotsPerDay _ _ _ _ e.slot
      ((hFresh before e after hSplit domain queryType).mpr hInsertion)
    exact hLive before e after hSplit domain queryType hAction records (by rw [hAnswer])
  · intro hLive before e after hSplit domain queryType hAction records hOk
    by_cases hCached : Fresh (Resolver.after E slotsPerDay { index } before).cache e.now domain
        queryType
    · exact hLive before e after hSplit domain queryType hAction
        ((hFresh before e after hSplit domain queryType).mp hCached)
    · rw [answer_of_not_fresh hCached] at hOk
      exact activeEntry_of_resolveLocally hOk

end Histories

/-! ## Two lookups -/

/-- Two lookups of an address, ten seconds apart, in the given slots. -/
def StandIn.twoLookups (first second : Int64) : List ResolverEvent :=
  [⟨0, first, .resolveDomain (utf8 "a.bdns") (utf8 "A")⟩,
    ⟨10, second, .resolveDomain (utf8 "a.bdns") (utf8 "A")⟩]

/-- The domain is active up to slot 499. -/
def StandIn.oneDomain : IndexManager := indexOf [(utf8 "a.bdns", [address])]

/-- In both slots the domain is active. -/
theorem liveAnswers_iff_active :
    LiveAnswers (.standIn fun _ => none) 10 StandIn.oneDomain (StandIn.twoLookups 100 101) := by
  refine (liveAnswers_iff _ (by simp [StandIn.twoLookups])).mpr ?_
  rintro before e after hSplit domain queryType hAction ⟨earlier, insertion, later, rfl, -⟩
  -- an event after an insertion can only be the second one
  have hLength := congrArg List.length hSplit
  simp only [StandIn.twoLookups, List.length_append, List.length_cons, List.length_nil] at hLength
  obtain rfl : earlier = [] := List.eq_nil_of_length_eq_zero (by omega)
  obtain rfl : later = [] := List.eq_nil_of_length_eq_zero (by omega)
  simp only [StandIn.twoLookups, List.nil_append, List.cons_append, List.cons.injEq] at hSplit
  obtain ⟨rfl, rfl, -⟩ := hSplit
  obtain ⟨rfl, -⟩ := ResolverAction.resolveDomain.inj hAction
  obtain ⟨tx, hTx, hActive⟩ := (Option.any_eq_true _ _).mp (by decide +kernel :
    ((Resolver.after (.standIn fun _ => none) 10 { index := StandIn.oneDomain }
      [⟨0, 100, .resolveDomain (utf8 "a.bdns") (utf8 "A")⟩]).index.getDomain
        (.standIn fun _ => none) (utf8 "a.bdns")).any (fun tx =>
          getDomainPhase 101 tx.expirySlot 10 = .active) = true)
  exact ⟨tx, hTx, of_decide_eq_true hActive⟩

/-- The domain expires in slot 500, and the second lookup still finds it. -/
theorem expired_domain_from_cache :
    (StandIn.twoLookups 499 500).Pairwise (fun a b => a.now ≤ b.now ∧ a.slot ≤ b.slot) ∧
      ¬ LiveAnswers (.standIn fun _ => none) 10 StandIn.oneDomain (StandIn.twoLookups 499 500) := by
  refine ⟨by decide +kernel, fun hLive => ?_⟩
  have hAnswer : ((Resolver.after (.standIn fun _ => none) 10 { index := StandIn.oneDomain }
      [⟨0, 499, .resolveDomain (utf8 "a.bdns") (utf8 "A")⟩]).answer (.standIn fun _ => none) 10 10
        500 (utf8 "a.bdns") (utf8 "A")).2 = .ok [StandIn.address] := by decide +kernel
  obtain ⟨tx, hEntry, hActive⟩ := hLive [⟨0, 499, .resolveDomain (utf8 "a.bdns") (utf8 "A")⟩]
    ⟨10, 500, .resolveDomain (utf8 "a.bdns") (utf8 "A")⟩ [] rfl _ _ rfl _ hAnswer
  have hExpired : ((Resolver.after (.standIn fun _ => none) 10 { index := StandIn.oneDomain }
      [⟨0, 499, .resolveDomain (utf8 "a.bdns") (utf8 "A")⟩]).index.getDomain
        (.standIn fun _ => none) (utf8 "a.bdns")).any (fun tx =>
          getDomainPhase 500 tx.expirySlot 10 = .active) = false := by decide +kernel
  rw [hEntry, Option.any_some, decide_eq_false_iff_not] at hExpired
  exact hExpired hActive

end Bdns.Network
