import Bdns.Blockchain.Transaction
import Bdns.Lib.FiniteMap
import Bdns.Lib.Outcome

/-!
# The connection pool of a light node

`gateway/pool.go`: a light node asks one full node after another, starting with the one that
answered last, and marks those that fail as unhealthy. `VerifyNXDOMAIN` (`node_helper.go`) takes
an error of such a query as the consensus of all healthy nodes that a domain is absent.
-/

namespace Bdns.Gateway

open Lib Blockchain Std

/-! ## Clients -/

/-- The gRPC status codes that the source names, and the others. -/
inductive Code
  | notFound
  | internal
  | canceled
  | other
  deriving DecidableEq

/-- An error of a call: a gRPC status, or an error that is none. -/
inductive RpcError
  | status (code : Code) (message : Bytes)
  | plain (message : Bytes)
  deriving DecidableEq

def errAllPeersDown : RpcError := .plain (utf8 "all full node peers unavailable")

structure TransactionResponse where
  accepted : Bool
  txHash : Bytes
  error : Bytes

/-- What a full node answers at the moment, `R` being the answer to a domain query. -/
structure PoolClient (R : Type) where
  queryDomain : Bytes → Int64 → Except RpcError R
  healthCheck : Except RpcError Unit := .ok ()
  broadcastTransaction : Transaction → Except RpcError (Option TransactionResponse) :=
    fun _ => .ok none

/-- An index into a slice; out of range it is a panic. -/
def sliceAt {α : Type} (xs : List α) (idx : Int64) : Option α :=
  if idx < 0 then none else xs[idx.toInt.toNat]?

theorem sliceAt_isSome {α : Type} {xs : List α} {idx : Int64} :
    (sliceAt xs idx).isSome ↔ ¬ idx < 0 ∧ idx.toInt.toNat < xs.length := by
  unfold sliceAt
  split
  · rename_i hNeg
    simp [hNeg]
  · rename_i hPos
    simp [hPos]

theorem sliceAt_ofNat {α : Type} (xs : List α) {i : Nat} (hi : i < 2 ^ 63) :
    sliceAt xs (Int64.ofNat i) = xs[i]? := by
  have hInt : (Int64.ofNat i).toInt = i := Int64.toInt_ofNat_of_lt hi
  have hPos : ¬ Int64.ofNat i < 0 := by
    rw [Int64.lt_iff_toInt_lt, hInt]
    simp
  unfold sliceAt
  rw [if_neg hPos, hInt, Int.toNat_natCast]

theorem mem_of_sliceAt {α : Type} {xs : List α} {idx : Int64} {x : α}
    (h : sliceAt xs idx = some x) : x ∈ xs := by
  unfold sliceAt at h
  split at h
  · exact absurd h (by simp)
  · exact List.mem_of_getElem? h

structure ConnectionPool (R : Type) where
  clients : List (PoolClient R)
  addrs : List Bytes
  health : ExtTreeMap Int64 Bool compare := ∅
  current : Int64 := 0

/-- What the failover loop makes of the answer of one client. -/
inductive Attempt (A : Type)
  | answered (a : A)
  | refused (e : RpcError)
  | failed

namespace ConnectionPool

variable {R A : Type}

def newConnectionPool (clients : List (PoolClient R)) (addrs : List Bytes) : ConnectionPool R where
  clients
  addrs
  health := (List.range clients.length).foldl (fun m i => m.insert (Int64.ofNat i) true) ∅

/-- `health[idx]`, which is false for a missing key. -/
def getHealth (p : ConnectionPool R) (idx : Int64) : Bool := (p.health[idx]?).getD false

/-- The indexes of the failover loop, in its order. -/
def visits (p : ConnectionPool R) : List Int64 :=
  (List.range p.clients.length).map fun i =>
    (p.current + Int64.ofNat i) % Int64.ofNat p.clients.length

/-- The loop of `QueryWithFailover` and `BroadcastTransactionWithFailover`. -/
def failover (ask : PoolClient R → Attempt A) :
    List Int64 → ConnectionPool R → Go (Except RpcError A × ConnectionPool R)
  | [], p => pure (.error errAllPeersDown, p)
  | idx :: rest, p =>
    if p.getHealth idx then
      match sliceAt p.clients idx with
      | none => throw .indexOutOfRange
      | some client =>
        match ask client with
        | .answered resp => pure (.ok resp, { p with current := idx })
        | .refused err => pure (.error err, p)
        | .failed =>
          -- the message of the log names the address
          match sliceAt p.addrs idx with
          | none => throw .indexOutOfRange
          | some _ => failover ask rest { p with health := p.health.insert idx false }
    else failover ask rest p

def askDomain (domain : Bytes) (blockIndex : Int64) (client : PoolClient R) : Attempt R :=
  match client.queryDomain domain blockIndex with
  | .ok resp => .answered resp
  | .error (.status .notFound message) => .refused (.status .notFound message)
  | .error _ => .failed

def queryWithFailover (p : ConnectionPool R) (domain : Bytes) (blockIndex : Int64) :
    Go (Except RpcError R × ConnectionPool R) :=
  failover (askDomain domain blockIndex) p.visits p

def askBroadcast (tx : Transaction) (client : PoolClient R) : Attempt TransactionResponse :=
  match client.broadcastTransaction tx with
  | .ok (some resp) => if resp.accepted then .answered resp else .failed
  | .ok none => .failed
  | .error _ => .failed

def broadcastTransactionWithFailover (p : ConnectionPool R) (tx : Transaction) :
    Go (Except RpcError TransactionResponse × ConnectionPool R) :=
  failover (askBroadcast tx) p.visits p

def getHealthyCount (p : ConnectionPool R) : Nat :=
  (p.health.toList.filter fun e => e.2).length

/-- What a tick of `monitorHealth` does for the client at `i`. -/
def monitorClient (p : ConnectionPool R) (i : Nat × PoolClient R) : Go (ConnectionPool R) :=
  match i.2.healthCheck with
  | .ok _ => pure { p with health := p.health.insert (Int64.ofNat i.1) true }
  | .error err =>
    let marked := { p with health := p.health.insert (Int64.ofNat i.1) false }
    match err with
    | .status .canceled _ => pure marked
    | _ =>
      match p.addrs[i.1]? with
      | none => throw .indexOutOfRange
      | some _ => pure marked

/-- One tick of `monitorHealth`. -/
def monitorHealth (p : ConnectionPool R) : Go (ConnectionPool R) :=
  (p.clients.zipIdx.map fun c => (c.2, c.1)).foldlM monitorClient p

/-! ## What the loop finds

A client that fails once fails again, so the marks of the loop do not change what it finds. -/

/-- The answer of the client at an index, if it is asked and does not fail. -/
def decisive (p : ConnectionPool R) (ask : PoolClient R → Attempt A) (idx : Int64) :
    Option (Except RpcError A) :=
  if p.getHealth idx then
    match (sliceAt p.clients idx).map ask with
    | some (.answered resp) => some (.ok resp)
    | some (.refused err) => some (.error err)
    | _ => none
  else none

/-- Every client has an address, and only clients are marked as healthy. -/
structure Kept (p : ConnectionPool R) : Prop where
  addressed : p.addrs.length = p.clients.length
  /-- The length of a slice is an `int`. -/
  fits : p.clients.length < 2 ^ 63
  indexes : ∀ idx, p.getHealth idx = true → (sliceAt p.clients idx).isSome

theorem Kept.addr {p : ConnectionPool R} (h : p.Kept) {idx : Int64}
    (hClient : (sliceAt p.clients idx).isSome) : (sliceAt p.addrs idx).isSome := by
  rw [sliceAt_isSome] at hClient ⊢
  rw [h.addressed]
  exact hClient

theorem getHealth_insert (p : ConnectionPool R) (idx idx' : Int64) (healthy : Bool) :
    ({ p with health := p.health.insert idx healthy } : ConnectionPool R).getHealth idx' =
      if idx = idx' then healthy else p.getHealth idx' := by
  unfold getHealth
  rw [getElem?_insert_eq_ite]
  split <;> rfl

theorem Kept.insert {p : ConnectionPool R} (h : p.Kept) {idx : Int64} {healthy : Bool}
    (hIndex : healthy = true → (sliceAt p.clients idx).isSome) :
    ({ p with health := p.health.insert idx healthy } : ConnectionPool R).Kept := by
  refine ⟨h.addressed, h.fits, fun idx' hHealthy => ?_⟩
  rw [getHealth_insert] at hHealthy
  split at hHealthy
  · rename_i hIdx
    exact hIdx ▸ hIndex hHealthy
  · exact h.indexes idx' hHealthy

theorem Kept.mark {p : ConnectionPool R} (h : p.Kept) (idx : Int64) :
    ({ p with health := p.health.insert idx false } : ConnectionPool R).Kept :=
  h.insert fun hHealthy => absurd hHealthy Bool.false_ne_true

theorem decisive_mark {p : ConnectionPool R} {ask : PoolClient R → Attempt A} {idx : Int64}
    (h : p.decisive ask idx = none) :
    ({ p with health := p.health.insert idx false } : ConnectionPool R).decisive ask =
      p.decisive ask := by
  funext idx'
  by_cases hIdx : idx = idx'
  · subst hIdx
    rw [h]
    simp [decisive, getHealth_insert]
  · simp only [decisive, getHealth_insert, if_neg hIdx]

/-- The loop returns the first decisive answer. -/
theorem failover_eq (ask : PoolClient R → Attempt A) (idxs : List Int64) {p : ConnectionPool R}
    (hKept : p.Kept) :
    ∃ p', failover ask idxs p =
        .ok ((idxs.findSome? (p.decisive ask)).getD (.error errAllPeersDown), p') ∧ p'.Kept := by
  induction idxs generalizing p with
  | nil => exact ⟨p, rfl, hKept⟩
  | cons idx rest ih =>
    unfold failover
    rw [List.findSome?_cons]
    by_cases hHealthy : p.getHealth idx = true
    · have hClient := hKept.indexes idx hHealthy
      obtain ⟨addr, hAddr⟩ := Option.isSome_iff_exists.mp (hKept.addr hClient)
      obtain ⟨client, hClient⟩ := Option.isSome_iff_exists.mp hClient
      rw [if_pos hHealthy, hClient]
      cases hAsk : ask client with
      | answered resp =>
        have hDecisive : p.decisive ask idx = some (.ok resp) := by
          simp [decisive, hHealthy, hClient, hAsk]
        rw [hDecisive]
        exact ⟨{ p with current := idx }, by simp [hAsk, pure, Except.pure],
          ⟨hKept.addressed, hKept.fits, hKept.indexes⟩⟩
      | refused err =>
        have hDecisive : p.decisive ask idx = some (.error err) := by
          simp [decisive, hHealthy, hClient, hAsk]
        rw [hDecisive]
        exact ⟨p, by simp [hAsk, pure, Except.pure], hKept⟩
      | failed =>
        have hDecisive : p.decisive ask idx = none := by
          simp [decisive, hHealthy, hClient, hAsk]
        obtain ⟨p', hRest, hKept'⟩ := ih (hKept.mark idx)
        rw [decisive_mark hDecisive] at hRest
        rw [hDecisive]
        exact ⟨p', by simpa [hAsk, hAddr] using hRest, hKept'⟩
    · have hDecisive : p.decisive ask idx = none := by
        unfold decisive
        rw [if_neg hHealthy]
      rw [if_neg hHealthy, hDecisive]
      exact ih hKept

/-! ## The pools of a run -/

theorem kept_newConnectionPool {clients : List (PoolClient R)} {addrs : List Bytes}
    (hAddrs : addrs.length = clients.length) (hFits : clients.length < 2 ^ 63) :
    (newConnectionPool clients addrs).Kept := by
  refine ⟨hAddrs, hFits, ?_⟩
  -- one mark after the other, from the empty map
  suffices h : ∀ (is : List Nat) (m : ExtTreeMap Int64 Bool compare),
      (∀ i ∈ is, i < clients.length) →
      ({ clients, addrs, health := m } : ConnectionPool R).Kept →
      ({ clients, addrs, health := is.foldl (fun m i => m.insert (Int64.ofNat i) true) m } :
        ConnectionPool R).Kept by
    have hEmpty : ({ clients, addrs, health := ∅ } : ConnectionPool R).Kept :=
      ⟨hAddrs, hFits, fun idx hHealthy => by simp [getHealth] at hHealthy⟩
    exact (h _ ∅ (fun i hi => List.mem_range.mp hi) hEmpty).indexes
  intro is
  induction is with
  | nil => exact fun m _ hm => hm
  | cons i is ih =>
    intro m hLt hm
    refine ih _ (fun j hj => hLt j (List.mem_cons_of_mem _ hj)) (hm.insert fun _ => ?_)
    have hi := hLt i List.mem_cons_self
    rw [sliceAt_ofNat clients (hi.trans hFits)]
    simpa using hi

theorem kept_monitorHealth {p p' : ConnectionPool R} (hKept : p.Kept)
    (hTick : p.monitorHealth = .ok p') : p'.Kept := by
  refine (foldlM_invariant (fun q => q.clients = p.clients ∧ q.Kept) ?_ ⟨rfl, hKept⟩ hTick).2
  rintro ⟨i, client⟩ hMem q q' ⟨hSame, hq⟩ hStep
  have hi : i < q.clients.length := by
    obtain ⟨c, hc, hEq⟩ := List.mem_map.mp hMem
    obtain ⟨rfl, -⟩ := Prod.mk.inj hEq
    rw [hSame]
    simpa using List.snd_lt_of_mem_zipIdx hc
  have hIndex : (sliceAt q.clients (Int64.ofNat i)).isSome := by
    rw [sliceAt_ofNat q.clients (hi.trans hq.fits)]
    simpa using hi
  have hMarked : ∃ healthy, q' = { q with health := q.health.insert (Int64.ofNat i) healthy } := by
    unfold monitorClient at hStep
    split at hStep
    · exact ⟨true, (pure_eq_ok.mp hStep).symm⟩
    · dsimp only at hStep
      split at hStep
      · exact ⟨false, (pure_eq_ok.mp hStep).symm⟩
      · split at hStep
        · exact (throw_ne_ok.mp hStep).elim
        · exact ⟨false, (pure_eq_ok.mp hStep).symm⟩
  obtain ⟨healthy, rfl⟩ := hMarked
  exact ⟨hSame, hq.insert fun _ => hIndex⟩

/-- The pools that a light node comes to hold. -/
inductive Reachable : ConnectionPool R → Prop
  | new (clients : List (PoolClient R)) (addrs : List Bytes)
      (hAddrs : addrs.length = clients.length) (hFits : clients.length < 2 ^ 63) :
      Reachable (newConnectionPool clients addrs)
  /-- The full nodes answer differently from now on. -/
  | answers {p : ConnectionPool R} (clients : List (PoolClient R))
      (hLength : clients.length = p.clients.length) :
      Reachable p → Reachable { p with clients }
  | query {p p' : ConnectionPool R} {result : Except RpcError R} (domain : Bytes)
      (blockIndex : Int64) (hQuery : p.queryWithFailover domain blockIndex = .ok (result, p')) :
      Reachable p → Reachable p'
  | broadcast {p p' : ConnectionPool R} {result : Except RpcError TransactionResponse}
      (tx : Transaction) (hBroadcast : p.broadcastTransactionWithFailover tx = .ok (result, p')) :
      Reachable p → Reachable p'
  | tick {p p' : ConnectionPool R} (hTick : p.monitorHealth = .ok p') : Reachable p → Reachable p'

/-- The loop never panics in a pool that is kept, and keeps it. -/
theorem Kept.failover {p p' : ConnectionPool R} {ask : PoolClient R → Attempt A}
    {idxs : List Int64} {result : Except RpcError A} (hKept : p.Kept)
    (h : failover ask idxs p = .ok (result, p')) : p'.Kept := by
  obtain ⟨q, hEq, hq⟩ := failover_eq ask idxs hKept
  rw [h] at hEq
  obtain ⟨-, rfl⟩ := Prod.mk.inj (Except.ok.inj hEq)
  exact hq

theorem Reachable.kept {p : ConnectionPool R} (h : p.Reachable) : p.Kept := by
  induction h with
  | new clients addrs hAddrs hFits => exact kept_newConnectionPool hAddrs hFits
  | answers clients hLength _ ih =>
    refine ⟨ih.addressed.trans hLength.symm, hLength ▸ ih.fits, fun idx hHealthy => ?_⟩
    have hOld := ih.indexes idx hHealthy
    rw [sliceAt_isSome] at hOld ⊢
    rw [hLength]
    exact hOld
  | query _ _ hQuery _ ih => exact ih.failover hQuery
  | broadcast _ hBroadcast _ ih => exact ih.failover hBroadcast
  | tick hTick _ ih => exact kept_monitorHealth ih hTick

/-! ## Consensus -/

/-- The full node at `idx` answers that the domain is absent. -/
def SaysAbsent (p : ConnectionPool R) (domain : Bytes) (idx : Int64) : Prop :=
  ∃ client message, sliceAt p.clients idx = some client ∧
    client.queryDomain domain 0 = .error (.status .notFound message)

/-- A healthy full node of the pool. -/
def Healthy (p : ConnectionPool R) (idx : Int64) : Prop :=
  p.getHealth idx = true ∧ (sliceAt p.clients idx).isSome

instance (p : ConnectionPool R) (idx : Int64) : Decidable (p.Healthy idx) :=
  inferInstanceAs (Decidable (_ ∧ _))

/-- At least two full nodes are healthy, and all that are say that the domain is absent. -/
def Consensus (p : ConnectionPool R) (domain : Bytes) : Prop :=
  (∃ i j, i ≠ j ∧ p.Healthy i ∧ p.Healthy j) ∧ ∀ idx, p.Healthy idx → p.SaysAbsent domain idx

/-- The first answer on the way through the healthy nodes that is not a failure. -/
def firstAnswer (p : ConnectionPool R) (domain : Bytes) : Option (Except RpcError R) :=
  p.visits.findSome? (p.decisive (askDomain domain 0))

theorem getHealth_of_mem {p : ConnectionPool R} {e : Int64 × Bool}
    (he : e ∈ p.health.toList.filter fun e => e.2) : p.getHealth e.1 = true := by
  obtain ⟨hMem, hTrue⟩ := List.mem_filter.mp he
  have hGet : p.health[e.1]? = some e.2 := ExtTreeMap.mem_toList_iff_getElem?_eq_some.mp hMem
  unfold getHealth
  rw [hGet]
  exact hTrue

theorem Kept.two_healthy {p : ConnectionPool R} (h : p.Kept) (hCount : 2 ≤ p.getHealthyCount) :
    ∃ i j, i ≠ j ∧ p.Healthy i ∧ p.Healthy j := by
  have hHealthy : ∀ e ∈ p.health.toList.filter fun e => e.2, p.Healthy e.1 := fun e he =>
    ⟨getHealth_of_mem he, h.indexes _ (getHealth_of_mem he)⟩
  have hDistinct : (p.health.toList.filter fun e => e.2).Pairwise
      fun a b => ¬ compare a.1 b.1 = .eq :=
    (ExtTreeMap.distinct_keys_toList (t := p.health)).filter _
  unfold getHealthyCount at hCount
  rcases hList : p.health.toList.filter fun e => e.2 with _ | ⟨a, _ | ⟨b, rest⟩⟩
  · simp [hList] at hCount
  · simp [hList] at hCount
  · rw [hList] at hHealthy hDistinct
    refine ⟨a.1, b.1, fun hEq => ?_, hHealthy a (by simp), hHealthy b (by simp)⟩
    have hNe := List.rel_of_pairwise_cons hDistinct (List.mem_cons_self : b ∈ b :: rest)
    exact hNe (by rw [hEq]; exact ReflCmp.compare_self)

end ConnectionPool

end Bdns.Gateway

namespace Bdns.Network

open Lib Gateway

/-- `VerifyNXDOMAIN`, where `pool` is nil or the connection pool of the node. -/
def verifyNXDOMAIN {R : Type} (pool : Option (ConnectionPool R)) (domain : Bytes) :
    Go (Bool × Option (ConnectionPool R)) :=
  match pool with
  | none => pure (false, none)
  | some p =>
    if p.getHealthyCount < 2 then pure (false, some p)
    else do
      match ← p.queryWithFailover domain 0 with
      | (.ok _, p') => pure (false, some p')
      | (.error _, p') => pure (true, some p')

theorem verifyNXDOMAIN_eq {R : Type} {p : ConnectionPool R} (hKept : p.Kept) (domain : Bytes) :
    (∃ p', verifyNXDOMAIN (some p) domain = .ok (true, p')) ↔
      2 ≤ p.getHealthyCount ∧ ∀ resp, p.firstAnswer domain ≠ some (.ok resp) := by
  obtain ⟨p', hQuery, -⟩ :=
    ConnectionPool.failover_eq (ConnectionPool.askDomain domain 0) p.visits hKept
  have hQuery : p.queryWithFailover domain 0 =
      .ok ((p.firstAnswer domain).getD (.error errAllPeersDown), p') := hQuery
  unfold verifyNXDOMAIN
  by_cases hCount : p.getHealthyCount < 2
  · simp [hCount]
  · have hTwo := Nat.le_of_not_lt hCount
    simp only [if_neg hCount, hQuery]
    cases hFirst : p.firstAnswer domain with
    | none => simp [hTwo]
    | some answer =>
      cases answer with
      | ok resp => simp
      | error err => simp [hTwo]

/-- A verdict `true` is a consensus exactly where there are fewer than two healthy nodes (and no
such verdict), or the first answer on the way has found the domain (and no such verdict), or the
healthy nodes do agree that the domain is absent. -/
theorem verdict_is_consensus_iff {R : Type} {p : ConnectionPool R} (hKept : p.Kept)
    (domain : Bytes) :
    ((∃ p', verifyNXDOMAIN (some p) domain = .ok (true, p')) → p.Consensus domain) ↔
      p.getHealthyCount < 2 ∨ (∃ resp, p.firstAnswer domain = some (.ok resp)) ∨
        ∀ idx, p.Healthy idx → p.SaysAbsent domain idx := by
  rw [verifyNXDOMAIN_eq hKept]
  constructor
  · intro h
    by_cases hCount : p.getHealthyCount < 2
    · exact .inl hCount
    · by_cases hFound : ∃ resp, p.firstAnswer domain = some (.ok resp)
      · exact .inr (.inl hFound)
      · exact .inr (.inr (h ⟨Nat.le_of_not_lt hCount, not_exists.mp hFound⟩).2)
  · rintro (hFew | ⟨resp, hFound⟩ | hAbsent) ⟨hCount, hNot⟩
    · exact absurd hCount (Nat.not_le_of_lt hFew)
    · exact absurd hFound (hNot resp)
    · exact ⟨hKept.two_healthy hCount, hAbsent⟩

/-- A pool of two full nodes with the given answers. -/
def StandIn.poolOf (first second : Except RpcError Bytes) : ConnectionPool Bytes :=
  .newConnectionPool [{ queryDomain := fun _ _ => first }, { queryDomain := fun _ _ => second }]
    [utf8 "first", utf8 "second"]

def StandIn.domainNotFound : RpcError := .status .notFound (utf8 "domain not found: a.bdns")

theorem exists_verdict {R : Type} {pool : Option (ConnectionPool R)} {domain : Bytes}
    (h : (verifyNXDOMAIN pool domain).toOption.any (fun r => r.1) = true) :
    ∃ p', verifyNXDOMAIN pool domain = .ok (true, p') := by
  obtain ⟨⟨verdict, p'⟩, hRun, hTrue⟩ := exists_of_any h
  obtain rfl : verdict = true := hTrue
  exact ⟨p', hRun⟩

/-- Both nodes say that the domain is absent. -/
theorem verdict_is_consensus_pair :
    (∃ p', verifyNXDOMAIN (some (StandIn.poolOf (.error StandIn.domainNotFound)
        (.error StandIn.domainNotFound))) (utf8 "a.bdns") = .ok (true, p')) ∧
      (StandIn.poolOf (.error StandIn.domainNotFound)
        (.error StandIn.domainNotFound)).Consensus (utf8 "a.bdns") := by
  have hVerdict := exists_verdict (by decide +kernel : (verifyNXDOMAIN (some (StandIn.poolOf
    (.error StandIn.domainNotFound) (.error StandIn.domainNotFound)))
      (utf8 "a.bdns")).toOption.any (fun r => r.1) = true)
  refine ⟨hVerdict, (verdict_is_consensus_iff (ConnectionPool.kept_newConnectionPool rfl
    (by decide)) _).mpr (.inr (.inr ?_)) hVerdict⟩
  rintro idx ⟨-, hClient⟩
  obtain ⟨client, hClient⟩ := Option.isSome_iff_exists.mp hClient
  obtain rfl : client = { queryDomain := fun _ _ => .error StandIn.domainNotFound } := by
    simpa [StandIn.poolOf, ConnectionPool.newConnectionPool] using mem_of_sliceAt hClient
  exact ⟨_, _, hClient, rfl⟩

/-- The first node does not know the domain, the second one has it: nobody asks the second. -/
theorem one_absence_is_the_verdict :
    (∃ p', verifyNXDOMAIN (some (StandIn.poolOf (.error StandIn.domainNotFound)
        (.ok (utf8 "10.0.0.1")))) (utf8 "a.bdns") = .ok (true, p')) ∧
      ¬ (StandIn.poolOf (.error StandIn.domainNotFound)
        (.ok (utf8 "10.0.0.1"))).Consensus (utf8 "a.bdns") := by
  refine ⟨exists_verdict (by decide +kernel), fun h => ?_⟩
  obtain ⟨client, message, hClient, hAnswer⟩ := h.2 1 (by decide +kernel)
  obtain rfl : { queryDomain := fun _ _ => .ok (utf8 "10.0.0.1") } = client :=
    Option.some.inj hClient
  exact absurd hAnswer (by simp)

end Bdns.Network
