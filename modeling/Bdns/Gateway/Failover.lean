import Bdns.Gateway.Pool

/-!
# Whom a failover asks, and whom it marks

The failover loops of `gateway/pool.go` with a trace of the clients they ask. The traced loop asks
the healthy clients in cyclic order up to the first one that it does not count as failed, and takes
the failed ones out of service. A query counts an answer as failed that is neither a success nor
`NotFound`, a broadcast everything but an accepted transaction: there a refusal of the transaction
is taken for a failure of the node.
-/

namespace Bdns.Gateway

open Lib Blockchain Std

/-! ## Outcomes -/

/-- What the answer of a client is to the caller. -/
inductive Outcome
  | success
  | refusal
  | transportError
  deriving DecidableEq

/-- A call of the pool. -/
inductive PoolCall
  | query (domain : Bytes) (blockIndex : Int64)
  | broadcast (tx : Transaction)

section Outcomes

variable {R : Type}

/-- The outcome of an error, with the errors of the transport given. -/
def outcomeOfError (transport : RpcError → Bool) (err : RpcError) : Outcome :=
  if transport err then .transportError else .refusal

/-- The outcome of a call at a client. A broadcast without an error and without a response is a
refusal. -/
def PoolCall.outcome (transport : RpcError → Bool) (client : PoolClient R) : PoolCall → Outcome
  | .query domain blockIndex =>
    match client.queryDomain domain blockIndex with
    | .ok _ => .success
    | .error err => outcomeOfError transport err
  | .broadcast tx =>
    match client.broadcastTransaction tx with
    | .ok (some resp) => if resp.accepted then .success else .refusal
    | .ok none => .refusal
    | .error err => outcomeOfError transport err

def Attempt.isFailed {A : Type} : Attempt A → Bool
  | .failed => true
  | _ => false

/-- Whether the loop counts the answer of a client as failed. -/
def PoolCall.fails (client : PoolClient R) : PoolCall → Bool
  | .query domain blockIndex => (ConnectionPool.askDomain domain blockIndex client).isFailed
  | .broadcast tx => (ConnectionPool.askBroadcast tx client).isFailed

/-- An error of the transport counts as failed in both loops. -/
theorem PoolCall.fails_of_transportError {transport : RpcError → Bool}
    (hNotFound : ∀ message, transport (.status .notFound message) = false) {call : PoolCall}
    {client : PoolClient R} (hOutcome : call.outcome transport client = .transportError) :
    call.fails client = true := by
  cases call with
  | query domain blockIndex =>
    simp only [PoolCall.outcome, outcomeOfError] at hOutcome
    simp only [PoolCall.fails, ConnectionPool.askDomain]
    cases hAnswer : client.queryDomain domain blockIndex with
    | ok resp =>
      rw [hAnswer] at hOutcome
      cases hOutcome
    | error err =>
      rw [hAnswer] at hOutcome
      dsimp only at hOutcome
      split at hOutcome
      · rename_i hTransport
        split
        · rename_i hOk
          cases hOk
        · rename_i message hEq
          rw [Except.error.inj hEq, hNotFound] at hTransport
          cases hTransport
        · rfl
      · cases hOutcome
  | broadcast tx =>
    simp only [PoolCall.outcome] at hOutcome
    simp only [PoolCall.fails, ConnectionPool.askBroadcast]
    cases hAnswer : client.broadcastTransaction tx with
    | ok resp =>
      rw [hAnswer] at hOutcome
      cases resp with
      | none => cases hOutcome
      | some resp =>
        dsimp only at hOutcome
        split at hOutcome <;> cases hOutcome
    | error err => rfl

/-- A success never counts as failed. -/
theorem PoolCall.not_fails_of_success {transport : RpcError → Bool} {call : PoolCall}
    {client : PoolClient R} (hOutcome : call.outcome transport client = .success) :
    ¬ call.fails client = true := by
  cases call with
  | query domain blockIndex =>
    simp only [PoolCall.outcome, outcomeOfError] at hOutcome
    simp only [PoolCall.fails, ConnectionPool.askDomain]
    cases hAnswer : client.queryDomain domain blockIndex with
    | ok resp => exact Bool.false_ne_true
    | error err =>
      rw [hAnswer] at hOutcome
      dsimp only at hOutcome
      split at hOutcome <;> cases hOutcome
  | broadcast tx =>
    simp only [PoolCall.outcome, outcomeOfError] at hOutcome
    simp only [PoolCall.fails, ConnectionPool.askBroadcast]
    cases hAnswer : client.broadcastTransaction tx with
    | ok resp =>
      rw [hAnswer] at hOutcome
      cases resp with
      | none => cases hOutcome
      | some resp =>
        dsimp only at hOutcome ⊢
        split at hOutcome
        · rename_i hAccepted
          rw [if_pos hAccepted]
          exact Bool.false_ne_true
        · cases hOutcome
    | error err =>
      rw [hAnswer] at hOutcome
      dsimp only at hOutcome
      split at hOutcome <;> cases hOutcome

end Outcomes

/-! ## Up to the first stop -/

section UpTo

variable {α : Type}

/-- The elements of a list up to and including the first one that does not go on. -/
def upTo (goesOn : α → Bool) : List α → List α
  | [] => []
  | x :: xs => if goesOn x then x :: upTo goesOn xs else [x]

theorem upTo_sublist (goesOn : α → Bool) (xs : List α) : (upTo goesOn xs).Sublist xs := by
  induction xs with
  | nil => exact .slnil
  | cons x xs ih =>
    unfold upTo
    split
    · exact ih.cons_cons x
    · exact (List.nil_sublist xs).cons_cons x

theorem upTo_congr {f g : α → Bool} {xs : List α} (h : ∀ x ∈ upTo f xs, f x = g x) :
    upTo f xs = upTo g xs := by
  induction xs with
  | nil => rfl
  | cons x xs ih =>
    unfold upTo at h ⊢
    by_cases hx : f x = true
    · rw [if_pos hx] at h ⊢
      rw [if_pos (h x List.mem_cons_self ▸ hx), ih fun y hy => h y (List.mem_cons_of_mem _ hy)]
    · rw [if_neg hx] at h ⊢
      rw [if_neg (h x List.mem_cons_self ▸ hx)]

end UpTo

namespace ConnectionPool

variable {R A : Type}

/-! ## The traced loop -/

/-- The failover loop with the indexes of the clients that it asks. -/
def tracedFailover (ask : PoolClient R → Attempt A) :
    List Int64 → ConnectionPool R → Go (List Int64 × Except RpcError A × ConnectionPool R)
  | [], p => pure ([], .error errAllPeersDown, p)
  | idx :: rest, p =>
    if p.getHealth idx then
      match sliceAt p.clients idx with
      | none => throw .indexOutOfRange
      | some client =>
        match ask client with
        | .answered resp => pure ([idx], .ok resp, { p with current := idx })
        | .refused err => pure ([idx], .error err, p)
        | .failed =>
          match sliceAt p.addrs idx with
          | none => throw .indexOutOfRange
          | some _ => do
            let (asked, r) ← tracedFailover ask rest { p with health := p.health.insert idx false }
            pure (idx :: asked, r)
    else tracedFailover ask rest p

/-- Without the trace it is the loop of the source. -/
theorem map_tracedFailover (ask : PoolClient R → Attempt A) (idxs : List Int64)
    (p : ConnectionPool R) :
    Prod.snd <$> tracedFailover ask idxs p = failover ask idxs p := by
  induction idxs generalizing p with
  | nil => rfl
  | cons idx rest ih =>
    unfold tracedFailover failover
    split
    · cases sliceAt p.clients idx with
      | none => rfl
      | some client =>
        dsimp only
        cases ask client with
        | answered resp => rfl
        | refused err => rfl
        | failed =>
          cases sliceAt p.addrs idx with
          | none => rfl
          | some addr =>
            dsimp only
            rw [← ih]
            cases tracedFailover ask rest { p with health := p.health.insert idx false } <;> rfl
    · exact ih p

/-- The client at an index answers so that the loop goes on. -/
def failsAt (p : ConnectionPool R) (ask : PoolClient R → Attempt A) (idx : Int64) : Bool :=
  (sliceAt p.clients idx).any fun client => (ask client).isFailed

private theorem not_marked_of_stop {p : ConnectionPool R} {ask : PoolClient R → Attempt A}
    {idx : Int64} {rest : List Int64} (hStop : p.failsAt ask idx = false) (i : Int64) :
    ¬ (i ∈ upTo (p.failsAt ask) (idx :: rest) ∧ p.failsAt ask i = true) := by
  simp only [upTo, hStop, Bool.false_eq_true, if_false, List.mem_singleton]
  rintro ⟨rfl, hFails⟩
  exact absurd hFails (by simp [hStop])

/-- The clients that the loop asks, and the marks it leaves. -/
theorem tracedFailover_eq (ask : PoolClient R → Attempt A) {idxs : List Int64}
    {p : ConnectionPool R} (hAddressed : p.addrs.length = p.clients.length)
    (hIdxs : ∀ idx ∈ idxs, (sliceAt p.clients idx).isSome) (hNodup : idxs.Nodup) :
    ∃ result p', tracedFailover ask idxs p =
        .ok (upTo (p.failsAt ask) (idxs.filter p.getHealth), result, p') ∧
      p'.clients = p.clients ∧ p'.addrs = p.addrs ∧
      (p'.current = p.current ∨ p'.current ∈ idxs) ∧
      ∀ idx, p'.getHealth idx = true ↔ p.getHealth idx = true ∧
        ¬ (idx ∈ upTo (p.failsAt ask) (idxs.filter p.getHealth) ∧ p.failsAt ask idx = true) := by
  induction idxs generalizing p with
  | nil => exact ⟨_, p, rfl, rfl, rfl, .inl rfl, by simp [upTo]⟩
  | cons idx rest ih =>
    obtain ⟨hOut, hRest⟩ := List.nodup_cons.mp hNodup
    have hIdxs' : ∀ i ∈ rest, (sliceAt p.clients i).isSome :=
      fun i hi => hIdxs i (List.mem_cons_of_mem _ hi)
    unfold tracedFailover
    by_cases hHealthy : p.getHealth idx = true
    · obtain ⟨client, hClient⟩ := Option.isSome_iff_exists.mp (hIdxs idx List.mem_cons_self)
      obtain ⟨addr, hAddr⟩ : ∃ addr, sliceAt p.addrs idx = some addr := by
        have hIdx := hIdxs idx List.mem_cons_self
        rw [sliceAt_isSome, ← hAddressed, ← sliceAt_isSome] at hIdx
        exact Option.isSome_iff_exists.mp hIdx
      rw [if_pos hHealthy, hClient, List.filter_cons_of_pos hHealthy]
      dsimp only
      cases hAsk : ask client with
      | answered resp =>
        have hStop : p.failsAt ask idx = false := by simp [failsAt, hClient, hAsk, Attempt.isFailed]
        refine ⟨.ok resp, { p with current := idx }, ?_, rfl, rfl, .inr List.mem_cons_self, ?_⟩
        · simp [upTo, hStop, pure, Except.pure]
        · exact fun i => (and_iff_left (not_marked_of_stop hStop i)).symm
      | refused err =>
        have hStop : p.failsAt ask idx = false := by simp [failsAt, hClient, hAsk, Attempt.isFailed]
        refine ⟨.error err, p, ?_, rfl, rfl, .inl rfl, ?_⟩
        · simp [upTo, hStop, pure, Except.pure]
        · exact fun i => (and_iff_left (not_marked_of_stop hStop i)).symm
      | failed =>
        have hGo : p.failsAt ask idx = true := by simp [failsAt, hClient, hAsk, Attempt.isFailed]
        -- the mark of this client does not matter for the rest of the way
        have hFilter : rest.filter ({ p with health := p.health.insert idx false } :
            ConnectionPool R).getHealth = rest.filter p.getHealth := by
          apply List.filter_congr
          intro i hi
          rw [getHealth_insert, if_neg fun (h : idx = i) => hOut (h ▸ hi)]
        obtain ⟨result, p', hTrace, hClients, hAddrs, hCurrent, hMarks⟩ :=
          ih (p := { p with health := p.health.insert idx false }) hAddressed hIdxs' hRest
        have hFails : ({ p with health := p.health.insert idx false } :
            ConnectionPool R).failsAt ask = p.failsAt ask := rfl
        rw [hFilter, hFails] at hTrace hMarks
        refine ⟨result, p', ?_, hClients, hAddrs, hCurrent.imp_right (List.mem_cons_of_mem _), ?_⟩
        · simp [hAddr, hTrace, upTo, hGo, bind, Except.bind, pure, Except.pure]
        · intro i
          rw [hMarks, getHealth_insert]
          simp only [upTo, hGo, if_true, List.mem_cons]
          by_cases hi : idx = i
          · subst hi
            simp [hGo]
          · simp [hi, Ne.symm hi]
    · rw [if_neg hHealthy, List.filter_cons_of_neg hHealthy]
      obtain ⟨result, p', hTrace, hClients, hAddrs, hCurrent, hMarks⟩ := ih hAddressed hIdxs' hRest
      exact ⟨result, p', hTrace, hClients, hAddrs, hCurrent.imp_right (List.mem_cons_of_mem _),
        hMarks⟩

/-! ## The way of the loop -/

/-- The state that every pool is in: addresses and clients are parallel, the current client is one
of them, and there are no more of them than interface values of 16 bytes fit into memory. -/
structure Ready (p : ConnectionPool R) : Prop where
  addressed : p.addrs.length = p.clients.length
  fits : p.clients.length ≤ 2 ^ 59
  current : p.clients ≠ [] → 0 ≤ p.current.toInt ∧ p.current.toInt < p.clients.length

theorem ready_newConnectionPool {clients : List (PoolClient R)} {addrs : List Bytes}
    (hAddrs : addrs.length = clients.length) (hFits : clients.length ≤ 2 ^ 59) :
    (newConnectionPool clients addrs).Ready := by
  refine ⟨hAddrs, hFits, fun hSome => ⟨le_rfl, ?_⟩⟩
  have hPos : 0 < clients.length := List.length_pos_of_ne_nil hSome
  exact Int.natCast_pos.mpr hPos

/-- All clients, in cyclic order from the current one. -/
def cyclic (p : ConnectionPool R) : List Nat :=
  (List.range p.clients.length).map fun i => (p.current.toInt.toNat + i) % p.clients.length

theorem Ready.visits_eq {p : ConnectionPool R} (hReady : p.Ready) :
    p.visits = p.cyclic.map Int64.ofNat := by
  unfold visits cyclic
  rw [List.map_map]
  apply List.map_congr_left
  intro i hi
  have hi := List.mem_range.mp hi
  have hFits := hReady.fits
  obtain ⟨hPos, hLt⟩ := hReady.current (by
    intro hNone
    rw [hNone] at hi
    cases hi)
  have hSum : (p.current + Int64.ofNat i).toInt = p.current.toInt + i := by
    rw [Int64.toInt_add, Int64.toInt_ofNat_of_lt (by omega)]
    apply Int.bmod_eq_of_le <;> omega
  have hNat : p.current.toInt + i = ((p.current.toInt.toNat + i : Nat) : Int) := by omega
  have hLess : (p.current.toInt.toNat + i) % p.clients.length < p.clients.length :=
    Nat.mod_lt _ (by omega)
  apply Int64.toInt_inj.mp
  rw [Function.comp_apply, Int64.toInt_mod, hSum, Int64.toInt_ofNat_of_lt (by omega), hNat,
    ← Int.ofNat_tmod, Int64.toInt_ofNat_of_lt (by omega)]

theorem cyclic_nodup (p : ConnectionPool R) : p.cyclic.Nodup := by
  apply List.Nodup.map_on _ List.nodup_range
  intro i hi j hj hSame
  have hMod : i % p.clients.length = j % p.clients.length := Nat.ModEq.add_left_cancel' _ hSame
  rwa [Nat.mod_eq_of_lt (List.mem_range.mp hi), Nat.mod_eq_of_lt (List.mem_range.mp hj)] at hMod

theorem lt_of_mem_cyclic {p : ConnectionPool R} {i : Nat} (hi : i ∈ p.cyclic) :
    i < p.clients.length := by
  obtain ⟨j, hj, rfl⟩ := List.mem_map.mp hi
  exact Nat.mod_lt _ (Nat.zero_lt_of_lt (List.mem_range.mp hj))

theorem Ready.visits_nodup {p : ConnectionPool R} (hReady : p.Ready) : p.visits.Nodup := by
  rw [hReady.visits_eq]
  apply List.Nodup.map_on _ p.cyclic_nodup
  intro i hi j hj hSame
  have hFits := hReady.fits
  have hi := lt_of_mem_cyclic hi
  have hj := lt_of_mem_cyclic hj
  have hInt := congrArg Int64.toInt hSame
  rw [Int64.toInt_ofNat_of_lt (by omega), Int64.toInt_ofNat_of_lt (by omega)] at hInt
  exact Int.ofNat.inj hInt

/-- Every visit is an index of a client. -/
theorem Ready.mem_visits {p : ConnectionPool R} (hReady : p.Ready) {idx : Int64}
    (hIdx : idx ∈ p.visits) : 0 ≤ idx.toInt ∧ idx.toInt < p.clients.length := by
  rw [hReady.visits_eq] at hIdx
  obtain ⟨i, hi, rfl⟩ := List.mem_map.mp hIdx
  have hFits := hReady.fits
  have hi := lt_of_mem_cyclic hi
  rw [Int64.toInt_ofNat_of_lt (by omega)]
  omega

/-! ## Calls -/

/-- A call and the clients that it asks. -/
def perform (p : ConnectionPool R) : PoolCall → Go (List Int64 × ConnectionPool R)
  | .query domain blockIndex =>
    (fun r => (r.1, r.2.2)) <$> tracedFailover (askDomain domain blockIndex) p.visits p
  | .broadcast tx => (fun r => (r.1, r.2.2)) <$> tracedFailover (askBroadcast tx) p.visits p

/-- The pool after a call is the one that the source's methods leave. -/
theorem map_perform (p : ConnectionPool R) (call : PoolCall) :
    Prod.snd <$> p.perform call =
      match call with
      | .query domain blockIndex => Prod.snd <$> p.queryWithFailover domain blockIndex
      | .broadcast tx => Prod.snd <$> p.broadcastTransactionWithFailover tx := by
  cases call with
  | query domain blockIndex =>
    simp only [perform, queryWithFailover, ← map_tracedFailover, Functor.map_map]
  | broadcast tx =>
    simp only [perform, broadcastTransactionWithFailover, ← map_tracedFailover, Functor.map_map]

/-- The client at an index is counted as failed by a call. -/
def failsIn (p : ConnectionPool R) (call : PoolCall) (idx : Int64) : Bool :=
  (sliceAt p.clients idx).any fun client => call.fails client

/-- The outcome of a call at an index. -/
def outcomeAt (p : ConnectionPool R) (transport : RpcError → Bool) (call : PoolCall)
    (idx : Int64) : Option Outcome :=
  (sliceAt p.clients idx).map fun client => call.outcome transport client

/-- The healthy clients, in cyclic order from the current one. -/
def healthyCycle (p : ConnectionPool R) : List Int64 :=
  (p.cyclic.map Int64.ofNat).filter p.getHealth

/-- What a call does in a pool: it returns, asks the clients up to the first one that it does not
count as failed, and marks those that it does. -/
theorem perform_eq {p : ConnectionPool R} (hReady : p.Ready) (call : PoolCall) :
    ∃ p', p.perform call = .ok (upTo (p.failsIn call) p.healthyCycle, p') ∧ p'.Ready ∧
      p'.clients = p.clients ∧
      ∀ idx, p'.getHealth idx = true ↔ p.getHealth idx = true ∧
        ¬ (idx ∈ upTo (p.failsIn call) p.healthyCycle ∧ p.failsIn call idx = true) := by
  have hIdxs : ∀ idx ∈ p.visits, (sliceAt p.clients idx).isSome := by
    intro idx hIdx
    obtain ⟨hPos, hLt⟩ := hReady.mem_visits hIdx
    rw [sliceAt_isSome, Int64.lt_iff_toInt_lt]
    have hZero : (0 : Int64).toInt = 0 := rfl
    omega
  have hReady' : ∀ {p' : ConnectionPool R}, p'.clients = p.clients → p'.addrs = p.addrs →
      (p'.current = p.current ∨ p'.current ∈ p.visits) → p'.Ready := by
    intro p' hClients hAddrs hCurrent
    refine ⟨by rw [hAddrs, hClients, hReady.addressed], by rw [hClients]; exact hReady.fits, ?_⟩
    rw [hClients]
    intro hSome
    rcases hCurrent with hCurrent | hCurrent
    · rw [hCurrent]
      exact hReady.current hSome
    · exact hReady.mem_visits hCurrent
  unfold healthyCycle
  rw [← hReady.visits_eq]
  cases call with
  | query domain blockIndex =>
    obtain ⟨result, p', hTrace, hClients, hAddrs, hCurrent, hMarks⟩ :=
      tracedFailover_eq (askDomain domain blockIndex) hReady.addressed hIdxs hReady.visits_nodup
    exact ⟨p', by rw [perform, hTrace]; rfl, hReady' hClients hAddrs hCurrent, hClients, hMarks⟩
  | broadcast tx =>
    obtain ⟨result, p', hTrace, hClients, hAddrs, hCurrent, hMarks⟩ :=
      tracedFailover_eq (askBroadcast tx) hReady.addressed hIdxs hReady.visits_nodup
    exact ⟨p', by rw [perform, hTrace]; rfl, hReady' hClients hAddrs hCurrent, hClients, hMarks⟩

theorem healthyCycle_nodup {p : ConnectionPool R} (hReady : p.Ready) : p.healthyCycle.Nodup := by
  unfold healthyCycle
  rw [← hReady.visits_eq]
  exact hReady.visits_nodup.filter _

/-! ## Sequences of calls -/

/-- A call that has been made: the pool before it, the clients asked and the pool after it. -/
structure Served (R : Type) where
  pool : ConnectionPool R
  call : PoolCall
  asked : List Int64
  after : ConnectionPool R

/-- Calls one after the other. Before each one the clients may change how they answer. -/
def serve : ConnectionPool R → List (List (PoolClient R) × PoolCall) → Go (List (Served R))
  | _, [] => pure []
  | p, (clients, call) :: rest => do
    let pool : ConnectionPool R := { p with clients }
    let (asked, after) ← pool.perform call
    let log ← serve after rest
    pure (⟨pool, call, asked, after⟩ :: log)

/-- The call asks the healthy clients in cyclic order, each of them once and up to the first
success or refusal, and marks no client without an error of the transport. -/
structure Served.Proper (transport : RpcError → Bool) (e : Served R) : Prop where
  asked : e.asked = upTo
    (fun idx => e.pool.outcomeAt transport e.call idx = some .transportError) e.pool.healthyCycle
  once : e.asked.Nodup
  marks : ∀ idx, e.pool.getHealth idx = true → e.after.getHealth idx = false →
    idx ∈ e.asked ∧ e.pool.outcomeAt transport e.call idx = some .transportError

/-- No client asked by the call refuses it in a way that the call counts as failed. -/
def Served.NoRefusalFails (transport : RpcError → Bool) (e : Served R) : Prop :=
  ∀ idx ∈ e.asked, e.pool.outcomeAt transport e.call idx = some .refusal →
    e.pool.failsIn e.call idx = false

instance (transport : RpcError → Bool) (e : Served R) : Decidable (e.NoRefusalFails transport) :=
  decidable_of_iff (e.asked.all (fun idx =>
      e.pool.outcomeAt transport e.call idx ≠ some .refusal ∨
        e.pool.failsIn e.call idx = false) = true) <| by
    simp [Served.NoRefusalFails, imp_iff_not_or]

section Calls

variable {transport : RpcError → Bool} {p : ConnectionPool R} {call : PoolCall} {idx : Int64}

theorem failsIn_of_transportError
    (hNotFound : ∀ message, transport (.status .notFound message) = false)
    (hOutcome : p.outcomeAt transport call idx = some .transportError) :
    p.failsIn call idx = true := by
  obtain ⟨client, hClient, hOutcome⟩ := Option.map_eq_some_iff.mp hOutcome
  unfold failsIn
  rw [hClient]
  exact PoolCall.fails_of_transportError hNotFound hOutcome

/-- What is counted as failed is an error of the transport or a refusal. -/
theorem outcomeAt_of_failsIn (hFails : p.failsIn call idx = true) :
    p.outcomeAt transport call idx = some .transportError ∨
      p.outcomeAt transport call idx = some .refusal := by
  obtain ⟨client, hClient, hFails⟩ := (Option.any_eq_true _ _).mp hFails
  unfold outcomeAt
  rw [hClient]
  simp only [Option.map_some, Option.some.injEq]
  cases hOutcome : call.outcome transport client with
  | transportError => exact .inl rfl
  | refusal => exact .inr rfl
  | success => exact absurd hFails (PoolCall.not_fails_of_success hOutcome)

/-- One call is proper exactly where no refusal counts as failed. -/
theorem proper_iff (hNotFound : ∀ message, transport (.status .notFound message) = false)
    (hReady : p.Ready) {after : ConnectionPool R}
    (hMarks : ∀ idx, after.getHealth idx = true ↔ p.getHealth idx = true ∧
      ¬ (idx ∈ upTo (p.failsIn call) p.healthyCycle ∧ p.failsIn call idx = true)) :
    Served.Proper transport ⟨p, call, upTo (p.failsIn call) p.healthyCycle, after⟩ ↔
      Served.NoRefusalFails transport
        ⟨p, call, upTo (p.failsIn call) p.healthyCycle, after⟩ := by
  constructor
  · rintro hProper idx hAsked hRefusal
    by_contra hFails
    rw [Bool.not_eq_false] at hFails
    have hHealthy : p.getHealth idx = true :=
      (List.mem_filter.mp ((upTo_sublist _ _).mem hAsked)).2
    have hMarked : after.getHealth idx = false := by
      rw [← Bool.not_eq_true, hMarks]
      exact fun h => h.2 ⟨hAsked, hFails⟩
    have hOutcome := (hProper.marks idx hHealthy hMarked).2
    rw [hRefusal] at hOutcome
    cases hOutcome
  · intro hNone
    have hTransport : ∀ idx ∈ upTo (p.failsIn call) p.healthyCycle, p.failsIn call idx = true →
        p.outcomeAt transport call idx = some .transportError := by
      intro idx hAsked hFails
      rcases outcomeAt_of_failsIn hFails with hOutcome | hOutcome
      · exact hOutcome
      · rw [hNone idx hAsked hOutcome] at hFails
        cases hFails
    refine ⟨upTo_congr fun idx hAsked => ?_,
      (healthyCycle_nodup hReady).sublist (upTo_sublist _ _), fun idx hHealthy hMarked => ?_⟩
    · rw [Bool.eq_iff_iff, decide_eq_true_eq]
      exact ⟨hTransport idx hAsked, failsIn_of_transportError hNotFound⟩
    · have hAsked : idx ∈ upTo (p.failsIn call) p.healthyCycle ∧ p.failsIn call idx = true := by
        by_contra hNot
        rw [(hMarks idx).mpr ⟨hHealthy, hNot⟩] at hMarked
        cases hMarked
      exact ⟨hAsked.1, hTransport idx hAsked.1 hAsked.2⟩

end Calls

/-- For every sequence of calls, all of them return, and each of them asks and marks as it should
exactly where no client that it asks refuses it in a way that counts as failed: with `Accepted`
false, or with an error of the application that is not `NotFound`. -/
theorem only_unreachable_marked_iff {transport : RpcError → Bool}
    (hNotFound : ∀ message, transport (.status .notFound message) = false)
    {p : ConnectionPool R} (hReady : p.Ready) (steps : List (List (PoolClient R) × PoolCall))
    (hLength : ∀ s ∈ steps, s.1.length = p.clients.length) :
    ∃ log, p.serve steps = .ok log ∧ log.map (fun e => (e.pool.clients, e.call)) = steps ∧
      ∀ e ∈ log, e.Proper transport ↔ e.NoRefusalFails transport := by
  induction steps generalizing p with
  | nil => exact ⟨[], rfl, rfl, by simp⟩
  | cons s steps ih =>
    obtain ⟨clients, call⟩ := s
    have hSame : clients.length = p.clients.length := hLength _ List.mem_cons_self
    obtain ⟨pool, hPool⟩ : ∃ pool : ConnectionPool R, pool = { p with clients } := ⟨_, rfl⟩
    have hPoolReady : pool.Ready := by
      subst hPool
      refine ⟨hReady.addressed.trans hSame.symm, hSame ▸ hReady.fits, fun hSome => ?_⟩
      have hOld : p.clients ≠ [] := by
        intro hNone
        rw [hNone] at hSame
        exact hSome (List.eq_nil_of_length_eq_zero hSame)
      exact hSame ▸ hReady.current hOld
    obtain ⟨after, hPerform, hAfter, hClients, hMarks⟩ := perform_eq hPoolReady call
    obtain ⟨log, hLog, hSteps, hProper⟩ := ih hAfter fun s hs => by
      rw [hClients, hPool, hLength s (List.mem_cons_of_mem _ hs), hSame]
    refine ⟨⟨pool, call, upTo (pool.failsIn call) pool.healthyCycle, after⟩ :: log, ?_, ?_, ?_⟩
    · simp only [serve, ← hPool, hPerform, hLog, bind, Except.bind, pure, Except.pure]
    · rw [List.map_cons, hSteps, hPool]
    · intro e he
      rcases List.mem_cons.mp he with rfl | he
      · exact proper_iff hNotFound hPoolReady hMarks
      · exact hProper e he

end ConnectionPool

/-! ## Two full nodes and one transaction -/

namespace StandIn

/-- Every error but `NotFound` is one of the transport. -/
def anyButNotFound : RpcError → Bool
  | .status .notFound _ => false
  | _ => true

/-- A full node with the given answer to a broadcast. -/
def broadcaster (answer : Except RpcError (Option TransactionResponse)) : PoolClient Bytes where
  queryDomain := fun _ _ => .error (.plain [])
  broadcastTransaction := fun _ => answer

def accepts : PoolClient Bytes := broadcaster (.ok (some ⟨true, utf8 "1", []⟩))

def refuses : PoolClient Bytes :=
  broadcaster (.ok (some ⟨false, [], utf8 "signature verification failed"⟩))

def unreachable : PoolClient Bytes := broadcaster (.error (.plain (utf8 "connection refused")))

/-- The log of one broadcast in a new pool of two nodes. -/
def broadcastLog (first second : PoolClient Bytes) : Go (List (ConnectionPool.Served Bytes)) :=
  (ConnectionPool.newConnectionPool [first, second] [utf8 "first", utf8 "second"]).serve
    [([first, second], .broadcast { tid := 1, type := .commit })]

end StandIn

/-- The first node cannot be reached, the second one accepts: the call is as it should be. -/
theorem only_unreachable_marked_iff_unreachable :
    ∃ log, StandIn.broadcastLog StandIn.unreachable StandIn.accepts = .ok log ∧ log.length = 1 ∧
      ∀ e ∈ log, e.Proper StandIn.anyButNotFound := by
  have hReady : (ConnectionPool.newConnectionPool [StandIn.unreachable, StandIn.accepts]
      [utf8 "first", utf8 "second"]).Ready := ConnectionPool.ready_newConnectionPool rfl (by decide)
  have hNotFound : ∀ message, StandIn.anyButNotFound (.status .notFound message) = false :=
    fun _ => rfl
  obtain ⟨log, hLog, hSteps, hIff⟩ := ConnectionPool.only_unreachable_marked_iff hNotFound hReady
    [([StandIn.unreachable, StandIn.accepts], .broadcast { tid := 1, type := .commit })]
    (by simp [ConnectionPool.newConnectionPool])
  obtain ⟨log', hLog', hNone⟩ := exists_of_any (by decide +kernel :
    (StandIn.broadcastLog StandIn.unreachable StandIn.accepts).toOption.any (fun log =>
      log.all fun e => decide (e.NoRefusalFails StandIn.anyButNotFound)) = true)
  obtain rfl : log = log' := Except.ok.inj (hLog.symm.trans hLog')
  refine ⟨log, hLog, ?_, fun e he => (hIff e he).mpr ?_⟩
  · simpa using congrArg List.length hSteps
  · exact of_decide_eq_true (List.all_eq_true.mp hNone e he)

/-- The first node refuses the transaction: it is marked as unhealthy, and the second node is asked
as well. -/
theorem refusal_marks_the_node :
    ∃ log, StandIn.broadcastLog StandIn.refuses StandIn.accepts = .ok log ∧
      ∃ e ∈ log, ¬ e.Proper StandIn.anyButNotFound := by
  obtain ⟨log, hLog, hMarked⟩ := exists_of_any (by decide +kernel :
    (StandIn.broadcastLog StandIn.refuses StandIn.accepts).toOption.any (fun log =>
      log.any fun e => e.pool.getHealth 0 = true ∧ e.after.getHealth 0 = false ∧
        e.pool.outcomeAt StandIn.anyButNotFound e.call 0 = some .refusal) = true)
  obtain ⟨e, he, hMarked⟩ := List.any_eq_true.mp hMarked
  obtain ⟨hBefore, hAfter, hRefusal⟩ := of_decide_eq_true hMarked
  refine ⟨log, hLog, e, he, fun hProper => ?_⟩
  have hOutcome := (hProper.marks 0 hBefore hAfter).2
  rw [hRefusal] at hOutcome
  cases hOutcome

end Bdns.Gateway
