import Bdns.Network.Node

/-!
# Chains of accepted blocks

A node that only receives blocks: from the state before the first block it installs, one after
the other, blocks that `ValidateBlock` accepts on top of the last one.
-/

namespace Bdns.Network

open Lib Blockchain Index

/-- The blocks of a chain, the genesis block first, and the state that they lead to. -/
inductive Chain (env : Env) : List Block → ChainState → Prop
  | genesis (block : Block) : Chain env [block] (genesisState env)
  | add {blocks : List Block} {s : ChainState} {latest b : Block} {order : JournalOrder}
      {slotLeader : Bytes} {staged : Staged} (chain : Chain env blocks s)
      (tip : blocks.getLast? = some latest)
      (accepted : validateBlock env order s b latest slotLeader = .ok staged) :
      Chain env (blocks ++ [b]) (installValidated env order b.transactions staged s)

/-- Accepted blocks on top of a block and its state, and the state that they lead to. -/
inductive Continues (env : Env) (start : ChainState) (tip : Block) : List Block → ChainState → Prop
  | refl : Continues env start tip [] start
  | add {after : List Block} {s : ChainState} {latest b : Block} {order : JournalOrder}
      {slotLeader : Bytes} {staged : Staged} (run : Continues env start tip after s)
      (last : (tip :: after).getLast? = some latest)
      (accepted : validateBlock env order s b latest slotLeader = .ok staged) :
      Continues env start tip (after ++ [b]) (installValidated env order b.transactions staged s)

theorem getLast?_append_of_cons {blocks after : List Block} {tip latest : Block}
    (hTip : blocks.getLast? = some tip) (hLast : (tip :: after).getLast? = some latest) :
    (blocks ++ after).getLast? = some latest := by
  cases after with
  | nil =>
    rw [List.append_nil, hTip]
    exact hLast
  | cons b after =>
    rw [List.getLast?_append, List.getLast?_cons_cons] at *
    rw [hLast, Option.some_or]

theorem chain_of_continues {env : Env} {blocks after : List Block} {s₁ s : ChainState} {tip : Block}
    (hChain : Chain env blocks s₁) (hTip : blocks.getLast? = some tip)
    (hRun : Continues env s₁ tip after s) : Chain env (blocks ++ after) s := by
  induction hRun with
  | refl => rwa [List.append_nil]
  | add run last accepted ih =>
    rw [← List.append_assoc]
    exact .add ih (getLast?_append_of_cons hTip last) accepted

/-- A block of a peer extends the chain of a node by one accepted block, or changes nothing. -/
theorem chain_of_addBlock {env : Env} {order : JournalOrder} {slotLeader : Bytes} {b : Block}
    {n n' : Node} {blocks : List Block} (hChain : Chain env blocks n.state)
    (hTip : n.blockchain.getLatestBlock = blocks.getLast?) (hIndex : b.index ≠ 0)
    (hAdd : n.addBlock env order slotLeader b = .ok n') :
    n' = n ∨ Chain env (blocks ++ [b]) n'.state := by
  unfold Node.addBlock at hAdd
  rw [if_neg hIndex] at hAdd
  split at hAdd
  · exact absurd hAdd (by simp)
  · rename_i latest hLatest
    split at hAdd
    · exact absurd hAdd (by simp)
    · exact .inl (pure_eq_ok.mp hAdd).symm
    · rename_i staged hAccepted
      obtain rfl := pure_eq_ok.mp hAdd
      exact .inr (.add hChain (hTip ▸ hLatest) hAccepted)

/-- The state in which the domain pass over an accepted block starts, for the ledger that the
first pass leaves. -/
def domainStart (s : ChainState) (b : Block) (ledger : BalanceLedger) : DomainState :=
  ⟨creditFees b.transactions b.slotLeader ledger, .newIndexOverlay s.index,
    openCommits s.commitStore b.index⟩

/-- Slot numbers grow along a chain. -/
theorem slotNumber_le_of_chain {env : Env} {blocks : List Block} {s : ChainState} {latest : Block}
    (hChain : Chain env blocks s) (hTip : blocks.getLast? = some latest) :
    ∀ b ∈ blocks, b.slotNumber ≤ latest.slotNumber := by
  induction hChain generalizing latest with
  | genesis block =>
    intro b hb
    obtain rfl := List.mem_singleton.mp hb
    obtain rfl : b = latest := by simpa using hTip
    exact Int64.le_refl _
  | @add blocks s last b₁ _ _ _ _ tip accepted ih =>
    obtain rfl : b₁ = latest := by simpa using hTip
    have hSlot := (checkHeader_eq_ok (validateBlock_eq_ok accepted).1).2.1
    intro b hb
    rcases List.mem_append.mp hb with hb | hb
    · exact Int64.le_trans (ih tip b hb) (Int64.le_of_lt hSlot)
    · obtain rfl := List.mem_singleton.mp hb
      exact Int64.le_refl _

/-! ## A chain over the stand-in -/

namespace StandIn

/-- The block of a leader with the given transactions. -/
def extend (env : Env) (leader : Leader) (slot : Int64) (txs : List Transaction) (s : ChainState)
    (latest : Block) : Block :=
  okOr (stageBlock env (.ascending _ _) leader s latest slot txs >>=
    newBlock env leader latest slot txs) latest

/-- The state after a block, which is left alone by a rejected one. -/
def accept (env : Env) (slotLeader : Bytes) (b : Block) (s : ChainState) (latest : Block) :
    ChainState :=
  match validateBlock env (.ascending _ _) s b latest slotLeader with
  | .ok staged => installValidated env (.ascending _ _) b.transactions staged s
  | .error _ => s

theorem accept_eq {env : Env} {slotLeader : Bytes} {b latest : Block} {s : ChainState}
    {staged : Staged}
    (h : validateBlock env (.ascending _ _) s b latest slotLeader = .ok staged) :
    accept env slotLeader b s latest =
      installValidated env (.ascending _ _) b.transactions staged s := by
  unfold accept
  rw [h]

/-- A chain with one more accepted block. -/
theorem chain_accept {env : Env} {blocks : List Block} {s : ChainState} {latest b : Block}
    {slotLeader : Bytes} (hChain : Chain env blocks s) (hTip : blocks.getLast? = some latest)
    (hAccepted : (validateBlock env (.ascending _ _) s b latest slotLeader).isOk = true) :
    Chain env (blocks ++ [b]) (accept env slotLeader b s latest) := by
  obtain ⟨staged, hStaged⟩ := exists_eq_ok hAccepted
  rw [accept_eq hStaged]
  exact .add hChain hTip hStaged

/-- One registry, and days of one slot. -/
def registryEnv : Env where
  E := .standIn fun _ => none
  trustedRegistries := [utf8 "registry"]
  slotsPerDay := 1

def registryTx (tx : Transaction) : Transaction :=
  Blockchain.StandIn.signAs (utf8 "registry") { tx with ownerKey := utf8 "registry", fee := 1 }

/-- The COMMIT of the domain `a.bdns` under a salt. -/
def commitTx (tid : Int64) (nonce : UInt64) (salt : Bytes) : Transaction :=
  registryTx
    { tid, type := .commit, nonce,
      commitHash := registryEnv.E.sha256 (commitPreimage (utf8 "a.bdns") salt (utf8 "registry")) }

/-- Its REVEAL, with the registry as the owner. -/
def revealTx (tid redeemsTxID : Int64) (nonce : UInt64) (salt : Bytes) (expirySlot : Int64) :
    Transaction :=
  registryTx
    { tid, type := .reveal, nonce, redeemsTxID, salt, expirySlot,
      domainName := utf8 "a.bdns", recipient := utf8 "registry" }

/-- A REVOKE by the owner, with no expiry slot given. -/
def revokeTx (tid redeemsTxID : Int64) (nonce : UInt64) : Transaction :=
  registryTx { tid, type := .revoke, nonce, redeemsTxID, domainName := utf8 "a.bdns" }

/-- The slots and transactions of the blocks after the first: the domain is registered, revoked
and registered again. -/
def registryLog : List (Int64 × List Transaction) :=
  [(1, [commitTx 1 0 [1]]), (4, [revealTx 2 1 1 [1] 1000]),
    (31, [revokeTx 3 2 2, commitTx 4 3 [2]]), (34, [revealTx 5 4 4 [2] 2000])]

def registryStep (tip : ChainState × Block) (e : Int64 × List Transaction) : ChainState × Block :=
  let b := extend registryEnv (leader (utf8 "registry") e.1) e.1 e.2 tip.1 tip.2
  (accept registryEnv (utf8 "registry") b tip.1 tip.2, b)

def registryGenesis : Block :=
  okOr (newGenesisBlock registryEnv (leader (utf8 "registry") 0) [])
    { index := 0, slotNumber := 0, slotLeader := [], transactions := [], prevHash := [] }

/-- State and tip after the first block and `n` more. -/
def registryChain (n : Nat) : ChainState × Block :=
  (registryLog.take n).foldl registryStep (genesisState registryEnv, registryGenesis)

theorem registryChain_accepted : ∀ n < 4,
    (validateBlock registryEnv (.ascending _ _) (registryChain n).1 (registryChain (n + 1)).2
      (registryChain n).2 (utf8 "registry")).isOk = true := by
  decide +kernel

def registryBlocks (n : Nat) : List Block :=
  (List.range (n + 1)).map fun i => (registryChain i).2

theorem registryBlocks_succ (n : Nat) :
    registryBlocks (n + 1) = registryBlocks n ++ [(registryChain (n + 1)).2] := by
  simp [registryBlocks, List.range_succ]

theorem getLast?_registryBlocks (n : Nat) :
    (registryBlocks n).getLast? = some (registryChain n).2 := by
  simp [registryBlocks, List.range_succ]

/-- What every block of the sample stages, and the state after it. -/
theorem registryChain_succ {n : Nat} (hn : n < 4) : ∃ staged,
    validateBlock registryEnv (.ascending _ _) (registryChain n).1 (registryChain (n + 1)).2
      (registryChain n).2 (utf8 "registry") = .ok staged ∧
    (registryChain (n + 1)).1 = installValidated registryEnv (.ascending _ _)
      (registryChain (n + 1)).2.transactions staged (registryChain n).1 := by
  obtain ⟨staged, hStaged⟩ := exists_eq_ok (registryChain_accepted n hn)
  refine ⟨staged, hStaged, ?_⟩
  rw [← accept_eq hStaged]
  have hTake : registryLog.take (n + 1) = registryLog.take n ++ [registryLog.get ⟨n, hn⟩] :=
    List.take_concat_get' registryLog n hn |>.symm
  simp only [registryChain, hTake, List.foldl_append, List.foldl_cons, List.foldl_nil,
    registryStep]

theorem chain_registryBlocks {n : Nat} (hn : n ≤ 4) :
    Chain registryEnv (registryBlocks n) (registryChain n).1 := by
  induction n with
  | zero => exact .genesis _
  | succ n ih =>
    obtain ⟨staged, hStaged, hState⟩ := registryChain_succ hn
    rw [registryBlocks_succ, hState]
    exact .add (ih (by omega)) (getLast?_registryBlocks n) hStaged

/-! ### Other logs -/

/-- Every block of a log is accepted on top of the ones before it. -/
def logAccepted : ChainState × Block → List (Int64 × List Transaction) → Bool
  | _, [] => true
  | tip, e :: log =>
    (validateBlock registryEnv (.ascending _ _) tip.1 (registryStep tip e).2 tip.2
      (utf8 "registry")).isOk && logAccepted (registryStep tip e) log

def logBlocks : ChainState × Block → List (Int64 × List Transaction) → List Block
  | _, [] => []
  | tip, e :: log => (registryStep tip e).2 :: logBlocks (registryStep tip e) log

/-- State and tip after the first block and those of a log. -/
def afterLog (log : List (Int64 × List Transaction)) : ChainState × Block :=
  log.foldl registryStep (genesisState registryEnv, registryGenesis)

theorem chain_logBlocks {blocks : List Block} {tip : ChainState × Block}
    {log : List (Int64 × List Transaction)} (hChain : Chain registryEnv blocks tip.1)
    (hTip : blocks.getLast? = some tip.2) (hLog : logAccepted tip log = true) :
    Chain registryEnv (blocks ++ logBlocks tip log) (log.foldl registryStep tip).1 ∧
      (blocks ++ logBlocks tip log).getLast? = some (log.foldl registryStep tip).2 := by
  induction log generalizing blocks tip with
  | nil => exact ⟨by simpa [logBlocks] using hChain, by simpa [logBlocks] using hTip⟩
  | cons e log ih =>
    obtain ⟨hFirst, hRest⟩ := Bool.and_eq_true_iff.mp hLog
    have hNext : Chain registryEnv (blocks ++ [(registryStep tip e).2]) (registryStep tip e).1 :=
      chain_accept hChain hTip hFirst
    have hAll := ih hNext (by simp) hRest
    rwa [List.append_assoc] at hAll

/-- The chain of a log whose blocks are all accepted. -/
theorem chain_afterLog {log : List (Int64 × List Transaction)}
    (hLog : logAccepted (genesisState registryEnv, registryGenesis) log = true) :
    Chain registryEnv ([registryGenesis] ++
        logBlocks (genesisState registryEnv, registryGenesis) log) (afterLog log).1 ∧
      ([registryGenesis] ++ logBlocks (genesisState registryEnv, registryGenesis) log).getLast? =
        some (afterLog log).2 :=
  chain_logBlocks (.genesis _) rfl hLog

end StandIn

end Bdns.Network
