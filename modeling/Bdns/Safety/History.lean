import Bdns.Blockchain.DomainGate
import Bdns.Lib.Along
import Bdns.Safety.Entries

/-!
# The transactions that took effect

A block may hold transactions that fail when they are applied. `EffectLog` runs through a chain and
collects the others, each with the state that it found and the state that it left. What holds of
the index along a chain is then proved per transaction that took effect (`EffectLog.invariant`): a
failed one changes nothing, and between two blocks the index answers like the overlay that was
committed.
-/

namespace Bdns.Safety

open Lib Blockchain Network Index

/-! ## Effects -/

/-- A transaction for which `ApplyDomainMutations` returned no error. -/
structure Effect where
  /-- The number of blocks under its block. -/
  height : Nat
  block : Block
  tx : Transaction
  before : DomainState
  after : DomainState

/-- The domain pass over a block, with what took effect. -/
def passEffects (env : Env) (order : JournalOrder) (height : Nat) (b : Block)
    (txs : List Transaction) (start : DomainState) : Go (DomainState × List Effect) :=
  txs.zipIdx.foldlM (fun acc e => do
    let (st, err) ← applyDomainMutations env.E (env.position order b.slotNumber b.index e.2) e.1
      acc.1
    pure (st, acc.2 ++ if err.isNone then [⟨height, b, e.1, acc.1, st⟩] else [])) (start, [])

section Pass

variable {env : Env} {order : JournalOrder} {height : Nat} {b : Block} {txs : List Transaction}
  {start final : DomainState} {events : List Effect}

theorem passEffects_concat {tx : Transaction} :
    passEffects env order height b (txs ++ [tx]) start = .ok (final, events) ↔
      ∃ st old err, passEffects env order height b txs start = .ok (st, old) ∧
        applyDomainMutations env.E (env.position order b.slotNumber b.index txs.length) tx st =
          .ok (final, err) ∧
        events = old ++ if err.isNone then [⟨height, b, tx, st, final⟩] else [] := by
  unfold passEffects
  rw [List.zipIdx_append, List.zipIdx_singleton, foldlM_concat_eq_ok, Nat.zero_add]
  constructor
  · rintro ⟨⟨st, old⟩, hOld, hStep⟩
    obtain ⟨⟨st', err⟩, hApply, hEq⟩ := bind_eq_ok.mp hStep
    obtain ⟨rfl, rfl⟩ := Prod.mk.inj (pure_eq_ok.mp hEq)
    exact ⟨st, old, err, hOld, hApply, rfl⟩
  · rintro ⟨st, old, err, hOld, hApply, rfl⟩
    exact ⟨(st, old), hOld, bind_eq_ok.mpr ⟨(final, err), hApply, rfl⟩⟩

/-- The record does not change the pass. -/
theorem domainPass_of_passEffects
    (h : passEffects env order height b txs start = .ok (final, events)) :
    domainPass env order b.slotNumber b.index txs start = .ok final := by
  induction txs using List.reverseRecOn generalizing final events with
  | nil => exact congrArg Except.ok (Prod.mk.inj (pure_eq_ok.mp h)).1
  | append_singleton txs tx ih =>
    obtain ⟨st, old, err, hOld, hApply, -⟩ := passEffects_concat.mp h
    exact domainPass_concat (ih hOld) hApply

theorem exists_passEffects (height : Nat)
    (h : domainPass env order b.slotNumber b.index txs start = .ok final) :
    ∃ events, passEffects env order height b txs start = .ok (final, events) := by
  induction txs using List.reverseRecOn generalizing final with
  | nil =>
    obtain rfl := pure_eq_ok.mp h
    exact ⟨[], rfl⟩
  | append_singleton txs tx ih =>
    rw [domainPass_append_singleton] at h
    obtain ⟨st, hOld, h⟩ := bind_eq_ok.mp h
    obtain ⟨⟨st', err⟩, hApply, hEq⟩ := bind_eq_ok.mp h
    obtain rfl := pure_eq_ok.mp hEq
    obtain ⟨old, hEvents⟩ := ih hOld
    exact ⟨_, passEffects_concat.mpr ⟨st, old, err, hEvents, hApply, rfl⟩⟩

theorem mem_of_passEffects (h : passEffects env order height b txs start = .ok (final, events)) :
    ∀ e ∈ events, e.height = height ∧ e.block = b ∧ e.tx ∈ txs := by
  induction txs using List.reverseRecOn generalizing final events with
  | nil =>
    obtain ⟨-, rfl⟩ := Prod.mk.inj (pure_eq_ok.mp h)
    simp
  | append_singleton txs tx ih =>
    obtain ⟨st, old, err, hOld, -, rfl⟩ := passEffects_concat.mp h
    intro e he
    rcases List.mem_append.mp he with he | he
    · obtain ⟨hHeight, hBlock, hTx⟩ := ih hOld e he
      exact ⟨hHeight, hBlock, List.mem_append_left _ hTx⟩
    · split at he
      · obtain rfl := List.mem_singleton.mp he
        exact ⟨rfl, rfl, by simp⟩
      · exact absurd he List.not_mem_nil

end Pass

/-! ## Histories -/

/-- What took effect along a chain. -/
inductive EffectLog (env : Env) : List Block → ChainState → List Effect → Prop
  | genesis (block : Block) : EffectLog env [block] (genesisState env) []
  | add {blocks : List Block} {s : ChainState} {log events : List Effect} {latest b : Block}
      {order : JournalOrder} {slotLeader : Bytes} {staged : Staged} {ledger : BalanceLedger}
      {final : DomainState} (history : EffectLog env blocks s log)
      (tip : blocks.getLast? = some latest)
      (accepted : validateBlock env order s b latest slotLeader = .ok staged)
      (coins : ledgerPass b.transactions s.ledger = .ok ledger)
      (pass : passEffects env order blocks.length b b.transactions (domainStart s b ledger) =
        .ok (final, events)) :
      EffectLog env (blocks ++ [b]) (installValidated env order b.transactions staged s)
        (log ++ events)

section Histories

variable {env : Env} {blocks : List Block} {s : ChainState} {log : List Effect}

theorem chain_of_effectLog (h : EffectLog env blocks s log) : Chain env blocks s := by
  induction h with
  | genesis block => exact .genesis block
  | add _ tip accepted _ _ ih => exact .add ih tip accepted

/-- Every chain has a history. -/
theorem exists_effectLog (hChain : Chain env blocks s) : ∃ log, EffectLog env blocks s log := by
  induction hChain with
  | genesis block => exact ⟨[], .genesis block⟩
  | add _ tip accepted ih =>
    obtain ⟨log, hLog⟩ := ih
    obtain ⟨-, -, ⟨ledger, final, hLedger, hDomain, -⟩, -⟩ := validateBlock_eq_ok accepted
    obtain ⟨events, hEvents⟩ := exists_passEffects _ hDomain
    exact ⟨log ++ events, .add hLog tip accepted hLedger hEvents⟩

theorem height_lt_of_effectLog (h : EffectLog env blocks s log) :
    ∀ e ∈ log, e.height < blocks.length := by
  induction h with
  | genesis block => simp
  | @add blocks s log events latest b order slotLeader staged ledger final _ _ _ _ pass ih =>
    intro e he
    rw [List.length_append, List.length_singleton]
    rcases List.mem_append.mp he with hOld | hNew
    · exact Nat.lt_succ_of_lt (ih e hOld)
    · rw [(mem_of_passEffects pass e hNew).1]
      exact Nat.lt_succ_self _

/-- Events are of blocks of the chain, and their slots do not decrease. -/
theorem slots_of_effectLog (h : EffectLog env blocks s log) : (∀ e ∈ log, e.block ∈ blocks) ∧
    Along (fun prior e => ∀ u ∈ prior, u.block.slotNumber ≤ e.block.slotNumber) log := by
  induction h with
  | genesis block => exact ⟨by simp, along_nil⟩
  | @add blocks s log events latest b order slotLeader staged ledger final history tip accepted _
      pass ih =>
    obtain ⟨hIn, hOld⟩ := ih
    have hNew := mem_of_passEffects pass
    have hSlot := (checkHeader_eq_ok (validateBlock_eq_ok accepted).1).2.1
    refine ⟨fun e he => ?_, ?_⟩
    · rcases List.mem_append.mp he with he | he
      · exact List.mem_append_left _ (hIn e he)
      · rw [(hNew e he).2.1]
        exact List.mem_append_right _ List.mem_cons_self
    · refine along_append.mpr ⟨hOld, fun prior e after hSplit u hu => ?_⟩
      have hHere : ∀ u ∈ prior ++ e :: after, u.block = b := by
        intro u hu
        exact (hNew u (hSplit ▸ hu)).2.1
      rw [hHere e (by simp)]
      rcases List.mem_append.mp hu with hu | hu
      · exact Int64.le_trans (slotNumber_le_of_chain (chain_of_effectLog history) tip _ (hIn u hu))
          (Int64.le_of_lt hSlot)
      · rw [hHere u (List.mem_append_left _ hu)]
        exact Int64.le_refl _

end Histories

/-! ## What holds along a history -/

/-- Two overlays that answer alike for the given names. -/
structure Answers (E : External) (names : Set Bytes) (o o' : IndexOverlay) : Prop where
  domain : ∀ d ∈ names, o'.getDomain E d = o.getDomain E d
  owner : ∀ d ∈ names, o'.getOwner E d = o.getOwner E d
  price : ∀ d ∈ names, o'.getListPrice E d = o.getListPrice E d
  spent : ∀ txID, o'.isSpent txID = o.isSpent txID

/-- The place of a transaction in an accepted block: what is true of the overlay that it finds, and
the events up to it. -/
structure Site (env : Env) (names : Set Bytes) (blocks : List Block) (s : ChainState) (b : Block)
    (before : List Transaction) (tx : Transaction) (st : DomainState) (log : List Effect) : Prop where
  chain : Chain env blocks s
  mem : tx ∈ b.transactions
  named : ∀ tx ∈ acceptedTxs (blocks ++ [b]), tx.domainName ∈ names
  valid : ∃ sh sh', (blockValidation env s b).run before = .ok sh ∧
    (blockValidation env s b).validateTx sh tx = .ok sh'
  traced : Traced env names (· ∈ acceptedTxs (blocks ++ [b])) st.im
  sound : SoundOverlay env.E names st.im
  real : st.im.real = s.index
  here : ∀ e ∈ log, e.height = blocks.length → e.tx ∈ before

section Invariant

variable {env : Env} {names : Set Bytes} {blocks : List Block} {s : ChainState}

theorem Site.name {b : Block} {before : List Transaction} {tx : Transaction} {st : DomainState}
    {log : List Effect} (h : Site env names blocks s b before tx st log) :
    tx.domainName ∈ names := by
  have hNe : blocks ≠ [] := by
    cases h.chain <;> simp
  refine h.named tx ?_
  rw [acceptedTxs_concat hNe]
  exact List.mem_append_right _ h.mem

/-- The overlay at the end of an accepted block and the index after it. -/
theorem answers_installValidated {order : JournalOrder} {txs : List Transaction} {staged : Staged}
    {pool : Transaction → Prop} (hTraced : Traced env names pool staged.im)
    (hSound : SoundOverlay env.E names staged.im) (hReal : staged.im.real = s.index)
    (hInj : Set.InjOn env.E.sha256 names) :
    Answers env.E names staged.im
      (.newIndexOverlay (installValidated env order txs staged s).index) where
  domain d hd := getDomain_installValidated order txs hTraced hReal hInj hd
  owner d hd := (metadata_installValidated order txs hSound hReal hInj hd).1
  price d hd := (metadata_installValidated order txs hSound hReal hInj hd).2
  spent txID := by
    change (false || (installValidated env order txs staged s).index.isSpent txID) = _
    rw [isSpent_installValidated, Bool.false_or, Bool.or_comm, ← hReal]
    rfl

/-- One step of an invariant `P` over the number of blocks, the events and the overlay. -/
def KeptByEffects (env : Env) (names : Set Bytes) (P : Nat → List Effect → IndexOverlay → Prop) :
    Prop :=
  ∀ {blocks s b order before tx st st' log}, Site env names blocks s b before tx st log →
    P blocks.length log st.im →
    DomainEffect env.E (env.position order b.slotNumber b.index before.length) tx st st' none →
    P blocks.length (log ++ [⟨blocks.length, b, tx, st, st'⟩]) st'.im

/-- An invariant through the first transactions of an accepted block. -/
theorem invariant_of_passEffects {P : Nat → List Effect → IndexOverlay → Prop}
    (hStep : KeptByEffects env names P) {order : JournalOrder} {b : Block} {log events : List Effect}
    {start st : DomainState} {sh : Shadow} {txs rest : List Transaction}
    (hInj : Set.InjOn env.E.sha256 names) (hChain : Chain env blocks s)
    (hNames : ∀ b' ∈ blocks ++ [b], ∀ tx ∈ b'.transactions, tx.domainName ∈ names)
    (hRun : (blockValidation env s b).run b.transactions = .ok sh)
    (hHeights : ∀ e ∈ log, e.height < blocks.length)
    (hStart : start.im = .newIndexOverlay s.index)
    (hInit : P blocks.length log (.newIndexOverlay s.index)) (hSplit : b.transactions = txs ++ rest)
    (hPass : passEffects env order blocks.length b txs start = .ok (st, events)) :
    P blocks.length (log ++ events) st.im ∧
      Traced env names (· ∈ acceptedTxs (blocks ++ [b])) st.im ∧
      SoundOverlay env.E names st.im ∧ st.im.real = s.index := by
  have hOld : ∀ b' ∈ blocks, ∀ tx ∈ b'.transactions, tx.domainName ∈ names :=
    fun b' hb' => hNames b' (List.mem_append_left _ hb')
  have hBlock := hNames b (List.mem_append_right _ List.mem_cons_self)
  have hPool : ∀ tx ∈ acceptedTxs (blocks ++ [b]), tx.domainName ∈ names := by
    intro tx hTx
    obtain ⟨b', hb', hTx⟩ := List.mem_flatMap.mp hTx
    exact hNames b' (List.mem_of_mem_tail hb') tx hTx
  have hNe : blocks ≠ [] := by
    cases hChain <;> simp
  induction txs using List.reverseRecOn generalizing rest st events with
  | nil =>
    obtain ⟨rfl, rfl⟩ := Prod.mk.inj (pure_eq_ok.mp hPass)
    rw [hStart, List.append_nil]
    refine ⟨hInit, .newIndexOverlay ?_, .newIndexOverlay (listed_owned_of_chain hInj hChain hOld),
      rfl⟩
    refine (indexFrom_of_chain hChain).mono fun tx hTx => ?_
    rw [acceptedTxs_concat hNe]
    exact List.mem_append_left _ hTx
  | append_singleton txs tx ih =>
    obtain ⟨st₀, old, err, hEvents, hApply, rfl⟩ := passEffects_concat.mp hPass
    rw [List.append_assoc] at hSplit
    obtain ⟨hP, hTraced, hSound, hReal⟩ := ih hSplit hEvents
    have hMem : tx ∈ b.transactions := by simp [hSplit]
    have hEffect := applyDomainMutations_eq_ok hApply
    refine ⟨?_, ?_, (soundOverlay_of_effect hSound (hBlock tx hMem) hEffect).1,
      (real_of_effect hEffect).trans hReal⟩
    · cases err with
      | some text =>
        obtain rfl := hEffect.eq_of_some
        simpa using hP
      | none =>
        have hSite : Site env names blocks s b txs tx st₀ (log ++ old) := by
          refine ⟨hChain, hMem, hPool, Validation.run_split hRun hSplit, hTraced, hSound, hReal, ?_⟩
          intro e he hHere
          rcases List.mem_append.mp he with hLog | hNew
          · exact absurd hHere (Nat.ne_of_lt (hHeights e hLog))
          · exact (mem_of_passEffects hEvents e hNew).2.2
        simpa using hStep hSite hP hEffect
    · refine hTraced.step rfl ?_ (hBlock tx hMem) hEffect
      rw [acceptedTxs_concat hNe]
      exact List.mem_append_right _ hMem

/-- What holds at first, is kept by every transaction that takes effect and passes from the overlay
of a block to the index after it, holds along every history. -/
theorem EffectLog.invariant {P : Nat → List Effect → IndexOverlay → Prop}
    (hInit : P 1 [] (.newIndexOverlay {})) (hStep : KeptByEffects env names P)
    (hCommit : ∀ {height log o im}, Answers env.E names o (.newIndexOverlay im) → P height log o →
      P (height + 1) log (.newIndexOverlay im))
    {log : List Effect} (hLog : EffectLog env blocks s log) (hInj : Set.InjOn env.E.sha256 names)
    (hNames : ∀ b ∈ blocks, ∀ tx ∈ b.transactions, tx.domainName ∈ names) :
    P blocks.length log (.newIndexOverlay s.index) := by
  induction hLog with
  | genesis block => exact hInit
  | @add blocks s log events latest b order slotLeader staged ledger final history tip accepted coins
      pass ih =>
    obtain ⟨-, ⟨sh, hRun⟩, ⟨ledger', final', hLedger, hDomain, -, hIm, -⟩, -⟩ :=
      validateBlock_eq_ok accepted
    obtain rfl := Except.ok.inj (coins.symm.trans hLedger)
    obtain rfl := Except.ok.inj ((domainPass_of_passEffects pass).symm.trans hDomain)
    obtain ⟨hP, hTraced, hSound, hReal⟩ := invariant_of_passEffects hStep hInj
      (chain_of_effectLog history) hNames hRun (height_lt_of_effectLog history) rfl
      (ih fun b' hb' => hNames b' (List.mem_append_left _ hb')) (List.append_nil _).symm pass
    rw [← hIm] at hP hTraced hSound hReal
    rw [List.length_append, List.length_singleton]
    exact hCommit (answers_installValidated hTraced hSound hReal hInj) hP

end Invariant

/-! ## Which event stands for a domain -/

/-- The events of one kind for a domain. -/
def effectsOf (kind : Transaction → Prop) [DecidablePred kind] (d : Bytes) (log : List Effect) :
    List Effect :=
  log.filter fun e => kind e.tx ∧ e.tx.domainName = d

/-- The events that wrote the entry of a domain. -/
def writesOf (d : Bytes) (log : List Effect) : List Effect := effectsOf Writes d log

section EffectsOf

variable {kind : Transaction → Prop} [DecidablePred kind] {d : Bytes} {log : List Effect} {e : Effect}

theorem mem_effectsOf : e ∈ effectsOf kind d log ↔ e ∈ log ∧ kind e.tx ∧ e.tx.domainName = d := by
  rw [effectsOf, List.mem_filter, decide_eq_true_eq]

theorem effectsOf_append (kind : Transaction → Prop) [DecidablePred kind] (d : Bytes)
    (log log' : List Effect) :
    effectsOf kind d (log ++ log') = effectsOf kind d log ++ effectsOf kind d log' :=
  List.filter_append ..

theorem effectsOf_concat (kind : Transaction → Prop) [DecidablePred kind] (d : Bytes)
    (log : List Effect) (e : Effect) : effectsOf kind d (log ++ [e]) =
      effectsOf kind d log ++ if kind e.tx ∧ e.tx.domainName = d then [e] else [] := by
  rw [effectsOf_append]
  by_cases hKind : kind e.tx ∧ e.tx.domainName = d <;> simp [effectsOf, hKind]

/-- The last event of a kind has no other of its kind after it. -/
theorem getLast?_effectsOf : (effectsOf kind d log).getLast? = some e ↔
    ∃ l₁ l₂, log = l₁ ++ e :: l₂ ∧ (kind e.tx ∧ e.tx.domainName = d) ∧
      ∀ u ∈ l₂, kind u.tx → u.tx.domainName ≠ d := by
  constructor
  · intro hLast
    induction log using List.reverseRecOn with
    | nil => simp [effectsOf] at hLast
    | append_singleton log u ih =>
      rw [effectsOf_concat] at hLast
      split at hLast
      · rename_i hKind
        rw [List.getLast?_concat] at hLast
        obtain rfl := Option.some.inj hLast
        exact ⟨log, [], rfl, hKind, by simp⟩
      · rename_i hKind
        rw [List.append_nil] at hLast
        obtain ⟨l₁, l₂, rfl, hEvent, hNone⟩ := ih hLast
        refine ⟨l₁, l₂ ++ [u], by simp, hEvent, fun v hv hv' hName => ?_⟩
        rcases List.mem_append.mp hv with hOld | hNew
        · exact hNone v hOld hv' hName
        · obtain rfl := List.mem_singleton.mp hNew
          exact hKind ⟨hv', hName⟩
  · rintro ⟨l₁, l₂, rfl, hEvent, hNone⟩
    have hEmpty : effectsOf kind d l₂ = [] := by
      refine List.filter_eq_nil_iff.mpr fun u hu hKind => ?_
      obtain ⟨hKind, hName⟩ := of_decide_eq_true hKind
      exact hNone u hu hKind hName
    rw [List.append_cons, effectsOf_append, hEmpty, List.append_nil, effectsOf_concat,
      if_pos hEvent, List.getLast?_concat]

/-- After an event of a kind, the last of its kind is that event or a later one. -/
theorem exists_last_from (l₁ l₂ : List Effect) (hKind : kind e.tx ∧ e.tx.domainName = d) :
    ∃ w ∈ e :: l₂, (effectsOf kind d (l₁ ++ e :: l₂)).getLast? = some w := by
  have hMem : e ∈ effectsOf kind d (e :: l₂) := mem_effectsOf.mpr ⟨List.mem_cons_self, hKind⟩
  have hLast := List.getLast?_eq_some_getLast (List.ne_nil_of_mem hMem)
  refine ⟨_, (mem_effectsOf.mp (List.mem_of_getLast? hLast)).1, ?_⟩
  rw [effectsOf_append, List.getLast?_append, hLast, Option.some_or]

theorem writesOf_concat (d : Bytes) (log : List Effect) (e : Effect) : writesOf d (log ++ [e]) =
    writesOf d log ++ if Writes e.tx ∧ e.tx.domainName = d then [e] else [] :=
  effectsOf_concat Writes d log e

end EffectsOf

/-- The entry of every domain is what its last write left. -/
def Standing (E : External) (names : Set Bytes) (log : List Effect) (o : IndexOverlay) : Prop :=
  ∀ d ∈ names, o.getDomain E d = (writesOf d log).getLast?.bind fun e => e.after.im.getDomain E d

/-- What is known of an event, given those before it. -/
structure Recorded (env : Env) (names : Set Bytes) (prior : List Effect) (e : Effect) : Prop where
  name : e.tx.domainName ∈ names
  effect : ∃ order i, DomainEffect env.E
    (env.position order e.block.slotNumber e.block.index i) e.tx e.before e.after none
  notRegister : e.tx.type ≠ .register
  standing : Standing env.E names prior e.before.im

section Standing

variable {env : Env} {names : Set Bytes} {blocks : List Block} {s : ChainState} {log : List Effect}

theorem standing_nil : Standing env.E names [] (.newIndexOverlay {}) := by
  intro d _
  change ({} : IndexManager).getDomain env.E d = none
  rw [IndexManager.getDomain_eq, AVLTree.search_empty]
  rfl

theorem Standing.step {pos : Position} {e : Effect} (h : Standing env.E names log e.before.im)
    (hEffect : DomainEffect env.E pos e.tx e.before e.after none) :
    Standing env.E names (log ++ [e]) e.after.im := by
  intro d hd
  rw [writesOf_concat]
  by_cases hWrite : Writes e.tx ∧ e.tx.domainName = d
  · rw [if_pos hWrite, List.getLast?_concat, Option.bind_some]
  · rw [if_neg hWrite, List.append_nil, ← h d hd]
    exact getDomain_of_effect hEffect fun hWrites hName => hWrite ⟨hWrites, hName⟩

/-- The events of a history, and the index at its end. -/
theorem recorded_of_effectLog (hLog : EffectLog env blocks s log) (hInj : Set.InjOn env.E.sha256 names)
    (hNames : ∀ b ∈ blocks, ∀ tx ∈ b.transactions, tx.domainName ∈ names) :
    Along (Recorded env names) log ∧ Standing env.E names log (.newIndexOverlay s.index) := by
  refine hLog.invariant (P := fun _ log o => Along (Recorded env names) log ∧
    Standing env.E names log o) ⟨along_nil, standing_nil⟩ ?_ ?_ hInj hNames
  · rintro blocks s b order before tx st st' log hSite ⟨hAlong, hStanding⟩ hEffect
    obtain ⟨sh, sh', -, hValid⟩ := hSite.valid
    exact ⟨along_concat.mpr ⟨hAlong, hSite.name, ⟨order, before.length, hEffect⟩,
      Validation.type_ne_register_of_validateTx hValid, hStanding⟩, hStanding.step hEffect⟩
  · rintro height log o im hAnswers ⟨hAlong, hStanding⟩
    exact ⟨hAlong, fun d hd => (hAnswers.domain d hd).trans (hStanding d hd)⟩

end Standing

/-! ## The history of a log -/

namespace StandIn

open Network.StandIn

/-- What takes effect in the blocks of a log. -/
def logEffects : Nat → ChainState × Block → List (Int64 × List Transaction) → Go (List Effect)
  | _, _, [] => pure []
  | height, tip, e :: log => do
    let b := (registryStep tip e).2
    let ledger ← ledgerPass b.transactions tip.1.ledger
    let (_, events) ← passEffects registryEnv (.ascending _ _) height b b.transactions
      (domainStart tip.1 b ledger)
    return events ++ (← logEffects (height + 1) (registryStep tip e) log)

theorem effectLog_logBlocks {blocks : List Block} {tip : ChainState × Block}
    {past events : List Effect}
    {log : List (Int64 × List Transaction)} (hHistory : EffectLog registryEnv blocks tip.1 past)
    (hTip : blocks.getLast? = some tip.2) (hLog : logAccepted tip log = true)
    (hEvents : logEffects blocks.length tip log = .ok events) :
    EffectLog registryEnv (blocks ++ logBlocks tip log) (log.foldl registryStep tip).1
      (past ++ events) := by
  induction log generalizing blocks tip past events with
  | nil =>
    obtain rfl := pure_eq_ok.mp hEvents
    simpa [logBlocks] using hHistory
  | cons e log ih =>
    obtain ⟨hFirst, hRest⟩ := Bool.and_eq_true_iff.mp hLog
    obtain ⟨ledger, hLedger, hEvents⟩ := bind_eq_ok.mp hEvents
    obtain ⟨⟨final, new⟩, hPass, hEvents⟩ := bind_eq_ok.mp hEvents
    obtain ⟨later, hLater, hEvents⟩ := bind_eq_ok.mp hEvents
    obtain rfl := pure_eq_ok.mp hEvents
    obtain ⟨staged, hAccepted⟩ := exists_eq_ok hFirst
    have hNext := EffectLog.add hHistory hTip hAccepted hLedger hPass
    rw [← accept_eq hAccepted] at hNext
    have hStep := ih hNext (by simp) hRest (by simpa using hLater)
    simpa [logBlocks] using hStep

theorem effectLog_afterLog {log : List (Int64 × List Transaction)} {events : List Effect}
    (hLog : logAccepted (genesisState registryEnv, registryGenesis) log = true)
    (hEvents : logEffects 1 (genesisState registryEnv, registryGenesis) log = .ok events) :
    EffectLog registryEnv ([registryGenesis] ++
      logBlocks (genesisState registryEnv, registryGenesis) log) (afterLog log).1 events := by
  have hFirst : EffectLog registryEnv [registryGenesis] (genesisState registryEnv) [] := .genesis _
  exact @effectLog_logBlocks [registryGenesis] (genesisState registryEnv, registryGenesis) [] events log
    hFirst rfl hLog hEvents

theorem injOn_domain : Set.InjOn registryEnv.E.sha256 {d | d ∈ [[], utf8 "a.bdns"]} :=
  Blockchain.StandIn.injOn_of_forall [[], utf8 "a.bdns"] (fun _ h => h) (by decide +kernel)

end StandIn

end Bdns.Safety
