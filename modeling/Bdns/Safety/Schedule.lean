import Bdns.Network.Election
import Bdns.Network.Leader

/-!
# When the leader of an epoch is decided

A node computes the leader of an epoch at the first question and keeps the answer. The history
of a node records, beside the blocks and messages that it has taken, how many of them there were
when each epoch was first asked for. The answer is a function of that moment, so two nodes
agree on an epoch if they first ask for it at the same moment of the chain and of the reveals.
-/

namespace Bdns.Safety

open Lib Blockchain Consensus Network

/-! ## What blocks change -/

/-- The part of a node's state from which leaders are computed, apart from the reveals. -/
structure ChainView where
  stakes : StakeState
  blockchain : Blockchain

/-- A block that a node has taken: the first one, or one that extends the chain. -/
inductive Taken
  | genesis (block : Block)
  | extension (block : Block)

/-- The stakes after an extension do not depend on the rest of the state. -/
def ChainView.take (E : External) (view : ChainView) : Taken → Go ChainView
  | .genesis block => pure { view with blockchain := view.blockchain.addBlock block }
  | .extension block => do
    let stakes ← stakePass E block.slotNumber block.transactions
      (openStakes view.stakes block.slotNumber)
    pure ⟨stakes, view.blockchain.addBlock block⟩

def viewOf (p : Peer) : ChainView := ⟨p.node.state.stakes, p.node.blockchain⟩

/-- The leader that a view and a table of reveals determine. -/
def elect (net : NetEnv) (view : ChainView) (drg : DrgState) (epoch : Int64) : Go Bytes :=
  Peer.electLeader net
    { node := { state := { stakes := view.stakes }, blockchain := view.blockchain }, drg } epoch

theorem electLeader_eq_elect (net : NetEnv) (p : Peer) (epoch : Int64) :
    p.electLeader net epoch = elect net (viewOf p) p.drg epoch := rfl

/-- Only the reveals of the epoch before count. -/
theorem elect_congr {net : NetEnv} {view : ChainView} {drg drg' : DrgState} {epoch : Int64}
    (h : drg.epochRandoms (epoch - 1) = drg'.epochRandoms (epoch - 1)) :
    elect net view drg epoch = elect net view drg' epoch := by
  simp only [elect, Peer.electLeader, h]

/-! ## Events -/

/-- The epoch for which an event asks. -/
def askedBy (net : NetEnv) : Event → Option Int64
  | .block _ block => (net.timestampEpoch block.timestamp).toOption
  | .drg _ => none
  | .tick _ _ slot _ => (net.slotEpoch slot).toOption
  | .slotSkip skip => (net.slotEpoch skip.slot).toOption

/-- The block that a node takes in an event. -/
def takenBy (net : NetEnv) (p : Peer) : Event → Option Taken
  | .block order block =>
    if p.admits net order block then
      some (if block.index = 0 then .genesis block else .extension block)
    else none
  | .tick order leader slot chosen =>
    if (net.slotEpoch slot >>= fun epoch => p.leaderOf net epoch) = .ok leader.publicKey then
      ((p.node.build net.env order leader slot chosen).toOption.bind (·.proposal)).map
        fun proposal => .extension proposal.block
    else none
  | _ => none

def messageOf : Event → Option DrgMessage
  | .drg message => some message
  | _ => none

section Step

variable {net : NetEnv} {p p' : Peer} {event : Event}

/-- A step asks for an epoch, takes a block or handles a message, and does nothing else that an
election could see. -/
structure Steps (net : NetEnv) (p p' : Peer) (event : Event) : Prop where
  asked : match askedBy net event with
    | none => p'.slotLeaders = p.slotLeaders
    | some epoch => ∃ leader, p.leaderOf net epoch = .ok leader ∧
      p'.slotLeaders = Function.update p.slotLeaders epoch (some leader)
  taken : match takenBy net p event with
    | none => viewOf p' = viewOf p
    | some taken => (viewOf p).take net.E taken = .ok (viewOf p')
  message : match messageOf event with
    | none => p'.drg = p.drg
    | some message => handleAll net.toDrgEnv [message] p.drg = .ok p'.drg
  idle : p'.node.proposal = none

theorem steps_drg {message : DrgMessage} (hIdle : p.node.proposal = none)
    (h : p.step net (.drg message) = .ok p') : Steps net p p' (.drg message) := by
  obtain ⟨⟨drg, err⟩, hHandle, h⟩ := bind_eq_ok.mp h
  obtain rfl := pure_eq_ok.mp h
  refine ⟨rfl, rfl, ?_, hIdle⟩
  simp [messageOf, handleAll, hHandle]

theorem steps_slotSkip {skip : SlotSkipAttestation} (hIdle : p.node.proposal = none)
    (h : p.step net (.slotSkip skip) = .ok p') : Steps net p p' (.slotSkip skip) := by
  obtain ⟨epoch, hEpoch, h⟩ := bind_eq_ok.mp h
  obtain ⟨⟨leader, p₁⟩, hAnswer, h⟩ := bind_eq_ok.mp h
  obtain ⟨hLeader, rfl⟩ := Peer.getSlotLeader_eq_ok.mp hAnswer
  have hAsked : askedBy net (.slotSkip skip) = some epoch := by simp [askedBy, hEpoch, Except.toOption]
  have hSame : p'.slotLeaders = Function.update p.slotLeaders epoch (some leader) ∧
      p'.node = p.node ∧ p'.drg = p.drg := by
    dsimp only at h
    split at h
    · obtain rfl := pure_eq_ok.mp h
      exact ⟨rfl, rfl, rfl⟩
    · split at h
      all_goals
        obtain rfl := pure_eq_ok.mp h
        exact ⟨rfl, rfl, rfl⟩
  obtain ⟨hLeaders, hNode, hDrg⟩ := hSame
  refine ⟨?_, ?_, hDrg, hNode ▸ hIdle⟩
  · rw [hAsked]
    exact ⟨leader, hLeader, hLeaders⟩
  · exact congrArg (fun n : Node => ChainView.mk n.state.stakes n.blockchain) hNode

/-- `AddBlock` after the leader is known: the view changes by an admitted block only. -/
theorem view_addBlock {env : Env} {order : JournalOrder} {slotLeader : Bytes} {block : Block}
    {n n' : Node} (h : n.addBlock env order slotLeader block = .ok n') :
    n'.proposal = n.proposal ∧
      (n.admits env order slotLeader block = true →
        ChainView.take env.E ⟨n.state.stakes, n.blockchain⟩
          (if block.index = 0 then .genesis block else .extension block) =
            .ok ⟨n'.state.stakes, n'.blockchain⟩) ∧
      (n.admits env order slotLeader block = false → n' = n) := by
  unfold Node.addBlock at h
  unfold Node.admits
  by_cases hIndex : block.index = 0
  · rw [if_pos hIndex] at h
    rw [if_pos hIndex, if_pos hIndex]
    split at h
    · rename_i hValid
      obtain rfl := pure_eq_ok.mp h
      exact ⟨rfl, fun _ => rfl, fun hNot => absurd hValid (of_decide_eq_false hNot)⟩
    · rename_i hInvalid
      obtain rfl := pure_eq_ok.mp h
      exact ⟨rfl, fun hValid => absurd (of_decide_eq_true hValid) hInvalid, fun _ => rfl⟩
  · rw [if_neg hIndex] at h
    rw [if_neg hIndex, if_neg hIndex]
    cases hLatest : n.blockchain.getLatestBlock with
    | none =>
      rw [hLatest] at h
      exact absurd h (by simp)
    | some latest =>
      rw [hLatest] at h
      dsimp only at h ⊢
      split at h
      · exact absurd h (by simp)
      · rename_i reason hReject
        obtain rfl := pure_eq_ok.mp h
        refine ⟨rfl, fun hOk => ?_, fun _ => rfl⟩
        rw [hReject] at hOk
        exact absurd hOk Bool.false_ne_true
      · rename_i staged hStaged
        obtain rfl := pure_eq_ok.mp h
        refine ⟨rfl, fun _ => ?_, fun hNot => ?_⟩
        · have hStakes := (validateBlock_eq_ok hStaged).2.2.stakes
          simp only [ChainView.take, hStakes]
          rfl
        · rw [hStaged] at hNot
          exact absurd hNot.symm Bool.false_ne_true

theorem steps_block {order : JournalOrder} {block : Block} (hIdle : p.node.proposal = none)
    (h : p.step net (.block order block) = .ok p') : Steps net p p' (.block order block) := by
  obtain ⟨epoch, hEpoch, h⟩ := bind_eq_ok.mp h
  obtain ⟨⟨leader, p₁⟩, hAnswer, h⟩ := bind_eq_ok.mp h
  obtain ⟨hLeader, rfl⟩ := Peer.getSlotLeader_eq_ok.mp hAnswer
  obtain ⟨node, hAdd, h⟩ := bind_eq_ok.mp h
  obtain rfl := pure_eq_ok.mp h
  obtain ⟨hProposal, hAdmitted, hRefused⟩ := view_addBlock hAdd
  have hAsked : askedBy net (.block order block) = some epoch := by
    simp [askedBy, hEpoch, Except.toOption]
  have hAdmits : p.admits net order block = p.node.admits net.env order leader block := by
    unfold Peer.admits
    rw [hEpoch]
    simp only [bind, Except.bind, hLeader]
  refine ⟨?_, ?_, rfl, hProposal.trans hIdle⟩
  · rw [hAsked]
    exact ⟨leader, hLeader, rfl⟩
  · cases hPass : p.node.admits net.env order leader block with
    | true =>
      simp only [takenBy, hAdmits, hPass, if_true]
      exact hAdmitted hPass
    | false =>
      simp only [takenBy, hAdmits, hPass, if_false, Bool.false_eq_true]
      exact congrArg (fun n : Node => ChainView.mk n.state.stakes n.blockchain) (hRefused hPass)

/-- A slot of the node's own: the view changes by the block that was built. -/
theorem view_build {env : Env} {order : JournalOrder} {leader : Leader} {slot : Int64}
    {chosen : List Transaction} {n n' : Node} (hIdle : n.proposal = none)
    (h : n.build env order leader slot chosen = .ok n') :
    (n'.promote env order).proposal = none ∧
      match n'.proposal with
      | none => n'.promote env order = n
      | some proposal =>
        ChainView.take env.E ⟨n.state.stakes, n.blockchain⟩ (.extension proposal.block) =
          .ok ⟨(n'.promote env order).state.stakes, (n'.promote env order).blockchain⟩ := by
  rcases build_eq_ok h with rfl | ⟨latest, b, staged, -, -, rfl, hExtends, hStages⟩
  · have hPromote : n'.promote env order = n' := by
      unfold Node.promote
      rw [hIdle]
    rw [hPromote, hIdle]
    exact ⟨rfl, rfl⟩
  · refine ⟨rfl, ?_⟩
    simp only [ChainView.take, hStages.stakes]
    rfl

theorem steps_tick {order : JournalOrder} {leader : Leader} {slot : Int64}
    {chosen : List Transaction} (hIdle : p.node.proposal = none)
    (h : p.step net (.tick order leader slot chosen) = .ok p') :
    Steps net p p' (.tick order leader slot chosen) := by
  obtain ⟨epoch, hEpoch, h⟩ := bind_eq_ok.mp h
  obtain ⟨⟨elected, p₁⟩, hAnswer, h⟩ := bind_eq_ok.mp h
  obtain ⟨hLeader, rfl⟩ := Peer.getSlotLeader_eq_ok.mp hAnswer
  have hAsked : askedBy net (.tick order leader slot chosen) = some epoch := by
    simp [askedBy, hEpoch, Except.toOption]
  have hElected : (net.slotEpoch slot >>= fun epoch => p.leaderOf net epoch) = .ok elected := by
    rw [hEpoch]
    exact hLeader
  dsimp only at h
  split at h
  · rename_i hOther
    obtain rfl := pure_eq_ok.mp h
    refine ⟨?_, ?_, rfl, hIdle⟩
    · rw [hAsked]
      exact ⟨elected, hLeader, rfl⟩
    · have hSkip : ¬ (net.slotEpoch slot >>= fun epoch => p.leaderOf net epoch) =
          .ok leader.publicKey := by
        rw [hElected]
        exact fun hEq => hOther (Except.ok.inj hEq)
      simp only [takenBy, if_neg hSkip]
      rfl
  · rename_i hOwn
    obtain ⟨node, hBuild, h⟩ := bind_eq_ok.mp h
    obtain rfl := pure_eq_ok.mp h
    obtain ⟨hDone, hView⟩ := view_build hIdle hBuild
    have hTurn : (net.slotEpoch slot >>= fun epoch => p.leaderOf net epoch) =
        .ok leader.publicKey := by
      rw [hElected, not_ne_iff.mp hOwn]
    refine ⟨?_, ?_, rfl, ?_⟩
    · rw [hAsked]
      exact ⟨elected, hLeader, rfl⟩
    · have hTaken : takenBy net p (.tick order leader slot chosen) =
          node.proposal.map fun proposal => .extension proposal.block := by
        simp only [takenBy, if_pos hTurn, hBuild]
        rfl
      rw [hTaken]
      cases hProposal : node.proposal with
      | none =>
        rw [hProposal] at hView
        exact congrArg (fun n : Node => ChainView.mk n.state.stakes n.blockchain) hView
      | some proposal =>
        rw [hProposal] at hView
        exact hView
    · exact hDone

theorem steps_of_step (hIdle : p.node.proposal = none) (h : p.step net event = .ok p') :
    Steps net p p' event := by
  cases event with
  | block order block => exact steps_block hIdle h
  | drg message => exact steps_drg hIdle h
  | tick order leader slot chosen => exact steps_tick hIdle h
  | slotSkip skip => exact steps_slotSkip hIdle h

end Step

/-! ## Histories -/

/-- The blocks and messages that a node has taken up to a moment. -/
structure Moment where
  blocks : List Taken := []
  messages : List DrgMessage := []

/-- What a node has taken by now, and what it had taken when it was first asked for an epoch. -/
structure History where
  now : Moment := {}
  asked : Int64 → Option Moment := fun _ => none

/-- The moment that decides the leader of an epoch: the first question, or now if there was
none. -/
def History.moment (h : History) (epoch : Int64) : Moment := (h.asked epoch).getD h.now

def History.record (net : NetEnv) (p : Peer) (event : Event) (h : History) : History where
  now := ⟨h.now.blocks ++ (takenBy net p event).toList,
    h.now.messages ++ (messageOf event).toList⟩
  asked := match askedBy net event with
    | none => h.asked
    | some epoch =>
      if (h.asked epoch).isSome then h.asked else Function.update h.asked epoch (some h.now)

/-- The nodes that events lead to, with their histories. -/
inductive Reaches (net : NetEnv) : History → Peer → Prop
  | init : Reaches net {} (.init net)
  | step {h : History} {p p' : Peer} {event : Event} (run : Reaches net h p)
      (step : p.step net event = .ok p') : Reaches net (h.record net p event) p'

/-- A moment leads to a view of the chain and a table of reveals. -/
structure Moment.LeadsTo (net : NetEnv) (m : Moment) (view : ChainView) (drg : DrgState) :
    Prop where
  blocks : m.blocks.foldlM (ChainView.take net.E) (viewOf (.init net)) = .ok view
  messages : handleAll net.toDrgEnv m.messages {} = .ok drg

/-- The memory of a node: for every epoch that was asked for, the leader at that moment. -/
structure Remembers (net : NetEnv) (h : History) (p : Peer) : Prop where
  now : h.now.LeadsTo net (viewOf p) p.drg
  fresh : ∀ epoch, h.asked epoch = none → p.slotLeaders epoch = none
  asked : ∀ epoch m, h.asked epoch = some m → ∃ view drg leader, m.LeadsTo net view drg ∧
    elect net view drg epoch = .ok leader ∧ p.slotLeaders epoch = some leader
  idle : p.node.proposal = none

variable {net : NetEnv} {h h' : History} {p p' q : Peer} {event : Event}

theorem remembers_init : Remembers net {} (.init net) where
  now := ⟨rfl, rfl⟩
  fresh := fun _ _ => rfl
  asked := fun _ _ hAsked => by simp at hAsked
  idle := rfl

/-- The moment after a step. -/
theorem leadsTo_record (hNow : h.now.LeadsTo net (viewOf p) p.drg) (hSteps : Steps net p p' event) :
    (h.record net p event).now.LeadsTo net (viewOf p') p'.drg where
  blocks := by
    have hTaken := hSteps.taken
    unfold History.record
    cases hCase : takenBy net p event with
    | none =>
      rw [hCase] at hTaken
      simpa [hTaken] using hNow.blocks
    | some taken =>
      rw [hCase] at hTaken
      exact foldlM_concat_eq_ok.mpr ⟨_, hNow.blocks, hTaken⟩
  messages := by
    have hMessage := hSteps.message
    unfold History.record
    cases hCase : messageOf event with
    | none =>
      rw [hCase] at hMessage
      simpa [hMessage] using hNow.messages
    | some message =>
      rw [hCase] at hMessage
      exact foldlM_append_eq_ok.mpr ⟨_, hNow.messages, hMessage⟩

/-- A question leaves the memory alone, except that a new epoch is remembered with the present
moment. -/
theorem memory_record (hp : Remembers net h p) (hSteps : Steps net p p' event) :
    ((h.record net p event).asked = h.asked ∧ p'.slotLeaders = p.slotLeaders) ∨
      ∃ epoch leader, (h.record net p event).asked = Function.update h.asked epoch (some h.now) ∧
        p'.slotLeaders = Function.update p.slotLeaders epoch (some leader) ∧
        elect net (viewOf p) p.drg epoch = .ok leader := by
  have hAsked := hSteps.asked
  unfold History.record
  cases hCase : askedBy net event with
  | none =>
    rw [hCase] at hAsked
    exact .inl ⟨rfl, hAsked⟩
  | some epoch =>
    rw [hCase] at hAsked
    obtain ⟨leader, hLeader, hUpdate⟩ := hAsked
    cases hBefore : h.asked epoch with
    | none =>
      refine .inr ⟨epoch, leader, by simp [hBefore], hUpdate, ?_⟩
      rwa [Peer.leaderOf_of_none (hp.fresh epoch hBefore), electLeader_eq_elect] at hLeader
    | some m =>
      obtain ⟨_, _, known, -, -, hMemo⟩ := hp.asked epoch m hBefore
      obtain rfl : known = leader :=
        Except.ok.inj ((Peer.leaderOf_of_some hMemo).symm.trans hLeader)
      refine .inl ⟨by simp [hBefore], ?_⟩
      rw [hUpdate, ← hMemo, Function.update_eq_self]

theorem remembers_step (hp : Remembers net h p) (hStep : p.step net event = .ok p') :
    Remembers net (h.record net p event) p' := by
  have hSteps := steps_of_step hp.idle hStep
  have hNow := leadsTo_record hp.now hSteps
  rcases memory_record hp hSteps with ⟨hAsked, hMemo⟩ | ⟨new, leader, hAsked, hMemo, hElect⟩
  · refine ⟨hNow, ?_, ?_, hSteps.idle⟩ <;> rw [hAsked, hMemo]
    · exact hp.fresh
    · exact hp.asked
  · refine ⟨hNow, fun epoch => ?_, fun epoch m => ?_, hSteps.idle⟩ <;> rw [hAsked, hMemo]
    · by_cases hNew : epoch = new
      · simp [hNew]
      · simpa [hNew] using hp.fresh epoch
    · by_cases hNew : epoch = new
      · subst hNew
        intro hMoment
        obtain rfl : h.now = m := by simpa using hMoment
        exact ⟨viewOf p, p.drg, leader, hp.now, hElect, by simp⟩
      · simpa [hNew] using hp.asked epoch m

theorem remembers_of_reaches (hp : Reaches net h p) : Remembers net h p := by
  induction hp with
  | init => exact remembers_init
  | step _ hStep ih => exact remembers_step ih hStep

/-- The answer of a node is the election at the moment of the first question. -/
theorem leaderOf_of_reaches (hp : Reaches net h p) (epoch : Int64) :
    ∃ view drg, (h.moment epoch).LeadsTo net view drg ∧
      p.leaderOf net epoch = elect net view drg epoch := by
  have hMemory := remembers_of_reaches hp
  unfold History.moment
  cases hAsked : h.asked epoch with
  | none =>
    refine ⟨viewOf p, p.drg, hMemory.now, ?_⟩
    rw [Peer.leaderOf_of_none (hMemory.fresh epoch hAsked), electLeader_eq_elect]
  | some m =>
    obtain ⟨view, drg, leader, hLeads, hElect, hMemo⟩ := hMemory.asked epoch m hAsked
    exact ⟨view, drg, hLeads, (Peer.leaderOf_of_some hMemo).trans hElect.symm⟩

/-! ## Agreement -/

/-- For every sender, the same commitment and the same reveal of an epoch come first. -/
def SameReveals (G : DrgEnv) (epoch : Int64) (messages messages' : List DrgMessage) : Prop :=
  ∀ sender, messages.findSome? (·.commitmentOf G epoch sender) =
      messages'.findSome? (·.commitmentOf G epoch sender) ∧
    messages.findSome? (·.revealOf G epoch sender) =
      messages'.findSome? (·.revealOf G epoch sender)

theorem epochRandoms_of_sameReveals {G : DrgEnv} {epoch : Int64}
    {messages messages' : List DrgMessage} {drg drg' : DrgState}
    (hSame : SameReveals G epoch messages messages') (hRun : handleAll G messages {} = .ok drg)
    (hRun' : handleAll G messages' {} = .ok drg') :
    drg.epochRandoms epoch = drg'.epochRandoms epoch := by
  refine Std.ExtTreeMap.ext_getElem? fun sender => ?_
  obtain ⟨hCommitment, hReveal⟩ := hSame sender
  rw [getElem?_epochRandoms_handleAll hRun, getElem?_epochRandoms_handleAll hRun', hCommitment,
    hReveal]

/-- Two nodes agree on the leader of an epoch if, when each of them was first asked for it, they
had taken the same blocks and the same reveals of the epoch before. -/
theorem leaders_agree_of_same_moment {epoch : Int64} (hp : Reaches net h p)
    (hq : Reaches net h' q) (hBlocks : (h.moment epoch).blocks = (h'.moment epoch).blocks)
    (hReveals : SameReveals net.toDrgEnv (epoch - 1) (h.moment epoch).messages
      (h'.moment epoch).messages) :
    p.leaderOf net epoch = q.leaderOf net epoch := by
  obtain ⟨view, drg, hLeads, hLeader⟩ := leaderOf_of_reaches hp epoch
  obtain ⟨view', drg', hLeads', hLeader'⟩ := leaderOf_of_reaches hq epoch
  obtain rfl : view = view' := by
    have hView := hLeads.blocks
    rw [hBlocks] at hView
    exact Except.ok.inj (hView.symm.trans hLeads'.blocks)
  rw [hLeader, hLeader']
  exact elect_congr (epochRandoms_of_sameReveals hReveals hLeads.messages hLeads'.messages)

/-- A question for an epoch fixes its moment. -/
theorem moment_record {epoch : Int64} (hAsked : askedBy net event = some epoch) :
    (h.record net p event).asked epoch = some (h.moment epoch) := by
  unfold History.record History.moment
  rw [hAsked]
  cases hBefore : h.asked epoch with
  | none => simp [hBefore]
  | some m => simp [hBefore]

/-- Messages one after another. -/
theorem reaches_messages {messages : List DrgMessage} {drg : DrgState} (hp : Reaches net h p)
    (hRun : handleAll net.toDrgEnv messages p.drg = .ok drg) :
    Reaches net ⟨⟨h.now.blocks, h.now.messages ++ messages⟩, h.asked⟩ { p with drg } := by
  induction messages generalizing h p with
  | nil =>
    obtain rfl : p.drg = drg := pure_eq_ok.mp hRun
    simpa using hp
  | cons message messages ih =>
    obtain ⟨⟨d, err⟩, hHandle, hRest⟩ := handleAll_cons hRun
    have hStep : p.step net (.drg message) = .ok { p with drg := d } :=
      bind_eq_ok.mpr ⟨(d, err), hHandle, rfl⟩
    simpa [History.record, takenBy, messageOf, askedBy] using ih (hp.step hStep) hRest

namespace StandIn

open Network.StandIn

def birth : Event := .block (.ascending _ _) (pkixGenesis 2)

/-- The node after the genesis block. -/
def born : Peer := okOr ((Peer.init (pkixNet 2)).step (pkixNet 2) birth) (.init (pkixNet 2))

def bornHistory : History := ({} : History).record (pkixNet 2) (.init (pkixNet 2)) birth

theorem reaches_born : Reaches (pkixNet 2) bornHistory born :=
  Reaches.init.step (eq_ok_okOr (by decide +kernel) _)

/-- The genesis block asks for epoch 0 only. -/
theorem bornHistory_asked : bornHistory.asked 1 = none := by
  have hAsked : askedBy (pkixNet 2) birth = some 0 := by decide +kernel
  simp [bornHistory, History.record, hAsked]

/-- The node after the genesis block and the given messages. -/
def told (messages : List DrgMessage) : Peer :=
  { born with drg := okOr (handleAll (pkixNet 2).toDrgEnv messages born.drg) {} }

theorem reaches_told {m : List DrgMessage}
    (hOk : (handleAll (pkixNet 2).toDrgEnv m born.drg).isOk = true) :
    Reaches (pkixNet 2) ⟨⟨bornHistory.now.blocks, m⟩, bornHistory.asked⟩ (told m) :=
  reaches_messages reaches_born (eq_ok_okOr hOk _)

/-- A slot-skip attestation for the first slot of epoch 1, without a signature. -/
def unsignedSkip : Event := .slotSkip ⟨10, [], []⟩

end StandIn

/-- The order of the two messages and a question after them make no difference. -/
theorem leaders_agree_of_same_moment_late :
    ∃ h p h' q, Reaches (Network.StandIn.pkixNet 2) h p ∧ Reaches (Network.StandIn.pkixNet 2) h' q ∧
      (h.asked 1).isSome ∧ h'.asked 1 = none ∧
      p.leaderOf (Network.StandIn.pkixNet 2) 1 = q.leaderOf (Network.StandIn.pkixNet 2) 1 := by
  have hp := StandIn.reaches_told (m := Network.StandIn.lastKeyMessages) (by decide +kernel)
  have hq := StandIn.reaches_told (m := Network.StandIn.lastKeyMessages.reverse) (by decide +kernel)
  have hLate := hp.step (eq_ok_okOr (by decide +kernel) StandIn.born :
    (StandIn.told Network.StandIn.lastKeyMessages).step _ StandIn.unsignedSkip = .ok _)
  have hQuestion : askedBy (Network.StandIn.pkixNet 2) StandIn.unsignedSkip = some 1 := by
    decide +kernel
  refine ⟨_, _, _, _, hLate, hq, by rw [moment_record hQuestion]; rfl, StandIn.bornHistory_asked,
    leaders_agree_of_same_moment hLate hq ?_ ?_⟩
  · simp [History.moment, moment_record hQuestion, StandIn.bornHistory_asked]
  · intro sender
    simp [History.moment, moment_record hQuestion, StandIn.bornHistory_asked,
      Network.StandIn.lastKeyMessages, DrgMessage.commitmentOf, DrgMessage.revealOf,
      List.findSome?]

/-- Two nodes take the same block and the same messages, but one of them gets an attestation for
epoch 1 before the reveal: they disagree on the leader of epoch 1 from then on. -/
theorem early_question_splits_leaders :
    ∃ p q, (StandIn.birth :: StandIn.unsignedSkip ::
        Network.StandIn.lastKeyMessages.map .drg).foldlM (fun (p : Peer) event =>
        p.step (Network.StandIn.pkixNet 2) event) (.init (Network.StandIn.pkixNet 2)) = .ok p ∧
      (StandIn.birth :: Network.StandIn.lastKeyMessages.map .drg ++
        [StandIn.unsignedSkip]).foldlM (fun (p : Peer) event =>
        p.step (Network.StandIn.pkixNet 2) event) (.init (Network.StandIn.pkixNet 2)) = .ok q ∧
      p.leaderOf (Network.StandIn.pkixNet 2) 1 = .ok (pkixPrefix ++ [0]) ∧
      q.leaderOf (Network.StandIn.pkixNet 2) 1 = .ok (pkixPrefix ++ [1]) := by
  refine ⟨Network.StandIn.afterEvents _ _, Network.StandIn.afterEvents _ _,
    eq_ok_okOr (by decide +kernel) _,
    eq_ok_okOr (by decide +kernel) _, ?_⟩
  decide +kernel

end Bdns.Safety
