import Bdns.Consensus.Drg
import Bdns.Blockchain.StandIn

/-!
# Randomness over the gossip network

A node publishes its commitment and its reveal on the gossip network, and `ListenForGossip`
drops what the node has published itself. A world has the tables of all nodes, the published
messages and, for every node, the messages that have come to its handlers.

In every world that honest nodes reach, a published message of an epoch comes from the one secret
that its sender has drawn for that epoch. Once all messages of an epoch are delivered, a node
therefore holds the values of all other nodes, but never its own.
-/

namespace Bdns.Network

open Lib Blockchain Consensus

/-! ## Broadcasts -/

/-- The key pairs of the hosts. -/
structure KeyRing (G : DrgEnv) (ι : Type) where
  publicKey : ι → Bytes
  signASN1 : ι → Bytes → Bytes
  publicKey_injective : Function.Injective publicKey
  verifies : ∀ i payload,
    G.verifies (publicKey i) payload (signASN1 i (G.E.sha256 payload)) = true

inductive BroadcastError
  | noCommitment (epoch : Int64)

def BroadcastError.text : BroadcastError → Bytes
  | .noCommitment epoch =>
    utf8 "BroadcastReveal: no commitment found for epoch " ++ decimalInt epoch.toInt

section Broadcast

variable {G : DrgEnv} {ι : Type}

namespace KeyRing

/-- The text that names a host in its messages. -/
def senderHex (ring : KeyRing G ι) (i : ι) : Bytes := hexEncode (ring.publicKey i)

def commitmentMessage (ring : KeyRing G ι) (i : ι) (epoch : Int64) (sv : SecretValues) :
    DrgMessage :=
  let msg : CommitmentMsg := ⟨epoch, some sv.commitment, ring.senderHex i, []⟩
  .commitment { msg with signature := ring.signASN1 i (G.E.sha256 msg.payload) }

def revealMessage (ring : KeyRing G ι) (i : ι) (epoch : Int64) (sv : SecretValues) : DrgMessage :=
  let msg : RevealMsg := ⟨epoch, some sv.u, sv.r, ring.senderHex i, []⟩
  .reveal { msg with signature := ring.signASN1 i (G.E.sha256 msg.payload) }

/-- `BroadcastCommitment`, for the two values that the commitment phase draws. -/
def broadcastCommitment (ring : KeyRing G ι) (i : ι) (epoch : Int64) (u r : Bytes)
    (d : DrgState) : DrgState × DrgMessage :=
  let sv := commitmentPhase G.E (ring.publicKey i) u r
  ({ d with mySecrets := Function.update d.mySecrets epoch (some sv) },
    ring.commitmentMessage i epoch sv)

/-- `BroadcastReveal`. -/
def broadcastReveal (ring : KeyRing G ι) (i : ι) (epoch : Int64) (d : DrgState) :
    Except BroadcastError DrgMessage :=
  match d.mySecrets epoch with
  | none => .error (.noCommitment epoch)
  | some sv => .ok (ring.revealMessage i epoch sv)

variable {ring : KeyRing G ι} {i k : ι} {e epoch : Int64} {sv : SecretValues}

theorem senderHex_injective (ring : KeyRing G ι) : Function.Injective ring.senderHex := by
  intro i k h
  have hDecode := congrArg hexDecodeString h
  rw [senderHex, senderHex, hexDecodeString_hexEncode, hexDecodeString_hexEncode] at hDecode
  exact ring.publicKey_injective (Except.ok.inj hDecode)

@[simp]
theorem senderKey_senderHex : senderKey (ring.senderHex i) = ring.publicKey i := by
  rw [senderKey, senderHex, hexDecodeString_hexEncode]
  rfl

/-- The messages of a host pass the check of the sender. -/
theorem signer_commitmentMessage :
    (ring.commitmentMessage i epoch sv).signer G = some (ring.publicKey i) := by
  unfold commitmentMessage DrgMessage.signer
  simp only [DrgMessage.sender, senderHex, hexDecodeString_hexEncode]
  exact if_pos (ring.verifies i _)

theorem signer_revealMessage :
    (ring.revealMessage i epoch sv).signer G = some (ring.publicKey i) := by
  unfold revealMessage DrgMessage.signer
  simp only [DrgMessage.sender, senderHex, hexDecodeString_hexEncode]
  exact if_pos (ring.verifies i _)

/-- What a message of a host contributes, for every epoch and sender. -/
theorem commitmentOf_commitmentMessage (s : Bytes) :
    (ring.commitmentMessage i epoch sv).commitmentOf G e s =
      if e = epoch ∧ s = ring.senderHex i then some (some sv.commitment) else none := by
  have hSigned : ((ring.commitmentMessage i epoch sv).signer G).isSome = true := by
    rw [signer_commitmentMessage]
    rfl
  unfold commitmentMessage at hSigned ⊢
  simp only [DrgMessage.commitmentOf, hSigned, and_true]

theorem revealOf_revealMessage (s : Bytes) :
    (ring.revealMessage i epoch sv).revealOf G e s =
      if e = epoch ∧ s = ring.senderHex i then some ⟨some sv.u, sv.r⟩ else none := by
  have hSigned : ((ring.revealMessage i epoch sv).signer G).isSome = true := by
    rw [signer_revealMessage]
    rfl
  unfold revealMessage at hSigned ⊢
  simp only [DrgMessage.revealOf, hSigned, and_true]

end KeyRing

end Broadcast

/-! ## The network -/

/-- A message on the network, with the host that has published it. -/
structure GossipEnvelope (ι : Type) where
  sender : ι
  content : DrgMessage

structure World (ι : Type) where
  nodes : ι → DrgState := fun _ => {}
  published : List (GossipEnvelope ι) := []
  received : ι → List DrgMessage := fun _ => []

/-- `deliver j n` hands the `n`-th published message to the listener of host `j`. -/
inductive Action (ι : Type)
  | commit (i : ι) (epoch : Int64) (u r : Bytes)
  | reveal (i : ι) (epoch : Int64)
  | deliver (j : ι) (n : Nat)

section World

variable {G : DrgEnv} {ι : Type} [DecidableEq ι]

def World.step (ring : KeyRing G ι) : Action ι → World ι → Go (World ι)
  | .commit i epoch u r, w =>
    let (d, message) := ring.broadcastCommitment i epoch u r (w.nodes i)
    pure { w with
      nodes := Function.update w.nodes i d
      published := w.published ++ [⟨i, message⟩] }
  | .reveal i epoch, w =>
    match ring.broadcastReveal i epoch (w.nodes i) with
    | .error _ => pure w
    | .ok message => pure { w with published := w.published ++ [⟨i, message⟩] }
  | .deliver j n, w =>
    match w.published[n]? with
    | none => pure w
    | some envelope =>
      -- `ListenForGossip` ignores the messages of its own host
      if envelope.sender = j then pure w
      else do
        let (d, _) ← handleDrg G envelope.content (w.nodes j)
        pure { w with
          nodes := Function.update w.nodes j d
          received := Function.update w.received j (w.received j ++ [envelope.content]) }

/-- An honest node draws one secret for an epoch. -/
def Action.Honest (w : World ι) : Action ι → Prop
  | .commit i epoch u r => u.length = drgSecretBytes ∧ r.length = drgSecretBytes ∧
    (w.nodes i).mySecrets epoch = none
  | _ => True

instance (w : World ι) : (action : Action ι) → Decidable (action.Honest w)
  | .commit _ _ _ _ => inferInstanceAs (Decidable (_ ∧ _ ∧ _))
  | .reveal _ _ => .isTrue trivial
  | .deliver _ _ => .isTrue trivial

/-- The worlds that honest nodes reach, with any interleaving and any number of deliveries. -/
inductive World.Reachable (ring : KeyRing G ι) : World ι → Prop
  | init : Reachable ring {}
  | step {w w' : World ι} {action : Action ι} (run : Reachable ring w) (honest : action.Honest w)
      (step : w.step ring action = .ok w') : Reachable ring w'

/-- Every message comes from the secret of its sender, and the entries of a node from the
messages that it has received. -/
structure World.Consistent (ring : KeyRing G ι) (w : World ι) : Prop where
  secrets : ∀ i epoch sv, (w.nodes i).mySecrets epoch = some sv →
    verifyCommitment G.E (ring.publicKey i) sv = true
  published : ∀ i message, ⟨i, message⟩ ∈ w.published →
    ∃ sv, (w.nodes i).mySecrets message.epoch = some sv ∧
      (message = ring.commitmentMessage i message.epoch sv ∨
        message = ring.revealMessage i message.epoch sv)
  received : ∀ j, ∀ message ∈ w.received j, ∃ i, i ≠ j ∧ ⟨i, message⟩ ∈ w.published
  entries : ∀ j e s, ((w.nodes j).entry e s).Holds G.E (senderKey s)
    ((w.received j).findSome? (·.commitmentOf G e s))
    ((w.received j).findSome? (·.revealOf G e s))

variable {ring : KeyRing G ι} {w w' : World ι}

omit [DecidableEq ι] in
theorem consistent_init : World.Consistent ring {} where
  secrets := fun _ _ _ h => by simp at h
  published := fun _ _ h => by simp at h
  received := fun _ _ h => by simp at h
  entries := fun _ _ _ => DrgState.entry_empty ▸ Entry.holds_empty

omit [DecidableEq ι] in
/-- Publishing a message of a host's secret. -/
theorem World.Consistent.publish {i : ι} {epoch : Int64} {sv : SecretValues} {message : DrgMessage}
    (hw : w.Consistent ring) (hSecret : (w.nodes i).mySecrets epoch = some sv)
    (hMessage : message = ring.commitmentMessage i epoch sv ∨
      message = ring.revealMessage i epoch sv) :
    World.Consistent ring { w with published := w.published ++ [⟨i, message⟩] } := by
  refine ⟨hw.secrets, ?_, ?_, hw.entries⟩
  · intro k m hm
    rcases List.mem_append.mp hm with hOld | hNew
    · exact hw.published k m hOld
    · obtain ⟨rfl, rfl⟩ := GossipEnvelope.mk.inj (List.mem_singleton.mp hNew)
      have hEpoch : m.epoch = epoch := by
        rcases hMessage with rfl | rfl <;> rfl
      rw [hEpoch]
      exact ⟨sv, hSecret, hMessage⟩
  · intro j m hm
    obtain ⟨k, hOther, hOld⟩ := hw.received j m hm
    exact ⟨k, hOther, List.mem_append_left _ hOld⟩

/-- Drawing a secret for a new epoch. -/
theorem World.Consistent.draw {i : ι} {epoch : Int64} {sv : SecretValues}
    (hw : w.Consistent ring) (hNew : (w.nodes i).mySecrets epoch = none)
    (hVerify : verifyCommitment G.E (ring.publicKey i) sv = true) :
    World.Consistent ring { w with
      nodes := Function.update w.nodes i { w.nodes i with
        mySecrets := Function.update (w.nodes i).mySecrets epoch (some sv) } } := by
  refine ⟨?_, ?_, hw.received, ?_⟩
  · intro k e sv' hSecret
    by_cases hNode : k = i
    · subst hNode
      by_cases hEpoch : e = epoch
      · obtain rfl : sv = sv' := by simpa [hEpoch] using hSecret
        exact hVerify
      · exact hw.secrets k e sv' (by simpa [hEpoch] using hSecret)
    · exact hw.secrets k e sv' (by simpa [hNode] using hSecret)
  · intro k m hm
    obtain ⟨sv', hSecret, hMessage⟩ := hw.published k m hm
    refine ⟨sv', ?_, hMessage⟩
    by_cases hNode : k = i
    · subst hNode
      have hEpoch : m.epoch ≠ epoch := by
        rintro rfl
        simp [hNew] at hSecret
      simpa [hEpoch] using hSecret
    · simpa [hNode] using hSecret
  · intro j e s
    have hEntry : (Function.update w.nodes i { w.nodes i with
        mySecrets := Function.update (w.nodes i).mySecrets epoch (some sv) } j).entry e s =
          (w.nodes j).entry e s := by
      by_cases hNode : j = i
      · subst hNode
        rw [Function.update_self]
        rfl
      · rw [Function.update_of_ne hNode]
    simpa only [hEntry] using hw.entries j e s

theorem consistent_commit {i : ι} {epoch : Int64} {u r : Bytes} (hw : w.Consistent ring)
    (hHonest : (Action.commit i epoch u r).Honest w)
    (hStep : w.step ring (.commit i epoch u r) = .ok w') : w'.Consistent ring := by
  obtain ⟨hu, hr, hNew⟩ := hHonest
  obtain rfl := pure_eq_ok.mp hStep
  have hVerified : verifyCommitment G.E (ring.publicKey i)
      (commitmentPhase G.E (ring.publicKey i) u r) = true :=
    verifyCommitment_commitmentPhase hu hr
  have hDraw := hw.draw hNew hVerified
  exact hDraw.publish (by simp) (.inl rfl)

theorem consistent_reveal {i : ι} {epoch : Int64} (hw : w.Consistent ring)
    (hStep : w.step ring (.reveal i epoch) = .ok w') : w'.Consistent ring := by
  simp only [World.step, KeyRing.broadcastReveal] at hStep
  cases hSecret : (w.nodes i).mySecrets epoch with
  | none =>
    rw [hSecret] at hStep
    obtain rfl := pure_eq_ok.mp hStep
    exact hw
  | some sv =>
    rw [hSecret] at hStep
    obtain rfl := pure_eq_ok.mp hStep
    exact hw.publish hSecret (.inr rfl)

theorem consistent_deliver {j : ι} {n : Nat} (hw : w.Consistent ring)
    (hStep : w.step ring (.deliver j n) = .ok w') : w'.Consistent ring := by
  simp only [World.step] at hStep
  split at hStep
  · obtain rfl := pure_eq_ok.mp hStep
    exact hw
  rename_i envelope hEnvelope
  have hPublished := List.mem_of_getElem? hEnvelope
  split at hStep
  · obtain rfl := pure_eq_ok.mp hStep
    exact hw
  · rename_i hOther
    obtain ⟨⟨d, err⟩, hHandle, hStep⟩ := bind_eq_ok.mp hStep
    obtain rfl := pure_eq_ok.mp hStep
    have hSecrets : ∀ k, (Function.update w.nodes j d k).mySecrets = (w.nodes k).mySecrets := by
      intro k
      by_cases hNode : k = j
      · rw [hNode, Function.update_self, mySecrets_handleDrg hHandle]
      · rw [Function.update_of_ne hNode]
    refine ⟨?_, ?_, ?_, ?_⟩
    · simpa only [hSecrets] using hw.secrets
    · simpa only [hSecrets] using hw.published
    · intro k m hm
      by_cases hNode : k = j
      · subst hNode
        have hCases : m ∈ w.received k ∨ m = envelope.content := by simpa using hm
        rcases hCases with hOld | rfl
        · exact hw.received k m hOld
        · exact ⟨envelope.sender, hOther, hPublished⟩
      · exact hw.received k m (by simpa [hNode] using hm)
    · intro k e s
      by_cases hNode : k = j
      · subst hNode
        simpa [List.findSome?_append] using (hw.entries k e s).handleDrg hHandle
      · simpa [hNode] using hw.entries k e s

theorem World.Reachable.consistent (hRun : w.Reachable ring) : w.Consistent ring := by
  induction hRun with
  | init => exact consistent_init
  | @step w w' action _ hHonest hStep ih =>
    cases action with
    | commit i epoch u r => exact consistent_commit ih hHonest hStep
    | reveal i epoch => exact consistent_reveal ih hStep
    | deliver j n => exact consistent_deliver ih hStep

/-! ## Agreement -/

/-- Every node has committed and revealed for an epoch, and what has been published for it has come
to every other node. -/
structure World.Settled (w : World ι) (e : Int64) : Prop where
  broadcast : ∀ i handler, ∃ envelope ∈ w.published, envelope.sender = i ∧
    envelope.content.handler = handler ∧ envelope.content.epoch = e
  delivered : ∀ envelope ∈ w.published, envelope.content.epoch = e →
    ∀ j, j ≠ envelope.sender → envelope.content ∈ w.received j

theorem findSome?_eq_of_unique {α β : Type} {f : α → Option β} {l : List α} {b : β}
    (hSome : ∃ a ∈ l, f a = some b) (hUnique : ∀ a ∈ l, ∀ c, f a = some c → c = b) :
    l.findSome? f = some b := by
  cases hFind : l.findSome? f with
  | none =>
    obtain ⟨a, ha, hValue⟩ := hSome
    rw [List.findSome?_eq_none_iff.mp hFind a ha] at hValue
    exact absurd hValue (by simp)
  | some c =>
    obtain ⟨a, ha, hValue⟩ := List.exists_of_findSome?_eq_some hFind
    rw [hUnique a ha c hValue]

variable {e : Int64} {i j : ι} {message : DrgMessage}

omit [DecidableEq ι] in
/-- A received commitment is that of the sender's secret, and the sender is another node. -/
theorem World.Consistent.commitmentOf_received (hw : w.Consistent ring)
    (hMessage : message ∈ w.received j) {c : Option Bytes}
    (hc : message.commitmentOf G e (ring.senderHex i) = some c) :
    i ≠ j ∧ ∃ sv, (w.nodes i).mySecrets e = some sv ∧ c = some sv.commitment := by
  obtain ⟨k, hOther, hPublished⟩ := hw.received j message hMessage
  obtain ⟨sv, hSecret, hForm⟩ := hw.published k message hPublished
  rcases hForm with hForm | hForm
  · rw [hForm, KeyRing.commitmentOf_commitmentMessage, Option.ite_none_right_eq_some] at hc
    obtain ⟨⟨hEpoch, hSender⟩, hValue⟩ := hc
    obtain rfl := ring.senderHex_injective hSender
    exact ⟨hOther, sv, hEpoch ▸ hSecret, (Option.some.inj hValue).symm⟩
  · rw [hForm] at hc
    exact absurd hc (by simp [KeyRing.revealMessage, DrgMessage.commitmentOf])

omit [DecidableEq ι] in
theorem World.Consistent.revealOf_received (hw : w.Consistent ring)
    (hMessage : message ∈ w.received j) {data : RevealData}
    (hData : message.revealOf G e (ring.senderHex i) = some data) :
    i ≠ j ∧ ∃ sv, (w.nodes i).mySecrets e = some sv ∧ data = ⟨some sv.u, sv.r⟩ := by
  obtain ⟨k, hOther, hPublished⟩ := hw.received j message hMessage
  obtain ⟨sv, hSecret, hForm⟩ := hw.published k message hPublished
  rcases hForm with hForm | hForm
  · rw [hForm] at hData
    exact absurd hData (by simp [KeyRing.commitmentMessage, DrgMessage.revealOf])
  · rw [hForm, KeyRing.revealOf_revealMessage, Option.ite_none_right_eq_some] at hData
    obtain ⟨⟨hEpoch, hSender⟩, hValue⟩ := hData
    obtain rfl := ring.senderHex_injective hSender
    exact ⟨hOther, sv, hEpoch ▸ hSecret, (Option.some.inj hValue).symm⟩

omit [DecidableEq ι] in
/-- The two messages of a node that has committed and revealed. -/
theorem World.Settled.messages (hw : w.Consistent ring) (hDone : w.Settled e) (i : ι) :
    ∃ sv, (w.nodes i).mySecrets e = some sv ∧
      ⟨i, ring.commitmentMessage i e sv⟩ ∈ w.published ∧
      ⟨i, ring.revealMessage i e sv⟩ ∈ w.published := by
  obtain ⟨⟨_, commitment⟩, hCommitment, rfl, hHandler, hEpoch⟩ := hDone.broadcast i .commitment
  obtain ⟨⟨_, reveal⟩, hReveal, rfl, hHandler', hEpoch'⟩ := hDone.broadcast _ .reveal
  obtain ⟨sv, hSecret, hCommitted⟩ := hw.published _ _ hCommitment
  obtain ⟨sv', hSecret', hRevealed⟩ := hw.published _ _ hReveal
  rw [hEpoch] at hSecret hCommitted
  rw [hEpoch'] at hSecret' hRevealed
  obtain rfl : sv = sv' := Option.some.inj (hSecret.symm.trans hSecret')
  refine ⟨sv, hSecret, ?_, ?_⟩
  · rcases hCommitted with hForm | hForm
    · rwa [← hForm]
    · rw [hForm] at hHandler
      exact absurd hHandler (by simp [KeyRing.revealMessage, DrgMessage.handler])
  · rcases hRevealed with hForm | hForm
    · rw [hForm] at hHandler'
      exact absurd hHandler' (by simp [KeyRing.commitmentMessage, DrgMessage.handler])
    · rwa [← hForm]

omit [DecidableEq ι] in
/-- A settled node holds the value of every other node. -/
theorem World.Settled.random_other (hw : w.Consistent ring) (hDone : w.Settled e) (hOther : i ≠ j) :
    ∃ sv, (w.nodes i).mySecrets e = some sv ∧
      ((w.nodes j).epochRandoms e)[ring.senderHex i]? = some sv.u := by
  obtain ⟨sv, hSecret, hCommitment, hReveal⟩ := hDone.messages hw i
  refine ⟨sv, hSecret, ?_⟩
  have hCommitted : (w.received j).findSome? (·.commitmentOf G e (ring.senderHex i)) =
      some (some sv.commitment) := by
    refine findSome?_eq_of_unique
      ⟨_, hDone.delivered _ hCommitment rfl j hOther.symm, ?_⟩ fun m hm c hc => ?_
    · rw [KeyRing.commitmentOf_commitmentMessage, if_pos ⟨rfl, rfl⟩]
    · obtain ⟨-, sv', hSecret', rfl⟩ := hw.commitmentOf_received hm hc
      rw [Option.some.inj (hSecret.symm.trans hSecret')]
  have hRevealed : (w.received j).findSome? (·.revealOf G e (ring.senderHex i)) =
      some ⟨some sv.u, sv.r⟩ := by
    refine findSome?_eq_of_unique
      ⟨_, hDone.delivered _ hReveal rfl j hOther.symm, ?_⟩ fun m hm data hData => ?_
    · rw [KeyRing.revealOf_revealMessage, if_pos ⟨rfl, rfl⟩]
    · obtain ⟨-, sv', hSecret', rfl⟩ := hw.revealOf_received hm hData
      rw [Option.some.inj (hSecret.symm.trans hSecret')]
  have hRandom := (hw.entries j e (ring.senderHex i)).random
  rw [hCommitted, hRevealed, KeyRing.senderKey_senderHex] at hRandom
  have hVerify : verifyCommitment G.E (ring.publicKey i) ⟨sv.u, sv.r, sv.commitment⟩ = true :=
    hw.secrets i e sv hSecret
  simpa [Consensus.revealed, hVerify, DrgState.entry] using hRandom

omit [DecidableEq ι] in
/-- A node never holds its own value. -/
theorem World.Consistent.random_self (hw : w.Consistent ring) :
    ((w.nodes i).epochRandoms e)[ring.senderHex i]? = none := by
  have hCommitted : (w.received i).findSome? (·.commitmentOf G e (ring.senderHex i)) = none := by
    refine List.findSome?_eq_none_iff.mpr fun m hm => ?_
    by_contra hSome
    obtain ⟨c, hc⟩ := Option.ne_none_iff_exists'.mp hSome
    exact (hw.commitmentOf_received hm hc).1 rfl
  have hRandom := (hw.entries i e (ring.senderHex i)).random
  rw [hCommitted] at hRandom
  exact hRandom

/-- Once an epoch is settled, every node holds the values of all other nodes and not its own, so
the nodes agree exactly if there are no two of them. -/
theorem randoms_agree_iff (hRun : w.Reachable ring) (hDone : w.Settled e) :
    ((∀ i j, (w.nodes i).epochRandoms e = (w.nodes j).epochRandoms e) ↔ Subsingleton ι) ∧
      ∀ i, ∃ sv, (w.nodes i).mySecrets e = some sv ∧
        ∀ j, ((w.nodes j).epochRandoms e)[ring.senderHex i]? =
          if i = j then none else some sv.u := by
  have hw := hRun.consistent
  refine ⟨⟨fun hAgree => ⟨fun i j => ?_⟩, fun hOne i j => by rw [Subsingleton.elim i j]⟩,
    fun i => ?_⟩
  · by_contra hOther
    obtain ⟨sv, -, hHeld⟩ := hDone.random_other hw hOther
    rw [← hAgree i j, hw.random_self] at hHeld
    exact absurd hHeld (by simp)
  · obtain ⟨sv, hSecret, -⟩ := hDone.messages hw i
    refine ⟨sv, hSecret, fun j => ?_⟩
    split
    · rename_i hSelf
      rw [← hSelf, hw.random_self]
    · rename_i hOther
      obtain ⟨sv', hSecret', hHeld⟩ := hDone.random_other hw hOther
      rw [hHeld, Option.some.inj (hSecret.symm.trans hSecret')]

/-- A list of actions, up to the first one that is not honest. -/
def World.run (ring : KeyRing G ι) (actions : List (Action ι)) : Go (World ι) :=
  actions.foldlM (fun w action => if action.Honest w then w.step ring action else pure w) {}

theorem World.reachable_run {actions : List (Action ι)} (hRun : World.run ring actions = .ok w) :
    w.Reachable ring := by
  refine foldlM_invariant (World.Reachable ring) (fun action _ t t' ht hStep => ?_) .init hRun
  split at hStep
  · rename_i hHonest
    exact ht.step hHonest hStep
  · obtain rfl := pure_eq_ok.mp hStep
    exact ht

end World

namespace StandIn

/-- Two hosts with keys of one byte. -/
def gossipEnv : DrgEnv where
  E := .standIn fun _ => none
  verifyASN1 := fun key digest signature => signature == Blockchain.StandIn.sign key digest

def pairRing : KeyRing gossipEnv Bool where
  publicKey := fun i => [if i then 1 else 0]
  signASN1 := fun i => Blockchain.StandIn.sign [if i then 1 else 0]
  publicKey_injective := by decide
  verifies := fun i payload => by simp [DrgEnv.verifies, gossipEnv, External.standIn]

/-- Both hosts commit and reveal for epoch 1. The second one gets the reveal before the
commitment. -/
def exchange : List (Action Bool) :=
  [.commit false 1 (.replicate 32 5) (.replicate 32 0), .reveal false 1,
    .commit true 1 (.replicate 32 7) (.replicate 32 0), .reveal true 1,
    .deliver true 1, .deliver true 0, .deliver false 2, .deliver false 3, .deliver false 0]

def exchanged : World Bool := okOr (World.run pairRing exchange) {}

theorem run_exchange : World.run pairRing exchange = .ok exchanged :=
  eq_ok_okOr (by decide +kernel) _

theorem settled_exchanged : exchanged.Settled 1 where
  broadcast := fun i handler => by cases i <;> cases handler <;> decide +kernel
  delivered := by decide +kernel

end StandIn

/-- Each of the two hosts holds the value of the other one. -/
theorem randoms_agree_iff_pair :
    ∃ sv, (StandIn.exchanged.nodes true).mySecrets 1 = some sv ∧
      ((StandIn.exchanged.nodes false).epochRandoms 1)[StandIn.pairRing.senderHex true]? =
        some sv.u := by
  obtain ⟨sv, hSecret, hHeld⟩ := (randoms_agree_iff (World.reachable_run StandIn.run_exchange)
    StandIn.settled_exchanged).2 true
  exact ⟨sv, hSecret, hHeld false⟩

/-- All messages of the two hosts are delivered, and their values for the epoch differ. -/
theorem own_value_is_missing :
    ∃ w, World.run StandIn.pairRing StandIn.exchange = .ok w ∧ w.Settled 1 ∧
      ((w.nodes false).epochRandoms 1).toList =
        [(StandIn.pairRing.senderHex true, List.replicate 32 7)] ∧
      ((w.nodes true).epochRandoms 1).toList =
        [(StandIn.pairRing.senderHex false, List.replicate 32 5)] ∧
      (w.nodes false).epochRandoms 1 ≠ (w.nodes true).epochRandoms 1 := by
  refine ⟨_, StandIn.run_exchange, StandIn.settled_exchanged, by decide +kernel,
    by decide +kernel, fun hSame => ?_⟩
  have hList := congrArg Std.ExtTreeMap.toList hSame
  exact absurd hList (by decide +kernel)

/-! ## Any order of delivery -/

section Delivery

variable {G : DrgEnv} {e : Int64} {s : Bytes} {c : CommitmentMsg} {r : RevealMsg}

/-- A message that is neither of the two messages of a sender for an epoch. -/
def Foreign (G : DrgEnv) (e : Int64) (s : Bytes) (message : DrgMessage) : Prop :=
  message.epoch ≠ e ∨ message.sender ≠ s ∨ message.signer G = none

theorem Foreign.entry_eq {message : DrgMessage} (hForeign : Foreign G e s message)
    {d d' : DrgState} {err : Option DrgError} (h : handleDrg G message d = .ok (d', err)) :
    d'.entry e s = d.entry e s := by
  rw [entry_handleDrg h]
  split
  · rename_i hSame
    obtain ⟨rfl, rfl⟩ := hSame
    have hNone : message.signer G = none := by simpa [Foreign] using hForeign
    unfold Entry.receive
    rw [hNone]
  · rfl

theorem Foreign.nothing_taken {message : DrgMessage} (hForeign : Foreign G e s message) :
    message.commitmentOf G e s = none ∧ message.revealOf G e s = none := by
  have hNot : ¬ ((e = message.epoch ∧ s = message.sender) ∧ (message.signer G).isSome = true) := by
    rintro ⟨⟨rfl, rfl⟩, hSome⟩
    have hNone : message.signer G = none := by simpa [Foreign] using hForeign
    rw [hNone] at hSome
    exact absurd hSome (by simp)
  cases message with
  | commitment msg => exact ⟨if_neg hNot, rfl⟩
  | reveal msg => exact ⟨rfl, if_neg hNot⟩

/-- Among the messages that come in, those that count for the epoch and the sender are the two
given ones. -/
theorem taken_of_delivered {messages : List DrgMessage}
    (hCommitment : (DrgMessage.commitment c).commitmentOf G e s = some c.commitment)
    (hReveal : (DrgMessage.reveal r).revealOf G e s = some ⟨r.u, r.r⟩)
    (hOthers : ∀ message ∈ messages, message = .commitment c ∨ message = .reveal r ∨
      Foreign G e s message)
    (hc : .commitment c ∈ messages) (hr : .reveal r ∈ messages) :
    messages.findSome? (·.commitmentOf G e s) = some c.commitment ∧
      messages.findSome? (·.revealOf G e s) = some ⟨r.u, r.r⟩ := by
  constructor
  · refine findSome?_eq_of_unique ⟨_, hc, hCommitment⟩ fun message hMem b hb => ?_
    obtain rfl | rfl | hForeign := hOthers message hMem
    · exact Option.some.inj (hb.symm.trans hCommitment)
    · exact absurd hb (by simp [DrgMessage.commitmentOf])
    · exact absurd (hb.symm.trans hForeign.nothing_taken.1) (by simp)
  · refine findSome?_eq_of_unique ⟨_, hr, hReveal⟩ fun message hMem b hb => ?_
    obtain rfl | rfl | hForeign := hOthers message hMem
    · exact absurd hb (by simp [DrgMessage.revealOf])
    · exact Option.some.inj (hb.symm.trans hReveal)
    · exact absurd (hb.symm.trans hForeign.nothing_taken.2) (by simp)

/-- The signed commitment and the signed matching reveal of a sender, in any order, any number of
times and among any other messages: the value is held and nothing stays buffered. -/
theorem delivery_order_irrelevant {d : DrgState} (hNew : d.entry e s = {})
    (hc : c.epoch = e ∧ c.sender = s ∧ ((DrgMessage.commitment c).signer G).isSome = true)
    (hr : r.epoch = e ∧ r.sender = s ∧ ((DrgMessage.reveal r).signer G).isSome = true)
    (hMatch : verifyCommitment G.E (senderKey s) ⟨r.u.getD [], r.r, c.commitment.getD []⟩ = true)
    {messages : List DrgMessage}
    (hSenders : ∀ message ∈ messages, 8 ≤ message.sender.length)
    (hOthers : ∀ message ∈ messages, message = .commitment c ∨ message = .reveal r ∨
      Foreign G e s message)
    (hcDelivered : .commitment c ∈ messages) (hrDelivered : .reveal r ∈ messages) :
    (∃ d', handleAll G messages d = .ok d' ∧ r.u ≠ none ∧ (d'.epochRandoms e)[s]? = r.u ∧
      d'.pendingReveals e s = {}) ∧
    ∀ message, Foreign G e s message → ∀ d₁ d₂ err, handleDrg G message d₁ = .ok (d₂, err) →
      (d₂.epochRandoms e)[s]? = (d₁.epochRandoms e)[s]? ∧
        d₂.pendingReveals e s = d₁.pendingReveals e s := by
  have hCommitment : (DrgMessage.commitment c).commitmentOf G e s = some c.commitment :=
    if_pos ⟨⟨hc.1.symm, hc.2.1.symm⟩, hc.2.2⟩
  have hReveal : (DrgMessage.reveal r).revealOf G e s = some ⟨r.u, r.r⟩ :=
    if_pos ⟨⟨hr.1.symm, hr.2.1.symm⟩, hr.2.2⟩
  obtain ⟨u, hu⟩ : ∃ u, r.u = some u := by
    cases hu : r.u with
    | some u => exact ⟨u, rfl⟩
    | none =>
      rw [hu, Option.getD_none, verifyCommitment_nil _ _ _ (.inl rfl)] at hMatch
      exact absurd hMatch (by simp)
  refine ⟨?_, fun message hForeign d₁ d₂ err hHandle => ?_⟩
  · obtain ⟨d', hRun⟩ := exists_handleAll hSenders d
    have hStart : (d.entry e s).Holds G.E (senderKey s) none none := hNew ▸ Entry.holds_empty
    obtain ⟨hFirstCommitment, hFirstReveal⟩ :=
      taken_of_delivered hCommitment hReveal hOthers hcDelivered hrDelivered
    have hRandom : (d'.entry e s).random = r.u := by
      rw [(hStart.handleAll hRun).random, hFirstCommitment, hFirstReveal]
      simp only [Option.none_or, revealed, hMatch, if_true]
      rw [hu, Option.getD_some]
    refine ⟨d', hRun, by simp [hu], hRandom, ?_⟩
    refine hStart.clear_handleAll (fun hSome => ?_) hRun (by simp [hRandom, hu])
    rw [hNew]
  · have hEntry := hForeign.entry_eq hHandle
    exact ⟨congrArg Entry.random hEntry, congrArg Entry.pending hEntry⟩

end Delivery

namespace StandIn

/-- Two hosts with keys of four bytes. -/
def longRing : KeyRing gossipEnv Bool where
  publicKey := fun i => [if i then 1 else 0, 0, 0, 0]
  signASN1 := fun i => Blockchain.StandIn.sign [if i then 1 else 0, 0, 0, 0]
  publicKey_injective := by decide
  verifies := fun i payload => by simp [DrgEnv.verifies, gossipEnv, External.standIn]

def secret : SecretValues :=
  commitmentPhase gossipEnv.E (longRing.publicKey false) (.replicate 32 5) (.replicate 32 0)

def commitmentMsg : CommitmentMsg :=
  let msg : CommitmentMsg := ⟨1, some secret.commitment, longRing.senderHex false, []⟩
  { msg with signature := longRing.signASN1 false (gossipEnv.E.sha256 msg.payload) }

def revealMsg : RevealMsg :=
  let msg : RevealMsg := ⟨1, some secret.u, secret.r, longRing.senderHex false, []⟩
  { msg with signature := longRing.signASN1 false (gossipEnv.E.sha256 msg.payload) }

end StandIn

/-- The reveal comes first and twice, with an unsigned reveal and a message of the other host in
between. -/
def StandIn.revealsFirst : List DrgMessage :=
  [.reveal { revealMsg with signature := [] }, .reveal revealMsg,
    longRing.commitmentMessage true 1 secret, .reveal revealMsg, .commitment commitmentMsg]

open StandIn in
theorem delivery_order_irrelevant_pair :
    ∃ d', handleAll gossipEnv revealsFirst {} = .ok d' ∧
      (d'.epochRandoms 1)[longRing.senderHex false]? = some (.replicate 32 5) ∧
      d'.pendingReveals 1 (longRing.senderHex false) = {} := by
  have hSender : longRing.senderHex true ≠ longRing.senderHex false := by decide +kernel
  have hUnsigned : (DrgMessage.reveal { revealMsg with signature := [] }).signer gossipEnv =
      none := by decide +kernel
  have hCommitment : ((DrgMessage.commitment commitmentMsg).signer gossipEnv).isSome = true := by
    decide +kernel
  have hReveal : ((DrgMessage.reveal revealMsg).signer gossipEnv).isSome = true := by
    decide +kernel
  have hOthers : ∀ message ∈ revealsFirst, message = .commitment commitmentMsg ∨
      message = .reveal revealMsg ∨ Foreign gossipEnv 1 (longRing.senderHex false) message := by
    simp only [revealsFirst, List.mem_cons, List.not_mem_nil, or_false]
    rintro message (rfl | rfl | rfl | rfl | rfl)
    · exact .inr (.inr (.inr (.inr hUnsigned)))
    · exact .inr (.inl rfl)
    · exact .inr (.inr (.inr (.inl hSender)))
    · exact .inr (.inl rfl)
    · exact .inl rfl
  obtain ⟨⟨d', hRun, -, hRandom, hPending⟩, -⟩ :=
    delivery_order_irrelevant DrgState.entry_empty ⟨rfl, rfl, hCommitment⟩ ⟨rfl, rfl, hReveal⟩
      (by decide +kernel) (by decide +kernel) hOthers (by simp [revealsFirst])
      (by simp [revealsFirst])
  exact ⟨d', hRun, hRandom, hPending⟩

end Bdns.Network
