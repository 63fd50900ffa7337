import Bdns.Blockchain.Block
import Bdns.Blockchain.Config

/-!
# Distributed randomness

The commit-reveal protocol of `drg.go` and its handlers in `node.go`. For every epoch a node
commits to a random value, reveals it later, and collects the values that the others reveal.
A commitment and a reveal may arrive in either order, so a reveal without a commitment is
buffered.

The state is a table with one entry for every epoch and sender. A message changes the entry of
its own epoch and sender only (`entry_commitmentHandler`, `entry_revealHandler`), and there it
acts as a small machine on `Entry`.
-/

namespace Bdns.Consensus

open Lib Blockchain

def drgSecretBytes : Nat := 32

structure SecretValues where
  u : Bytes
  r : Bytes
  commitment : Bytes

/-- The payload of a reveal. A slice that is compared with nil is an `Option`. -/
structure RevealData where
  u : Option Bytes := none
  r : Bytes := []
  deriving DecidableEq

/-- `CommitmentPhase`, for the two values that it draws. -/
def commitmentPhase (E : External) (senderPubKey u r : Bytes) : SecretValues :=
  ⟨u, r, E.sha256 (senderPubKey ++ r ++ u)⟩

def verifyCommitment (E : External) (senderPubKey : Bytes) (sv : SecretValues) : Bool :=
  if sv.r.length ≠ drgSecretBytes ∨ sv.u.length ≠ drgSecretBytes then false
  else E.sha256 (senderPubKey ++ sv.r ++ sv.u) == sv.commitment

/-- A value drawn in the commitment phase verifies. -/
theorem verifyCommitment_commitmentPhase {E : External} {senderPubKey u r : Bytes}
    (hu : u.length = drgSecretBytes) (hr : r.length = drgSecretBytes) :
    verifyCommitment E senderPubKey (commitmentPhase E senderPubKey u r) = true := by
  simp [verifyCommitment, commitmentPhase, hu, hr]

/-! ## Messages -/

structure CommitmentMsg where
  epoch : Int64
  commitment : Option Bytes
  sender : Bytes
  signature : Bytes
  deriving DecidableEq

structure RevealMsg where
  epoch : Int64
  u : Option Bytes
  r : Bytes
  sender : Bytes
  signature : Bytes
  deriving DecidableEq

/-- The signed bytes of a message. -/
def CommitmentMsg.payload (msg : CommitmentMsg) : Bytes :=
  intToByteArr msg.epoch ++ msg.commitment.getD [] ++ msg.sender

def RevealMsg.payload (msg : RevealMsg) : Bytes :=
  intToByteArr msg.epoch ++ msg.u.getD [] ++ msg.r ++ msg.sender

/-- The handlers, by the messages they take. -/
inductive Handler
  | commitment
  | reveal
  deriving DecidableEq

inductive DrgMessage
  | commitment (msg : CommitmentMsg)
  | reveal (msg : RevealMsg)
  deriving DecidableEq

def DrgMessage.epoch : DrgMessage → Int64
  | .commitment msg => msg.epoch
  | .reveal msg => msg.epoch

def DrgMessage.sender : DrgMessage → Bytes
  | .commitment msg => msg.sender
  | .reveal msg => msg.sender

def DrgMessage.handler : DrgMessage → Handler
  | .commitment _ => .commitment
  | .reveal _ => .reveal

def DrgMessage.payload : DrgMessage → Bytes
  | .commitment msg => msg.payload
  | .reveal msg => msg.payload

def DrgMessage.signature : DrgMessage → Bytes
  | .commitment msg => msg.signature
  | .reveal msg => msg.signature

def Handler.text : Handler → Bytes
  | .commitment => utf8 "CommitmentHandler"
  | .reveal => utf8 "RevealHandler"

inductive DrgError
  | invalidSenderHex (handler : Handler) (err : HexError)
  | invalidSignature (handler : Handler) (sender : Bytes)
  | commitmentMismatch (sender : Bytes)
  deriving DecidableEq

/-- The text of an error; that of a hexadecimal error is wrapped as it is. -/
def DrgError.text (hexText : HexError → Bytes) : DrgError → Bytes
  | .invalidSenderHex handler err =>
    handler.text ++ utf8 ": invalid sender hex: " ++ hexText err
  | .invalidSignature handler sender => handler.text ++ utf8 ": invalid signature from " ++ sender
  | .commitmentMismatch sender => utf8 "RevealHandler: commitment mismatch from " ++ sender

/-! ## The state of a node -/

structure DrgState where
  epochCommitments : Int64 → Bytes → Option Bytes := fun _ _ => none
  pendingReveals : Int64 → Bytes → RevealData := fun _ _ => {}
  epochRandoms : Int64 → Std.ExtTreeMap Bytes Bytes compare := fun _ => ∅
  mySecrets : Int64 → Option SecretValues := fun _ => none
  drgDedupCache : Bytes → Option UInt64 := fun _ => none

/-- The key of a message in the cache of seen messages. -/
def msgKey (handler : Handler) (epoch : Int64) (sender : Bytes) : Bytes :=
  (match handler with
    | .commitment => utf8 "commit:"
    | .reveal => utf8 "reveal:") ++ decimalInt epoch.toInt ++ utf8 ":" ++ sender

namespace DrgState

def hasSeenDRGMessage (d : DrgState) (key : Bytes) (epoch : UInt64) : Bool :=
  d.drgDedupCache key == some epoch

def markDRGMessageSeen (d : DrgState) (key : Bytes) (epoch : UInt64) : DrgState :=
  { d with drgDedupCache := Function.update d.drgDedupCache key (some epoch) }

/-- The assignment of a cell of a map of maps. -/
def setAt {α : Type} (m : Int64 → Bytes → α) (epoch : Int64) (sender : Bytes) (a : α) :
    Int64 → Bytes → α :=
  Function.update m epoch (Function.update (m epoch) sender a)

def setCommitment (d : DrgState) (epoch : Int64) (sender : Bytes) (commitment : Option Bytes) :
    DrgState :=
  { d with epochCommitments := setAt d.epochCommitments epoch sender commitment }

def setPending (d : DrgState) (epoch : Int64) (sender : Bytes) (data : RevealData) : DrgState :=
  { d with pendingReveals := setAt d.pendingReveals epoch sender data }

def setRandom (d : DrgState) (epoch : Int64) (sender u : Bytes) : DrgState :=
  { d with epochRandoms :=
      Function.update d.epochRandoms epoch ((d.epochRandoms epoch).insert sender u) }

end DrgState

/-- The code outside the repository, with `ecdsa.VerifyASN1` for the messages. -/
structure DrgEnv where
  E : External
  verifyASN1 : E.PublicKey → Bytes → Bytes → Bool

/-- `BytesToPublicKey`, then `VerifyASN1`. -/
def DrgEnv.verifies (G : DrgEnv) (pubKeyBytes payload signature : Bytes) : Bool :=
  match G.E.parsePublicKey pubKeyBytes with
  | none => false
  | some pub => G.verifyASN1 pub (G.E.sha256 payload) signature

/-- The check of a sender that both handlers make: its public key, or the error. An error
message quotes the first eight characters of the sender. -/
def verifySender (G : DrgEnv) (handler : Handler) (sender payload signature : Bytes) :
    Go (Except DrgError Bytes) :=
  match hexDecodeString sender with
  | .error err => pure (.error (.invalidSenderHex handler err))
  | .ok pubKeyBytes =>
    if G.verifies pubKeyBytes payload signature then pure (.ok pubKeyBytes)
    else if sender.length < 8 then throw .indexOutOfRange
    else pure (.error (.invalidSignature handler (sender.take 8)))

/-! ## The handlers -/

/-- The common frame of the two handlers: a message that was seen is dropped, a bad sender is an
error, and any other message is marked and stored. -/
def handleOnce (G : DrgEnv) (handler : Handler) (epoch : Int64) (sender payload signature : Bytes)
    (store : Bytes → DrgState → Go (DrgState × Option DrgError)) (d : DrgState) :
    Go (DrgState × Option DrgError) :=
  if d.hasSeenDRGMessage (msgKey handler epoch sender) epoch.toUInt64 then pure (d, none)
  else do
    match ← verifySender G handler sender payload signature with
    | .error err => pure (d, some err)
    | .ok pubKeyBytes =>
      store pubKeyBytes (d.markDRGMessageSeen (msgKey handler epoch sender) epoch.toUInt64)

/-- A commitment is stored, and a reveal that waited for it is checked against it. -/
def DrgState.storeCommitment (E : External) (msg : CommitmentMsg) (pubKeyBytes : Bytes)
    (d : DrgState) : DrgState :=
  let pendingForSender := d.pendingReveals msg.epoch msg.sender
  let d := d.setCommitment msg.epoch msg.sender msg.commitment
  match pendingForSender.u with
  | none => d
  | some u =>
    if verifyCommitment E pubKeyBytes ⟨u, pendingForSender.r, msg.commitment.getD []⟩ then
      (d.setRandom msg.epoch msg.sender u).setPending msg.epoch msg.sender {}
    else d

def commitmentHandler (G : DrgEnv) (msg : CommitmentMsg) (d : DrgState) :
    Go (DrgState × Option DrgError) :=
  handleOnce G .commitment msg.epoch msg.sender msg.payload msg.signature
    (fun pubKeyBytes d => pure (d.storeCommitment G.E msg pubKeyBytes, none)) d

/-- A reveal is buffered without a commitment, and checked against it otherwise. -/
def DrgState.storeReveal (E : External) (msg : RevealMsg) (pubKeyBytes : Bytes) (d : DrgState) :
    Go (DrgState × Option DrgError) :=
  match d.epochCommitments msg.epoch msg.sender with
  | none => pure (d.setPending msg.epoch msg.sender ⟨msg.u, msg.r⟩, none)
  | some commitment =>
    if verifyCommitment E pubKeyBytes ⟨msg.u.getD [], msg.r, commitment⟩ then
      pure (d.setRandom msg.epoch msg.sender (msg.u.getD []), none)
    else if msg.sender.length < 8 then throw .indexOutOfRange
    else pure (d, some (.commitmentMismatch (msg.sender.take 8)))

def revealHandler (G : DrgEnv) (msg : RevealMsg) (d : DrgState) :
    Go (DrgState × Option DrgError) :=
  handleOnce G .reveal msg.epoch msg.sender msg.payload msg.signature (DrgState.storeReveal G.E msg) d

/-- The two cases of `HandleMsgGivenType`. -/
def handleDrg (G : DrgEnv) : DrgMessage → DrgState → Go (DrgState × Option DrgError)
  | .commitment msg => commitmentHandler G msg
  | .reveal msg => revealHandler G msg

/-! ## Entries -/

/-- What a node holds for one epoch and sender. -/
@[ext] structure Entry where
  commitment : Option Bytes := none
  pending : RevealData := {}
  random : Option Bytes := none
  commitSeen : Bool := false
  revealSeen : Bool := false

def Entry.seen (entry : Entry) : Handler → Bool
  | .commitment => entry.commitSeen
  | .reveal => entry.revealSeen

def Entry.mark (entry : Entry) : Handler → Entry
  | .commitment => { entry with commitSeen := true }
  | .reveal => { entry with revealSeen := true }

def DrgState.entry (d : DrgState) (epoch : Int64) (sender : Bytes) : Entry where
  commitment := d.epochCommitments epoch sender
  pending := d.pendingReveals epoch sender
  random := (d.epochRandoms epoch)[sender]?
  commitSeen := d.hasSeenDRGMessage (msgKey .commitment epoch sender) epoch.toUInt64
  revealSeen := d.hasSeenDRGMessage (msgKey .reveal epoch sender) epoch.toUInt64

/-- The part of `storeCommitment` that an entry sees. -/
def Entry.storeCommitment (E : External) (pubKeyBytes : Bytes) (commitment : Option Bytes)
    (entry : Entry) : Entry :=
  match entry.pending.u with
  | none => { entry with commitment := commitment }
  | some u =>
    if verifyCommitment E pubKeyBytes ⟨u, entry.pending.r, commitment.getD []⟩ then
      { entry with commitment := commitment, random := some u, pending := {} }
    else { entry with commitment := commitment }

/-- The part of `storeReveal` that an entry sees. -/
def Entry.storeReveal (E : External) (pubKeyBytes : Bytes) (data : RevealData) (entry : Entry) :
    Entry :=
  match entry.commitment with
  | none => { entry with pending := data }
  | some commitment =>
    if verifyCommitment E pubKeyBytes ⟨data.u.getD [], data.r, commitment⟩ then
      { entry with random := some (data.u.getD []) }
    else entry

def Entry.store (E : External) (pubKeyBytes : Bytes) : DrgMessage → Entry → Entry
  | .commitment msg => .storeCommitment E pubKeyBytes msg.commitment
  | .reveal msg => .storeReveal E pubKeyBytes ⟨msg.u, msg.r⟩

/-- The public key that a message names and is signed with. -/
def DrgMessage.signer (G : DrgEnv) (message : DrgMessage) : Option Bytes :=
  match hexDecodeString message.sender with
  | .error _ => none
  | .ok pubKeyBytes =>
    if G.verifies pubKeyBytes message.payload message.signature then some pubKeyBytes else none

/-- What the handlers do to the entry of a message's epoch and sender. -/
def Entry.receive (G : DrgEnv) (message : DrgMessage) (entry : Entry) : Entry :=
  match message.signer G with
  | none => entry
  | some pubKeyBytes =>
    if entry.seen message.handler = true then entry
    else (entry.mark message.handler).store G.E pubKeyBytes message

theorem msgKey_inj {handler handler' : Handler} {epoch epoch' : Int64} {sender sender' : Bytes}
    (h : msgKey handler epoch sender = msgKey handler' epoch' sender') :
    handler = handler' ∧ epoch = epoch' ∧ sender = sender' := by
  have hCommit : utf8 "commit:" = [99, 111, 109, 109, 105, 116, 58] := by decide +kernel
  have hReveal : utf8 "reveal:" = [114, 101, 118, 101, 97, 108, 58] := by decide +kernel
  have hEpoch {x y : Bytes} (hText : decimalInt epoch.toInt ++ 58 :: x =
      decimalInt epoch'.toInt ++ 58 :: y) : epoch = epoch' ∧ x = y := by
    obtain ⟨hInt, hRest⟩ := append_sep_inj (not_mem_decimalInt (by decide) (by decide) _)
      (not_mem_decimalInt (by decide) (by decide) _) hText
    exact ⟨Int64.toInt_inj.mp (decimalInt_injective hInt), hRest⟩
  cases handler <;> cases handler' <;>
    simp only [msgKey, hCommit, hReveal, utf8_colon, List.cons_append, List.nil_append,
      List.append_assoc, List.cons.injEq] at h
  · exact ⟨rfl, hEpoch (by simpa using h)⟩
  · exact absurd h.1 (by decide)
  · exact absurd h.1 (by decide)
  · exact ⟨rfl, hEpoch (by simpa using h)⟩

section Frame

variable {G : DrgEnv} {d d' : DrgState} {epoch e : Int64} {sender s : Bytes}
  {err : Option DrgError}

theorem DrgState.entry_setCommitment (commitment : Option Bytes) :
    (d.setCommitment epoch sender commitment).entry e s =
      if e = epoch ∧ s = sender then { d.entry e s with commitment := commitment }
      else d.entry e s := by
  by_cases hEpoch : e = epoch
  · subst hEpoch
    by_cases hSender : s = sender <;> simp [entry, setCommitment, setAt, hasSeenDRGMessage, hSender]
  · simp [entry, setCommitment, setAt, hasSeenDRGMessage, hEpoch]

theorem DrgState.entry_setPending (data : RevealData) :
    (d.setPending epoch sender data).entry e s =
      if e = epoch ∧ s = sender then { d.entry e s with pending := data } else d.entry e s := by
  by_cases hEpoch : e = epoch
  · subst hEpoch
    by_cases hSender : s = sender <;> simp [entry, setPending, setAt, hasSeenDRGMessage, hSender]
  · simp [entry, setPending, setAt, hasSeenDRGMessage, hEpoch]

theorem DrgState.entry_setRandom (u : Bytes) :
    (d.setRandom epoch sender u).entry e s =
      if e = epoch ∧ s = sender then { d.entry e s with random := some u } else d.entry e s := by
  by_cases hEpoch : e = epoch
  · subst hEpoch
    by_cases hSender : s = sender
    · simp [entry, setRandom, hasSeenDRGMessage, hSender]
    · simp [entry, setRandom, hasSeenDRGMessage, hSender, Std.ExtTreeMap.getElem?_insert,
        Ne.symm hSender]
  · simp [entry, setRandom, hasSeenDRGMessage, hEpoch]

theorem DrgState.hasSeen_mark (handler handler' : Handler) :
    (d.markDRGMessageSeen (msgKey handler epoch sender) epoch.toUInt64).hasSeenDRGMessage
        (msgKey handler' e s) e.toUInt64 =
      if handler' = handler ∧ e = epoch ∧ s = sender then true
      else d.hasSeenDRGMessage (msgKey handler' e s) e.toUInt64 := by
  by_cases hKey : handler' = handler ∧ e = epoch ∧ s = sender
  · obtain ⟨rfl, rfl, rfl⟩ := hKey
    simp [hasSeenDRGMessage, markDRGMessageSeen]
  · have hNe : msgKey handler' e s ≠ msgKey handler epoch sender := fun h => hKey (msgKey_inj h)
    simp [hasSeenDRGMessage, markDRGMessageSeen, Function.update_of_ne hNe, hKey]

theorem DrgState.entry_mark (handler : Handler) :
    (d.markDRGMessageSeen (msgKey handler epoch sender) epoch.toUInt64).entry e s =
      if e = epoch ∧ s = sender then (d.entry e s).mark handler else d.entry e s := by
  rw [entry, hasSeen_mark, hasSeen_mark]
  cases handler <;>
    by_cases hSame : e = epoch ∧ s = sender <;> simp [entry, Entry.mark, markDRGMessageSeen, hSame]

theorem DrgState.entry_storeCommitment (E : External) (msg : CommitmentMsg) (pubKeyBytes : Bytes) :
    (d.storeCommitment E msg pubKeyBytes).entry e s =
      if e = msg.epoch ∧ s = msg.sender then
        (d.entry e s).storeCommitment E pubKeyBytes msg.commitment
      else d.entry e s := by
  have hBuffer : d.pendingReveals msg.epoch msg.sender =
      (d.entry msg.epoch msg.sender).pending := rfl
  simp only [storeCommitment, hBuffer]
  by_cases hSame : e = msg.epoch ∧ s = msg.sender
  · obtain ⟨rfl, rfl⟩ := hSame
    rw [if_pos ⟨rfl, rfl⟩, Entry.storeCommitment]
    cases (d.entry msg.epoch msg.sender).pending.u with
    | none => simp [entry_setCommitment]
    | some u =>
      dsimp only
      split <;> simp [entry_setCommitment, entry_setRandom, entry_setPending]
  · rw [if_neg hSame]
    split
    · simp only [entry_setCommitment, if_neg hSame]
    · split <;> simp only [entry_setCommitment, entry_setRandom, entry_setPending, if_neg hSame]

theorem DrgState.entry_storeReveal {E : External} {msg : RevealMsg} {pubKeyBytes : Bytes}
    (h : d.storeReveal E msg pubKeyBytes = .ok (d', err)) :
    d'.entry e s =
      if e = msg.epoch ∧ s = msg.sender then
        (d.entry e s).storeReveal E pubKeyBytes ⟨msg.u, msg.r⟩
      else d.entry e s := by
  have hStored : d.epochCommitments msg.epoch msg.sender =
      (d.entry msg.epoch msg.sender).commitment := rfl
  simp only [storeReveal, hStored] at h
  by_cases hSame : e = msg.epoch ∧ s = msg.sender
  · obtain ⟨rfl, rfl⟩ := hSame
    rw [if_pos ⟨rfl, rfl⟩, Entry.storeReveal]
    split at h
    · obtain ⟨rfl, -⟩ := Prod.mk.inj (pure_eq_ok.mp h)
      simp only [*, entry_setPending, and_self, if_true]
    · rename_i commitment hCommitment
      simp only [hCommitment]
      split at h
      · rename_i hVerify
        obtain ⟨rfl, -⟩ := Prod.mk.inj (pure_eq_ok.mp h)
        simp only [hVerify, entry_setRandom, and_self, if_true, hCommitment]
      · rename_i hVerify
        obtain ⟨-, h⟩ := ite_throw_eq_ok.mp h
        obtain ⟨rfl, -⟩ := Prod.mk.inj (pure_eq_ok.mp h)
        simp only [hVerify, if_false, Bool.false_eq_true]
  · rw [if_neg hSame]
    split at h
    · obtain ⟨rfl, -⟩ := Prod.mk.inj (pure_eq_ok.mp h)
      rw [entry_setPending, if_neg hSame]
    · split at h
      · obtain ⟨rfl, -⟩ := Prod.mk.inj (pure_eq_ok.mp h)
        rw [entry_setRandom, if_neg hSame]
      · obtain ⟨-, h⟩ := ite_throw_eq_ok.mp h
        obtain ⟨rfl, -⟩ := Prod.mk.inj (pure_eq_ok.mp h)
        rfl

/-- What the handler of a message stores. -/
def DrgState.store (E : External) : DrgMessage → Bytes → DrgState → Go (DrgState × Option DrgError)
  | .commitment msg, pubKeyBytes, d => pure (d.storeCommitment E msg pubKeyBytes, none)
  | .reveal msg, pubKeyBytes, d => d.storeReveal E msg pubKeyBytes

theorem handleDrg_eq (message : DrgMessage) (d : DrgState) :
    handleDrg G message d = handleOnce G message.handler message.epoch message.sender
      message.payload message.signature (DrgState.store G.E message) d := by
  cases message <;> rfl

/-- A handled message is stored if it is new and its signature is valid; otherwise nothing
changes. -/
theorem handleDrg_eq_ok {message : DrgMessage} (h : handleDrg G message d = .ok (d', err)) :
    match message.signer G with
    | none => d' = d
    | some pubKeyBytes =>
      if (d.entry message.epoch message.sender).seen message.handler = true then d' = d
      else (d.markDRGMessageSeen (msgKey message.handler message.epoch message.sender)
        message.epoch.toUInt64).store G.E message pubKeyBytes = .ok (d', err) := by
  have hSeen : (d.entry message.epoch message.sender).seen message.handler =
      d.hasSeenDRGMessage (msgKey message.handler message.epoch message.sender)
        message.epoch.toUInt64 := by
    cases message <;> rfl
  rw [handleDrg_eq] at h
  unfold handleOnce verifySender at h
  unfold DrgMessage.signer
  rw [← hSeen] at h
  by_cases hOld : (d.entry message.epoch message.sender).seen message.handler = true
  · rw [if_pos hOld] at h
    obtain ⟨rfl, -⟩ := Prod.mk.inj (pure_eq_ok.mp h)
    split
    · rfl
    · rw [if_pos hOld]
  · rw [if_neg hOld] at h
    split at h
    · obtain ⟨rfl, -⟩ := Prod.mk.inj (pure_eq_ok.mp h)
      rfl
    · split at h
      · rename_i hVerifies
        simp only [hVerifies, if_true, if_neg hOld]
        exact h
      · rename_i hVerifies
        simp only [hVerifies, if_false, Bool.false_eq_true]
        obtain ⟨_, hErr, h⟩ := bind_eq_ok.mp h
        obtain ⟨-, hErr⟩ := ite_throw_eq_ok.mp hErr
        obtain rfl := pure_eq_ok.mp hErr
        exact (Prod.mk.inj (pure_eq_ok.mp h)).1.symm

theorem DrgState.mySecrets_store {E : External} {message : DrgMessage} {pubKeyBytes : Bytes}
    (h : d.store E message pubKeyBytes = .ok (d', err)) : d'.mySecrets = d.mySecrets := by
  cases message with
  | commitment msg =>
    obtain ⟨rfl, -⟩ := Prod.mk.inj (pure_eq_ok.mp h)
    unfold storeCommitment
    dsimp only
    split
    · rfl
    · split <;> rfl
  | reveal msg =>
    simp only [store, storeReveal] at h
    split at h
    · obtain ⟨rfl, -⟩ := Prod.mk.inj (pure_eq_ok.mp h)
      rfl
    · split at h
      · obtain ⟨rfl, -⟩ := Prod.mk.inj (pure_eq_ok.mp h)
        rfl
      · obtain ⟨-, h⟩ := ite_throw_eq_ok.mp h
        obtain ⟨rfl, -⟩ := Prod.mk.inj (pure_eq_ok.mp h)
        rfl

/-- The handlers do not touch the secrets of the node itself. -/
theorem mySecrets_handleDrg {message : DrgMessage} (h : handleDrg G message d = .ok (d', err)) :
    d'.mySecrets = d.mySecrets := by
  have hCases := handleDrg_eq_ok h
  split at hCases
  · rw [hCases]
  · split at hCases
    · rw [hCases]
    · exact (DrgState.mySecrets_store hCases).trans rfl

theorem DrgState.entry_store {E : External} {message : DrgMessage} {pubKeyBytes : Bytes}
    (h : d.store E message pubKeyBytes = .ok (d', err)) :
    d'.entry e s =
      if e = message.epoch ∧ s = message.sender then (d.entry e s).store E pubKeyBytes message
      else d.entry e s := by
  cases message with
  | commitment msg =>
    obtain ⟨rfl, -⟩ := Prod.mk.inj (pure_eq_ok.mp h)
    exact entry_storeCommitment E msg pubKeyBytes
  | reveal msg => exact entry_storeReveal h

/-- A message changes the entry of its epoch and sender only, and depends on nothing else. -/
theorem entry_handleDrg {message : DrgMessage} (h : handleDrg G message d = .ok (d', err)) :
    d'.entry e s =
      if e = message.epoch ∧ s = message.sender then (d.entry e s).receive G message
      else d.entry e s := by
  have hCases := handleDrg_eq_ok h
  by_cases hSame : e = message.epoch ∧ s = message.sender
  · obtain ⟨rfl, rfl⟩ := hSame
    rw [if_pos ⟨rfl, rfl⟩, Entry.receive]
    split at hCases
    · rw [hCases]
    · split at hCases
      · rename_i hOld
        rw [if_pos hOld, hCases]
      · rename_i hNew
        rw [if_neg hNew, DrgState.entry_store hCases, if_pos ⟨rfl, rfl⟩, DrgState.entry_mark,
          if_pos ⟨rfl, rfl⟩]
  · rw [if_neg hSame]
    split at hCases
    · rw [hCases]
    · split at hCases
      · rw [hCases]
      · rw [DrgState.entry_store hCases, if_neg hSame, DrgState.entry_mark, if_neg hSame]

end Frame

/-! ## Runs of messages -/

/-- The value that a commitment and a reveal of one sender yield. -/
def revealed (E : External) (pubKeyBytes : Bytes) :
    Option (Option Bytes) → Option RevealData → Option Bytes
  | some commitment, some data =>
    if verifyCommitment E pubKeyBytes ⟨data.u.getD [], data.r, commitment.getD []⟩ then
      some (data.u.getD [])
    else none
  | _, _ => none

/-- The entry of a sender from which a commitment and a reveal have been taken, or one of them,
or none, in either order. -/
structure Entry.Holds (E : External) (pubKeyBytes : Bytes) (entry : Entry)
    (commitment : Option (Option Bytes)) (reveal : Option RevealData) : Prop where
  commitSeen : entry.commitSeen = commitment.isSome
  revealSeen : entry.revealSeen = reveal.isSome
  stored : entry.commitment = commitment.join
  random : entry.random = revealed E pubKeyBytes commitment reveal
  pending : commitment = none ∨ reveal = none → entry.pending = reveal.getD {}

section Runs

variable {E : External} {G : DrgEnv} {pubKeyBytes : Bytes} {entry : Entry}
  {commitment : Option (Option Bytes)} {reveal : Option RevealData}

theorem DrgState.entry_empty {e : Int64} {s : Bytes} : ({} : DrgState).entry e s = {} := by
  simp [entry, hasSeenDRGMessage]

theorem Entry.holds_empty : Entry.Holds E pubKeyBytes {} none none :=
  ⟨rfl, rfl, rfl, rfl, fun _ => rfl⟩

/-- Neither a nil commitment nor a nil value verifies. -/
theorem verifyCommitment_nil (u r c : Bytes) (h : u = [] ∨ c = []) :
    verifyCommitment E pubKeyBytes ⟨u, r, c⟩ = false := by
  unfold verifyCommitment
  split
  · rfl
  · rename_i hLength
    rcases h with rfl | rfl
    · exact absurd (.inr (Nat.zero_ne_add_one 31)) hLength
    · have hSha := E.sha256_length (pubKeyBytes ++ r ++ u)
      rw [beq_eq_false_iff_ne]
      intro hNil
      rw [hNil] at hSha
      exact Nat.zero_ne_add_one 31 hSha

theorem Entry.Holds.storeCommitment (h : entry.Holds E pubKeyBytes none reveal)
    (c : Option Bytes) :
    ((entry.mark .commitment).storeCommitment E pubKeyBytes c).Holds E pubKeyBytes (some c)
      reveal := by
  have hPending : (entry.mark .commitment).pending = reveal.getD {} := h.pending (.inl rfl)
  have hRandom : entry.random = none := h.random
  unfold Entry.storeCommitment
  rw [hPending]
  cases reveal with
  | none => exact ⟨rfl, h.revealSeen, rfl, hRandom, fun _ => rfl⟩
  | some data =>
    simp only [Option.getD_some]
    cases hValue : data.u with
    | none =>
      refine ⟨rfl, h.revealSeen, rfl, ?_, fun hNone => by simp at hNone⟩
      simp only [revealed, hValue, Option.getD_none, verifyCommitment_nil _ _ _ (.inl rfl)]
      exact hRandom
    | some u =>
      by_cases hVerify : verifyCommitment E pubKeyBytes ⟨u, data.r, c.getD []⟩ = true
      · simp only [hVerify, if_true]
        refine ⟨rfl, h.revealSeen, rfl, ?_, fun hNone => by simp at hNone⟩
        simp only [revealed, hValue, Option.getD_some, hVerify, if_true]
      · simp only [hVerify, if_false, Bool.false_eq_true]
        refine ⟨rfl, h.revealSeen, rfl, ?_, fun hNone => by simp at hNone⟩
        simp only [revealed, hValue, Option.getD_some, hVerify, if_false, Bool.false_eq_true]
        exact hRandom

theorem Entry.Holds.storeReveal (h : entry.Holds E pubKeyBytes commitment none)
    (data : RevealData) :
    ((entry.mark .reveal).storeReveal E pubKeyBytes data).Holds E pubKeyBytes commitment
      (some data) := by
  have hStored : (entry.mark .reveal).commitment = commitment.join := h.stored
  have hRandom : entry.random = none := by
    rw [h.random]
    cases commitment <;> rfl
  unfold Entry.storeReveal
  rw [hStored]
  cases commitment with
  | none => exact ⟨h.commitSeen, rfl, rfl, hRandom, fun _ => rfl⟩
  | some c =>
    cases c with
    | none =>
      refine ⟨h.commitSeen, rfl, rfl, ?_, fun hNone => by simp at hNone⟩
      simp only [revealed, Option.getD_none, verifyCommitment_nil _ _ _ (.inr rfl)]
      exact hRandom
    | some c =>
      simp only [Option.join_some]
      by_cases hVerify : verifyCommitment E pubKeyBytes ⟨data.u.getD [], data.r, c⟩ = true
      · simp only [hVerify, if_true]
        refine ⟨h.commitSeen, rfl, rfl, ?_, fun hNone => by simp at hNone⟩
        simp only [revealed, Option.getD_some, hVerify, if_true]
      · simp only [hVerify, if_false, Bool.false_eq_true]
        refine ⟨h.commitSeen, rfl, h.stored, ?_, fun hNone => by simp at hNone⟩
        simp only [revealed, Option.getD_some, hVerify, if_false, Bool.false_eq_true]
        exact hRandom

/-- The public key that the text of a sender encodes. -/
def senderKey (sender : Bytes) : Bytes := okOr (hexDecodeString sender) []

theorem DrgMessage.signer_eq_some {message : DrgMessage} (h : message.signer G = some pubKeyBytes) :
    pubKeyBytes = senderKey message.sender := by
  unfold signer at h
  split at h
  · exact absurd h (by simp)
  · rename_i key hKey
    rw [senderKey, hKey]
    exact (Option.some.inj (Option.ite_none_right_eq_some.mp h).2).symm

/-- The commitment of a message with a valid signature, for one epoch and sender. -/
def DrgMessage.commitmentOf (G : DrgEnv) (epoch : Int64) (sender : Bytes) :
    DrgMessage → Option (Option Bytes)
  | .commitment msg =>
    if (epoch = msg.epoch ∧ sender = msg.sender) ∧
      ((DrgMessage.commitment msg).signer G).isSome = true then some msg.commitment else none
  | .reveal _ => none

def DrgMessage.revealOf (G : DrgEnv) (epoch : Int64) (sender : Bytes) :
    DrgMessage → Option RevealData
  | .commitment _ => none
  | .reveal msg =>
    if (epoch = msg.epoch ∧ sender = msg.sender) ∧
      ((DrgMessage.reveal msg).signer G).isSome = true then some ⟨msg.u, msg.r⟩ else none

/-- One message: what was taken first stays. -/
theorem Entry.Holds.handleDrg {d d' : DrgState} {message : DrgMessage} {err : Option DrgError}
    {e : Int64} {s : Bytes} (h : (d.entry e s).Holds G.E (senderKey s) commitment reveal)
    (hHandle : Consensus.handleDrg G message d = .ok (d', err)) :
    (d'.entry e s).Holds G.E (senderKey s) (commitment.or (message.commitmentOf G e s))
      (reveal.or (message.revealOf G e s)) := by
  rw [entry_handleDrg hHandle]
  by_cases hSame : e = message.epoch ∧ s = message.sender
  · obtain ⟨rfl, rfl⟩ := hSame
    rw [if_pos ⟨rfl, rfl⟩, Entry.receive]
    cases hSigner : message.signer G with
    | none => cases message <;> simpa [DrgMessage.commitmentOf, DrgMessage.revealOf, hSigner] using h
    | some key =>
      obtain rfl := DrgMessage.signer_eq_some hSigner
      cases message with
      | commitment msg =>
        have hTaken : (DrgMessage.commitment msg).commitmentOf G msg.epoch msg.sender =
            some msg.commitment := if_pos ⟨⟨rfl, rfl⟩, by rw [hSigner]; rfl⟩
        have hSeen : (d.entry msg.epoch msg.sender).seen .commitment = commitment.isSome :=
          h.commitSeen
        change Entry.Holds _ _ (if (d.entry msg.epoch msg.sender).seen .commitment = true then _
          else _) _ (reveal.or none)
        rw [Option.or_none, hSeen]
        cases commitment with
        | some c => exact h
        | none => exact hTaken.symm ▸ h.storeCommitment msg.commitment
      | reveal msg =>
        have hTaken : (DrgMessage.reveal msg).revealOf G msg.epoch msg.sender =
            some ⟨msg.u, msg.r⟩ := if_pos ⟨⟨rfl, rfl⟩, by rw [hSigner]; rfl⟩
        have hSeen : (d.entry msg.epoch msg.sender).seen .reveal = reveal.isSome := h.revealSeen
        change Entry.Holds _ _ (if (d.entry msg.epoch msg.sender).seen .reveal = true then _
          else _) (commitment.or none) _
        rw [Option.or_none, hSeen]
        cases reveal with
        | some data => exact h
        | none => exact hTaken.symm ▸ h.storeReveal ⟨msg.u, msg.r⟩
  · rw [if_neg hSame]
    cases message with
    | commitment msg =>
      have hOther : ¬ (e = msg.epoch ∧ s = msg.sender) := hSame
      simpa [DrgMessage.commitmentOf, DrgMessage.revealOf, hOther] using h
    | reveal msg =>
      have hOther : ¬ (e = msg.epoch ∧ s = msg.sender) := hSame
      simpa [DrgMessage.commitmentOf, DrgMessage.revealOf, hOther] using h

/-- The handlers over a list of messages. -/
def handleAll (G : DrgEnv) (messages : List DrgMessage) (d : DrgState) : Go DrgState :=
  messages.foldlM (fun d message => do
    let (d, _) ← handleDrg G message d
    pure d) d

theorem handleAll_cons {message : DrgMessage} {messages : List DrgMessage} {d d' : DrgState}
    (h : handleAll G (message :: messages) d = .ok d') :
    ∃ result, handleDrg G message d = .ok result ∧ handleAll G messages result.1 = .ok d' := by
  unfold handleAll at h
  rw [List.foldlM_cons] at h
  obtain ⟨d₁, hFirst, hRest⟩ := bind_eq_ok.mp h
  obtain ⟨result, hHandle, hSame⟩ := bind_eq_ok.mp hFirst
  obtain rfl := pure_eq_ok.mp hSame
  exact ⟨result, hHandle, hRest⟩

theorem findSome?_cons_eq_or {α β : Type} (f : α → Option β) (a : α) (as : List α) :
    (a :: as).findSome? f = (f a).or (as.findSome? f) := by
  rw [List.findSome?_cons]
  cases f a <;> rfl

/-- A run of messages: for every epoch and sender the first commitment and the first reveal with
a valid signature count, in whatever order they arrive. -/
theorem Entry.Holds.handleAll {d d' : DrgState} {messages : List DrgMessage} {e : Int64} {s : Bytes}
    (h : (d.entry e s).Holds G.E (senderKey s) commitment reveal)
    (hRun : Consensus.handleAll G messages d = .ok d') :
    (d'.entry e s).Holds G.E (senderKey s)
      (commitment.or (messages.findSome? (·.commitmentOf G e s)))
      (reveal.or (messages.findSome? (·.revealOf G e s))) := by
  induction messages generalizing d commitment reveal with
  | nil =>
    obtain rfl := pure_eq_ok.mp hRun
    simpa using h
  | cons message messages ih =>
    obtain ⟨⟨d₁, err⟩, hHandle, hRest⟩ := handleAll_cons hRun
    have hAll := ih (h.handleDrg hHandle) hRest
    rw [Option.or_assoc, Option.or_assoc] at hAll
    rwa [findSome?_cons_eq_or, findSome?_cons_eq_or]

/-- The value that a node holds for a sender after a run of messages. -/
theorem getElem?_epochRandoms_handleAll {d : DrgState} {messages : List DrgMessage}
    (hRun : handleAll G messages {} = .ok d) (e : Int64) (s : Bytes) :
    (d.epochRandoms e)[s]? = revealed G.E (senderKey s)
      (messages.findSome? (·.commitmentOf G e s)) (messages.findSome? (·.revealOf G e s)) := by
  have hStart : (({} : DrgState).entry e s).Holds G.E (senderKey s) none none :=
    DrgState.entry_empty ▸ Entry.holds_empty
  exact (hStart.handleAll hRun).random

/-- While only one of the two has been taken, an entry has no value or nothing buffered; with both
and a value nothing is buffered either. -/
theorem Entry.Holds.clear_receive {message : DrgMessage}
    (h : entry.Holds E (senderKey message.sender) commitment reveal)
    (hClear : entry.random ≠ none → entry.pending = {})
    (hRandom : (entry.receive G message).random ≠ none) :
    (entry.receive G message).pending = {} := by
  unfold Entry.receive at hRandom ⊢
  cases hSigner : message.signer G with
  | none =>
    rw [hSigner] at hRandom
    exact hClear hRandom
  | some key =>
    rw [hSigner] at hRandom
    dsimp only at hRandom ⊢
    by_cases hSeen : entry.seen message.handler = true
    · rw [if_pos hSeen] at hRandom ⊢
      exact hClear hRandom
    · rw [if_neg hSeen] at hRandom ⊢
      cases message with
      | commitment msg =>
        simp only [Entry.store, Entry.storeCommitment, Entry.mark, DrgMessage.handler] at hRandom ⊢
        cases hBuffered : entry.pending.u with
        | none =>
          simp only [hBuffered] at hRandom ⊢
          exact hClear hRandom
        | some u =>
          by_cases hVerify : verifyCommitment G.E key
              ⟨u, entry.pending.r, msg.commitment.getD []⟩ = true
          · simp only [hVerify, if_true]
          · simp only [hBuffered, hVerify, if_false, Bool.false_eq_true] at hRandom ⊢
            exact hClear hRandom
      | reveal msg =>
        -- the first reveal finds nothing buffered, and a value only behind a commitment
        have hReveal : reveal = none := by
          have hSome : entry.revealSeen = reveal.isSome := h.revealSeen
          cases reveal with
          | none => rfl
          | some data => exact absurd hSome hSeen
        subst hReveal
        have hPending : entry.pending = {} := h.pending (.inr rfl)
        have hValue : entry.random = none := by
          rw [h.random]
          cases commitment <;> rfl
        simp only [Entry.store, Entry.storeReveal, Entry.mark, DrgMessage.handler] at hRandom ⊢
        split
        · rename_i hNone
          rw [hNone] at hRandom
          exact absurd hValue hRandom
        · split
          · exact hPending
          · exact hPending

/-- With a value nothing stays buffered, along a run of messages. -/
theorem Entry.Holds.clear_handleAll {d d' : DrgState} {messages : List DrgMessage} {e : Int64}
    {s : Bytes} (h : (d.entry e s).Holds G.E (senderKey s) commitment reveal)
    (hClear : (d.entry e s).random ≠ none → (d.entry e s).pending = {})
    (hRun : Consensus.handleAll G messages d = .ok d') (hRandom : (d'.entry e s).random ≠ none) :
    (d'.entry e s).pending = {} := by
  induction messages generalizing d commitment reveal with
  | nil =>
    obtain rfl := pure_eq_ok.mp hRun
    exact hClear hRandom
  | cons message messages ih =>
    obtain ⟨⟨d₁, err⟩, hHandle, hRest⟩ := handleAll_cons hRun
    refine ih (h.handleDrg hHandle) (fun hNow => ?_) hRest
    rw [entry_handleDrg hHandle] at hNow ⊢
    by_cases hSame : e = message.epoch ∧ s = message.sender
    · obtain ⟨rfl, rfl⟩ := hSame
      rw [if_pos ⟨rfl, rfl⟩] at hNow ⊢
      exact h.clear_receive hClear hNow
    · rw [if_neg hSame] at hNow ⊢
      exact hClear hNow

/-- The handlers return for senders of at least eight characters. -/
theorem exists_handleDrg {message : DrgMessage} (hSender : 8 ≤ message.sender.length)
    (d : DrgState) : ∃ result, handleDrg G message d = .ok result := by
  have hStore (d : DrgState) (key : Bytes) : ∃ result, d.store G.E message key = .ok result := by
    cases message with
    | commitment msg => exact ⟨_, rfl⟩
    | reveal msg =>
      have hLength : ¬ msg.sender.length < 8 := Nat.not_lt.mpr hSender
      unfold DrgState.store DrgState.storeReveal
      dsimp only
      split
      · exact ⟨_, rfl⟩
      · rw [if_neg hLength]
        split <;> exact ⟨_, rfl⟩
  rw [handleDrg_eq]
  unfold handleOnce verifySender
  rw [if_neg (Nat.not_lt.mpr hSender)]
  split
  · exact ⟨_, rfl⟩
  · split
    · exact ⟨_, rfl⟩
    · split
      · exact hStore _ _
      · exact ⟨_, rfl⟩

theorem exists_handleAll {messages : List DrgMessage}
    (hSenders : ∀ message ∈ messages, 8 ≤ message.sender.length) (d : DrgState) :
    ∃ d', handleAll G messages d = .ok d' := by
  induction messages generalizing d with
  | nil => exact ⟨d, rfl⟩
  | cons message messages ih =>
    obtain ⟨result, hFirst⟩ := exists_handleDrg (hSenders message List.mem_cons_self) d
    obtain ⟨d', hRest⟩ := ih (fun m hm => hSenders m (List.mem_cons_of_mem _ hm)) result.1
    refine ⟨d', ?_⟩
    unfold handleAll at hRest ⊢
    rw [List.foldlM_cons]
    refine bind_eq_ok.mpr ⟨result.1, bind_eq_ok.mpr ⟨result, hFirst, rfl⟩, hRest⟩

end Runs

end Bdns.Consensus
