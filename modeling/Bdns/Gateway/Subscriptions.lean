import Bdns.Blockchain.Block
import Bdns.Lib.FiniteMap

/-!
# Header subscriptions of a gateway

The register of `GatewayServer` (`server.go`). `SubscribeHeaders` makes a channel, registers it under
the address of the peer, and when it ends deletes what is registered under the address and closes
its own channel. `BroadcastHeader` offers a header to every registered channel. Registration and
removal take the lock, and broadcasts share it, so a run of the gateway is a series of these events.

A registered channel is open and made for the address it stands under (`Register.Sound`), so that a
broadcast never sends on a closed channel and offers a header to no channel twice
(`Register.broadcastHeader_eq`). A channel does not stay registered, however, when another
subscription from the same address starts or ends (`Register.registered_iff`).
-/

namespace Bdns.Gateway

open Lib Blockchain

/-- The channel of a subscription; it is closed when the subscription has ended. -/
structure Channel where
  clientKey : Bytes
  buffer : List BlockHeader := []
  closed : Bool := false
  deriving DecidableEq

def channelCapacity : Nat := 100

/-- A send that does not wait: a full channel drops the header. -/
def Channel.offer (header : BlockHeader) (ch : Channel) : Channel :=
  if ch.buffer.length < channelCapacity then { ch with buffer := ch.buffer ++ [header] } else ch

/-- A send on a closed channel panics. -/
inductive ChannelPanic
  | sendOnClosed
  deriving DecidableEq

/-- All channels ever made, by number, and the registered one of each address. -/
structure Register where
  channels : List Channel := []
  subscribers : Std.ExtTreeMap Bytes Nat compare := ∅

inductive SubscriptionEvent
  /-- `SubscribeHeaders` registers a new channel. -/
  | start (clientKey : Bytes)
  /-- The deferred function of a handler. -/
  | finish (id : Nat)
  /-- A handler takes a header out of its channel. -/
  | receive (id : Nat)
  | broadcast (order : RangeOrder Bytes Nat) (header : BlockHeader)

namespace Register

def start (s : Register) (clientKey : Bytes) : Register where
  channels := s.channels ++ [{ clientKey }]
  subscribers := s.subscribers.insert clientKey s.channels.length

/-- The deletion is by address, whichever channel is registered there. A handler ends once. -/
def finish (s : Register) (id : Nat) : Register :=
  match s.channels[id]? with
  | none => s
  | some ch =>
    if ch.closed then s
    else
      { channels := s.channels.modify id fun ch => { ch with closed := true }
        subscribers := s.subscribers.erase ch.clientKey }

def receive (s : Register) (id : Nat) : Register :=
  { s with channels := s.channels.modify id fun ch => { ch with buffer := ch.buffer.tail } }

/-- The body of the loop of `BroadcastHeader`. -/
def send (header : BlockHeader) (channels : List Channel) (id : Nat) :
    Except ChannelPanic (List Channel) :=
  match channels[id]? with
  | none => pure channels
  | some ch => if ch.closed then throw .sendOnClosed else pure (channels.modify id (·.offer header))

def broadcastHeader (s : Register) (order : RangeOrder Bytes Nat) (header : BlockHeader) :
    Except ChannelPanic Register := do
  let channels ← (order.run 0 s.subscribers.toList).foldlM
    (fun channels entry => send header channels entry.2) s.channels
  pure { s with channels }

def step (s : Register) : SubscriptionEvent → Except ChannelPanic Register
  | .start clientKey => pure (s.start clientKey)
  | .finish id => pure (s.finish id)
  | .receive id => pure (s.receive id)
  | .broadcast order header => s.broadcastHeader order header

/-- The register after a series of events at a new gateway. -/
def run (events : List SubscriptionEvent) : Except ChannelPanic Register :=
  events.foldlM step {}

/-! ## Registered channels -/

/-- The address and the state of a channel, without what is in it. -/
def outline (s : Register) (id : Nat) : Option (Bytes × Bool) :=
  s.channels[id]?.map fun ch => (ch.clientKey, ch.closed)

/-- Every registered channel is open and stands under its own address. -/
def Sound (s : Register) : Prop :=
  ∀ (clientKey : Bytes) (id : Nat), s.subscribers[clientKey]? = some id →
    s.outline id = some (clientKey, false)

def Registered (s : Register) (id : Nat) : Prop :=
  ∃ clientKey : Bytes, s.subscribers[clientKey]? = some id

/-- Sending to different open channels one after the other offers the header to each of them. -/
theorem foldlM_send {header : BlockHeader} {entries : List (Bytes × Nat)} {channels : List Channel}
    (hOpen : ∀ entry ∈ entries, ∀ ch, channels[entry.2]? = some ch → ch.closed = false)
    (hNodup : (entries.map Prod.snd).Nodup) :
    ∃ channels', entries.foldlM (fun channels entry => send header channels entry.2) channels =
        .ok channels' ∧
      ∀ id, channels'[id]? = channels[id]?.map fun ch =>
        if id ∈ entries.map Prod.snd then ch.offer header else ch := by
  induction entries generalizing channels with
  | nil => exact ⟨channels, rfl, fun id => by simp⟩
  | cons entry entries ih =>
    rw [List.map_cons, List.nodup_cons] at hNodup
    have hSend : send header channels entry.2 = .ok (channels.modify entry.2 (·.offer header)) := by
      unfold send
      cases hCh : channels[entry.2]? with
      | none =>
        have hBeyond : channels.length ≤ entry.2 := List.getElem?_eq_none_iff.mp hCh
        rw [List.modify_eq_self hBeyond]
        rfl
      | some ch =>
        dsimp only
        rw [hOpen entry List.mem_cons_self ch hCh]
        rfl
    have hElse {id : Nat} (hId : id ≠ entry.2) :
        (channels.modify entry.2 (·.offer header))[id]? = channels[id]? :=
      List.getElem?_modify_ne _ _ hId.symm
    obtain ⟨channels', hRun, hGet⟩ := @ih (channels.modify entry.2 (·.offer header))
      (fun entry' hMem ch hCh => by
        have hId : entry'.2 ≠ entry.2 := fun h =>
          hNodup.1 (h ▸ List.mem_map_of_mem hMem)
        rw [hElse hId] at hCh
        exact hOpen entry' (List.mem_cons_of_mem _ hMem) ch hCh) hNodup.2
    refine ⟨channels', ?_, fun id => ?_⟩
    · rw [List.foldlM_cons, hSend]
      exact hRun
    · rw [hGet id]
      by_cases hId : id = entry.2
      · subst hId
        rw [List.getElem?_modify_eq, Option.map_eq_map, Option.map_map]
        congr 1
        funext ch
        rw [Function.comp_apply, if_neg hNodup.1, if_pos (by simp)]
      · rw [hElse hId]
        simp only [List.map_cons, List.mem_cons, hId, false_or]

/-- A broadcast offers the header to the registered channels, once each, and changes nothing
else. -/
theorem Sound.broadcastHeader {s : Register} (hSound : s.Sound) (order : RangeOrder Bytes Nat)
    (header : BlockHeader) :
    ∃ s', s.broadcastHeader order header = .ok s' ∧ s'.subscribers = s.subscribers ∧
      ∀ id, (s.Registered id → s'.channels[id]? = s.channels[id]?.map (Channel.offer header)) ∧
        (¬ s.Registered id → s'.channels[id]? = s.channels[id]?) := by
  have hPerm := order.perm 0 s.subscribers.toList
  have hEntry {entry : Bytes × Nat} (h : entry ∈ order.run 0 s.subscribers.toList) :
      s.subscribers[entry.1]? = some entry.2 :=
    Std.ExtTreeMap.mem_toList_iff_getElem?_eq_some.mp (hPerm.mem_iff.mp h)
  have hMem {id : Nat} :
      id ∈ (order.run 0 s.subscribers.toList).map Prod.snd ↔ s.Registered id := by
    rw [List.mem_map]
    constructor
    · rintro ⟨entry, h, rfl⟩
      exact ⟨entry.1, hEntry h⟩
    · rintro ⟨clientKey, h⟩
      exact ⟨(clientKey, id), hPerm.mem_iff.mpr
        (Std.ExtTreeMap.mem_toList_iff_getElem?_eq_some.mpr h), rfl⟩
  have hNodup : ((order.run 0 s.subscribers.toList).map Prod.snd).Nodup := by
    refine List.Nodup.map_on (fun a ha b hb hSame => ?_) (hPerm.nodup_iff.mpr (toList_nodup _))
    -- two addresses of one channel are both the address it was made for
    have hFirst := hSound _ _ (hEntry ha)
    rw [hSame, hSound _ _ (hEntry hb)] at hFirst
    exact Prod.ext (Prod.mk.inj (Option.some.inj hFirst)).1.symm hSame
  have hOpen : ∀ entry ∈ order.run 0 s.subscribers.toList, ∀ ch,
      s.channels[entry.2]? = some ch → ch.closed = false := by
    intro entry h ch hCh
    have hOutline := hSound _ _ (hEntry h)
    rw [outline, hCh] at hOutline
    exact (Prod.mk.inj (Option.some.inj hOutline)).2
  obtain ⟨channels', hRun, hGet⟩ := @foldlM_send header _ _ hOpen hNodup
  refine ⟨{ s with channels := channels' }, bind_eq_ok.mpr ⟨_, hRun, rfl⟩, rfl, fun id => ?_⟩
  constructor
  · intro hRegistered
    simpa only [hMem.mpr hRegistered, if_true] using hGet id
  · intro hRegistered
    simpa only [mt hMem.mp hRegistered, if_false, Option.map_id'] using hGet id

/-! ## Events -/

section Events

variable {s s' : Register} {id : Nat}

theorem outline_start (s : Register) (clientKey : Bytes) (id : Nat) :
    (s.start clientKey).outline id =
      if id = s.channels.length then some (clientKey, false) else s.outline id := by
  unfold outline start
  rw [List.getElem?_append]
  split
  · rw [if_neg (by omega)]
  · by_cases hId : id = s.channels.length
    · subst hId
      simp
    · rw [if_neg hId, List.getElem?_eq_none (by simp; omega), List.getElem?_eq_none (by omega)]

theorem outline_receive (s : Register) (id' id : Nat) :
    (s.receive id').outline id = s.outline id := by
  unfold outline receive
  rw [List.getElem?_modify, Option.map_eq_map, Option.map_map]
  congr 1
  funext ch
  dsimp only [Function.comp]
  split <;> rfl

theorem outline_broadcastHeader {order : RangeOrder Bytes Nat} {header : BlockHeader}
    (hSound : s.Sound) (h : s.broadcastHeader order header = .ok s') :
    s'.outline id = s.outline id ∧ s'.subscribers = s.subscribers := by
  obtain ⟨s₁, hRun, hSubscribers, hChannels⟩ := hSound.broadcastHeader order header
  obtain rfl := Except.ok.inj (hRun.symm.trans h)
  refine ⟨?_, hSubscribers⟩
  unfold outline
  by_cases hRegistered : s.Registered id
  · rw [(hChannels id).1 hRegistered, Option.map_map]
    congr 1
    funext ch
    dsimp only [Function.comp, Channel.offer]
    split <;> rfl
  · rw [(hChannels id).2 hRegistered]

/-- A handler that ends closes its channel and clears its address. -/
theorem finish_of_open {id' : Nat} {clientKey : Bytes}
    (hOpen : s.outline id' = some (clientKey, false)) :
    (s.finish id').outline id = (if id = id' then some (clientKey, true) else s.outline id) ∧
      (s.finish id').subscribers = s.subscribers.erase clientKey := by
  unfold outline at hOpen ⊢
  unfold finish
  cases hCh : s.channels[id']? with
  | none => exact absurd hOpen (by simp [hCh])
  | some ch =>
    rw [hCh] at hOpen
    obtain ⟨rfl, hClosed⟩ := Prod.mk.inj (Option.some.inj hOpen)
    dsimp only
    rw [hClosed]
    refine ⟨?_, rfl⟩
    by_cases hId : id = id'
    · subst hId
      rw [if_pos rfl, if_neg (by simp), List.getElem?_modify_eq, hCh]
      rfl
    · rw [if_neg hId, if_neg (by simp), List.getElem?_modify_ne _ _ (Ne.symm hId)]

theorem finish_of_not_open {id' : Nat} (hOpen : ∀ clientKey, s.outline id' ≠ some (clientKey, false)) :
    s.finish id' = s := by
  unfold outline at hOpen
  unfold finish
  cases hCh : s.channels[id']? with
  | none => rfl
  | some ch =>
    dsimp only
    rw [if_pos]
    by_contra hClosed
    exact hOpen ch.clientKey (by rw [hCh, Option.map_some, Bool.eq_false_of_not_eq_true hClosed])

/-- One step keeps every registered channel open and under its address. -/
theorem Sound.step {e : SubscriptionEvent} (hSound : s.Sound) (hStep : s.step e = .ok s') :
    s'.Sound := by
  intro clientKey id hEntry
  cases e with
  | start clientKey' =>
    obtain rfl := pure_eq_ok.mp hStep
    rw [outline_start]
    change (s.subscribers.insert clientKey' s.channels.length)[clientKey]? = some id at hEntry
    rw [getElem?_insert_eq_ite] at hEntry
    split at hEntry
    · rename_i hKey
      rw [if_pos (Option.some.inj hEntry).symm, hKey]
    · have hOld := hSound clientKey id hEntry
      rwa [if_neg]
      rintro rfl
      simp [outline] at hOld
  | finish id' =>
    obtain rfl := pure_eq_ok.mp hStep
    by_cases hOpen : ∃ clientKey', s.outline id' = some (clientKey', false)
    · obtain ⟨clientKey', hOpen⟩ := hOpen
      obtain ⟨hOutline, hSubscribers⟩ := @finish_of_open s id id' clientKey' hOpen
      rw [hSubscribers, getElem?_erase_eq_ite] at hEntry
      split at hEntry
      · exact absurd hEntry (by simp)
      · rename_i hKey
        have hOld := hSound clientKey id hEntry
        rw [hOutline, if_neg, hOld]
        rintro rfl
        exact hKey (Prod.mk.inj (Option.some.inj (hOpen.symm.trans hOld))).1
    · rw [finish_of_not_open fun clientKey' h => hOpen ⟨clientKey', h⟩] at hEntry ⊢
      exact hSound clientKey id hEntry
  | receive id' =>
    obtain rfl := pure_eq_ok.mp hStep
    rw [outline_receive]
    exact hSound clientKey id hEntry
  | broadcast order header =>
    obtain ⟨hOutline, hSubscribers⟩ := @outline_broadcastHeader s s' id order header hSound hStep
    rw [hSubscribers] at hEntry
    rw [hOutline]
    exact hSound clientKey id hEntry

/-- No event fails. -/
theorem Sound.exists_step (hSound : s.Sound) (e : SubscriptionEvent) : ∃ s', s.step e = .ok s' := by
  cases e with
  | broadcast order header =>
    obtain ⟨s', hRun, -⟩ := hSound.broadcastHeader order header
    exact ⟨s', hRun⟩
  | _ => exact ⟨_, rfl⟩

/-- A channel keeps its address. -/
theorem outline_step {e : SubscriptionEvent} {clientKey : Bytes} {closed : Bool}
    (hSound : s.Sound) (hStep : s.step e = .ok s')
    (hOutline : s.outline id = some (clientKey, closed)) :
    ∃ closed', s'.outline id = some (clientKey, closed') := by
  cases e with
  | start clientKey' =>
    obtain rfl := pure_eq_ok.mp hStep
    refine ⟨closed, ?_⟩
    rw [outline_start, if_neg, hOutline]
    rintro rfl
    simp [outline] at hOutline
  | finish id' =>
    obtain rfl := pure_eq_ok.mp hStep
    by_cases hOpen : ∃ clientKey', s.outline id' = some (clientKey', false)
    · obtain ⟨clientKey', hOpen⟩ := hOpen
      rw [(@finish_of_open s id id' clientKey' hOpen).1]
      split
      · rename_i hId
        subst hId
        obtain ⟨rfl, -⟩ := Prod.mk.inj (Option.some.inj (hOpen.symm.trans hOutline))
        exact ⟨true, rfl⟩
      · exact ⟨closed, hOutline⟩
    · rw [finish_of_not_open fun clientKey' h => hOpen ⟨clientKey', h⟩]
      exact ⟨closed, hOutline⟩
  | receive id' =>
    obtain rfl := pure_eq_ok.mp hStep
    exact ⟨closed, (outline_receive s id' id).trans hOutline⟩
  | broadcast order header =>
    exact ⟨closed, (outline_broadcastHeader hSound hStep).1.trans hOutline⟩

end Events

/-! ## Runs -/

theorem run_append (events : List SubscriptionEvent) (e : SubscriptionEvent) :
    run (events ++ [e]) = run events >>= (·.step e) := by
  simp [run, List.foldlM_append]

/-- Every run goes through, and ends in a sound register. -/
theorem exists_run (events : List SubscriptionEvent) : ∃ s, run events = .ok s ∧ s.Sound := by
  induction events using List.reverseRecOn with
  | nil => exact ⟨{}, rfl, fun _ _ h => by simp at h⟩
  | append_singleton events e ih =>
    obtain ⟨s, hRun, hSound⟩ := ih
    obtain ⟨s', hStep⟩ := hSound.exists_step e
    exact ⟨s', by rw [run_append, hRun]; exact hStep, hSound.step hStep⟩

/-- Another subscription from an address starts or ends. -/
def Disturbs (s : Register) (id : Nat) (clientKey : Bytes) : SubscriptionEvent → Prop
  | .start clientKey' => clientKey' = clientKey
  | .finish id' => id' ≠ id ∧ s.outline id' = some (clientKey, false)
  | .receive _ => False
  | .broadcast _ _ => False

/-- Since the subscription with a number started, no other one from its address has started or
ended. -/
def Undisturbed (events : List SubscriptionEvent) (id : Nat) : Prop :=
  ∀ before e after s clientKey closed, events = before ++ e :: after → run before = .ok s →
    s.outline id = some (clientKey, closed) → ¬ s.Disturbs id clientKey e

theorem undisturbed_append {events : List SubscriptionEvent} {e : SubscriptionEvent} {s : Register}
    {id : Nat} (hRun : run events = .ok s) :
    Undisturbed (events ++ [e]) id ↔ Undisturbed events id ∧
      ∀ clientKey closed, s.outline id = some (clientKey, closed) → ¬ s.Disturbs id clientKey e := by
  constructor
  · intro h
    refine ⟨fun before e' after s' clientKey closed hEvents => ?_, fun clientKey closed => ?_⟩
    · exact h before e' (after ++ [e]) s' clientKey closed (by rw [hEvents]; simp)
    · exact h events e [] s clientKey closed rfl hRun
  · rintro ⟨hBefore, hLast⟩ before e' after s' clientKey closed hEvents hRun'
    rcases List.eq_nil_or_concat after with rfl | ⟨after', last, rfl⟩
    · obtain ⟨rfl, hSame⟩ := List.append_inj' hEvents rfl
      obtain rfl := List.head_eq_of_cons_eq hSame
      obtain rfl := Except.ok.inj (hRun.symm.trans hRun')
      exact hLast clientKey closed
    · have hSplit : events ++ [e] = (before ++ e' :: after') ++ [last] := by
        rw [hEvents]
        simp
      exact hBefore before e' after' s' clientKey closed (List.append_inj' hSplit rfl).1 hRun'

/-- The last event of a run. -/
theorem exists_of_run_append {events : List SubscriptionEvent} {e : SubscriptionEvent}
    {s : Register} (hRun : run (events ++ [e]) = .ok s) :
    ∃ s₀, run events = .ok s₀ ∧ s₀.Sound ∧ s₀.step e = .ok s := by
  rw [run_append] at hRun
  obtain ⟨s₀, hBefore, hStep⟩ := bind_eq_ok.mp hRun
  obtain ⟨s₁, hAgain, hSound⟩ := exists_run events
  obtain rfl := Except.ok.inj (hBefore.symm.trans hAgain)
  exact ⟨s₀, hBefore, hSound, hStep⟩

theorem undisturbed_of_unused {events : List SubscriptionEvent} {s : Register} {id : Nat}
    (hRun : run events = .ok s) (hUnused : s.outline id = none) : Undisturbed events id := by
  induction events using List.reverseRecOn generalizing s with
  | nil => exact fun before e after _ _ _ h => by simp at h
  | append_singleton events e ih =>
    obtain ⟨s₀, hBefore, hSound, hStep⟩ := exists_of_run_append hRun
    have hUnused₀ : s₀.outline id = none := by
      by_contra hUsed
      obtain ⟨⟨clientKey, closed⟩, hOutline⟩ := Option.ne_none_iff_exists'.mp hUsed
      obtain ⟨closed', hStays⟩ := outline_step hSound hStep hOutline
      exact absurd (hUnused.symm.trans hStays) (by simp)
    refine (undisturbed_append hBefore).mpr ⟨ih hBefore hUnused₀, fun _ _ hOutline => ?_⟩
    exact absurd (hUnused₀.symm.trans hOutline) (by simp)

/-- An open channel is registered exactly if nothing has disturbed its subscription. -/
theorem registered_iff {events : List SubscriptionEvent} {s : Register} {id : Nat}
    {clientKey : Bytes} (hRun : run events = .ok s)
    (hOpen : s.outline id = some (clientKey, false)) :
    s.subscribers[clientKey]? = some id ↔ Undisturbed events id := by
  induction events using List.reverseRecOn generalizing s with
  | nil =>
    obtain rfl := pure_eq_ok.mp hRun
    exact absurd hOpen (by simp [outline])
  | append_singleton events e ih =>
    obtain ⟨s₀, hBefore, hSound, hStep⟩ := exists_of_run_append hRun
    rw [undisturbed_append hBefore]
    cases e with
    | start clientKey' =>
      obtain rfl := pure_eq_ok.mp hStep
      rw [outline_start] at hOpen
      change (s₀.subscribers.insert clientKey' s₀.channels.length)[clientKey]? = some id ↔ _
      rw [getElem?_insert_eq_ite]
      split at hOpen
      · rename_i hNew
        obtain ⟨rfl, -⟩ := Prod.mk.inj (Option.some.inj hOpen)
        have hUnused : s₀.outline id = none := by simp [outline, hNew]
        rw [if_pos rfl, hNew]
        refine ⟨fun _ => ⟨undisturbed_of_unused hBefore (hNew ▸ hUnused), ?_⟩, fun _ => rfl⟩
        exact fun _ _ hOutline => absurd ((hNew ▸ hUnused).symm.trans hOutline) (by simp)
      · rename_i hOld
        rw [← ih hBefore hOpen]
        by_cases hKey : clientKey' = clientKey
        · rw [if_pos hKey]
          refine ⟨fun h => absurd (Option.some.inj h).symm hOld, fun h => ?_⟩
          exact absurd hKey (h.2 clientKey false hOpen)
        · rw [if_neg hKey]
          refine ⟨fun h => ⟨h, fun clientKey₁ closed hOutline hSame => ?_⟩, And.left⟩
          obtain ⟨rfl, -⟩ := Prod.mk.inj (Option.some.inj (hOpen.symm.trans hOutline))
          exact hKey hSame
    | finish id' =>
      obtain rfl := pure_eq_ok.mp hStep
      by_cases hEnds : ∃ clientKey', s₀.outline id' = some (clientKey', false)
      · obtain ⟨clientKey', hEnds⟩ := hEnds
        obtain ⟨hOutline, hSubscribers⟩ := @finish_of_open s₀ id id' clientKey' hEnds
        rw [hOutline] at hOpen
        split at hOpen
        · exact absurd hOpen (by simp)
        · rename_i hOther
          rw [hSubscribers, getElem?_erase_eq_ite, ← ih hBefore hOpen]
          by_cases hKey : clientKey' = clientKey
          · subst hKey
            rw [if_pos rfl]
            refine ⟨fun h => absurd h (by simp), fun h => ?_⟩
            exact absurd ⟨Ne.symm hOther, hEnds⟩ (h.2 clientKey' false hOpen)
          · rw [if_neg hKey]
            refine ⟨fun h => ⟨h, fun clientKey₁ closed hSame hDisturbs => ?_⟩, And.left⟩
            obtain ⟨rfl, -⟩ := Prod.mk.inj (Option.some.inj (hOpen.symm.trans hSame))
            exact hKey (Prod.mk.inj (Option.some.inj (hEnds.symm.trans hDisturbs.2))).1
      · rw [finish_of_not_open fun clientKey' h => hEnds ⟨clientKey', h⟩] at hOpen ⊢
        rw [← ih hBefore hOpen]
        exact ⟨fun h => ⟨h, fun clientKey₁ _ _ hDisturbs => hEnds ⟨clientKey₁, hDisturbs.2⟩⟩,
          And.left⟩
    | receive id' =>
      obtain rfl := pure_eq_ok.mp hStep
      rw [outline_receive] at hOpen
      rw [← ih hBefore hOpen]
      exact ⟨fun h => ⟨h, fun _ _ _ hDisturbs => hDisturbs⟩, And.left⟩
    | broadcast order header =>
      obtain ⟨hOutline, hSubscribers⟩ := @outline_broadcastHeader s₀ s id order header hSound hStep
      rw [hOutline] at hOpen
      rw [hSubscribers, ← ih hBefore hOpen]
      exact ⟨fun h => ⟨h, fun _ _ _ hDisturbs => hDisturbs⟩, And.left⟩

/-- **When a subscription gets a header.** After any events, a broadcast goes through. An active
subscription with room in its channel gets the header, once, exactly if no other subscription from
its address has started or ended since its own start. -/
theorem broadcast_reaches_iff (events : List SubscriptionEvent) :
    ∃ s, run events = .ok s ∧ ∀ order header, ∃ s', s.broadcastHeader order header = .ok s' ∧
      ∀ (id : Nat) (ch : Channel), s.channels[id]? = some ch → ch.closed = false →
        ch.buffer.length < channelCapacity →
        (s'.channels[id]? = some { ch with buffer := ch.buffer ++ [header] } ↔
          Undisturbed events id) := by
  obtain ⟨s, hRun, hSound⟩ := exists_run events
  refine ⟨s, hRun, fun order header => ?_⟩
  obtain ⟨s', hBroadcast, -, hChannels⟩ := hSound.broadcastHeader order header
  refine ⟨s', hBroadcast, fun id ch hCh hOpen hRoom => ?_⟩
  have hOutline : s.outline id = some (ch.clientKey, false) := by
    rw [outline, hCh, Option.map_some, hOpen]
  rw [← registered_iff hRun hOutline]
  constructor
  · intro hGot
    by_contra hOther
    have hUnregistered : ¬ s.Registered id := by
      rintro ⟨clientKey, hEntry⟩
      obtain ⟨rfl, -⟩ := Prod.mk.inj (Option.some.inj
        (hOutline.symm.trans (hSound clientKey id hEntry)))
      exact hOther hEntry
    rw [(hChannels id).2 hUnregistered, hCh] at hGot
    have hBuffer := congrArg Channel.buffer (Option.some.inj hGot)
    simp at hBuffer
  · intro hEntry
    rw [(hChannels id).1 ⟨ch.clientKey, hEntry⟩, hCh, Option.map_some, Channel.offer, if_pos hRoom]

/-- Two subscriptions from one address. While both are active only the second one gets a header;
when the first one ends, the second one, still active and with an empty channel, gets none. -/
theorem broadcast_misses_active :
    ((run [.start [1], .start [1]] >>= (·.broadcastHeader (.ascending _ _)
        ⟨7, 0, [], [], [], []⟩)).map
          fun s => s.channels.map fun ch => (ch.closed, ch.buffer.length)) =
        .ok [(false, 0), (false, 1)] ∧
      ((run [.start [1], .start [1], .finish 0] >>= (·.broadcastHeader (.ascending _ _)
        ⟨7, 0, [], [], [], []⟩)).map
          fun s => s.channels.map fun ch => (ch.closed, ch.buffer.length)) =
        .ok [(true, 0), (false, 0)] := by
  decide +kernel

end Register

end Bdns.Gateway
