import Bdns.Lib.Along

/-!
# A register of names

What a register of names is for, without a word about how it is kept. A name has a deed: an owner,
the data published under the name, a term, and a price while it is for sale. Acts change one deed
each, and `Allowed` says when an act may be done. `replay` is the register that a list of acts
leads to, and `Lawful` says that each act was allowed when it was done.

The owner of a name that is not for sale keeps it while its term runs, whatever others do
(`Deed.Kept.step`, `Lawful.keeps`): each act on the name that could change the deed needs the owner's
signature, a price or the end of the term.
-/

namespace Bdns.Lib

/-- When a deed is active and when it has lapsed, by the present time and its expiry. Between the
two it may still be renewed. -/
structure Terms (T : Type*) where
  Active : T → T → Prop
  Lapsed : T → T → Prop
  apart : ∀ {now expiry}, Active now expiry → ¬ Lapsed now expiry

/-- What a register says of a name. The price is 0 while the name is not for sale. -/
structure Deed (Key Data T : Type*) where
  owner : Key
  data : List Data
  expiry : T
  price : Nat
  deriving DecidableEq

/-- A register of names. -/
abbrev Register (Name Key Data T : Type*) := Name → Option (Deed Key Data T)

inductive Act (Name Key Data T : Type*)
  | register (name : Name) (owner : Key) (data : List Data) (expiry : T)
  | update (name : Name) (signer : Key) (data : List Data) (expiry : T)
  | renew (name : Name) (signer : Key) (data : List Data) (expiry : T)
  | revoke (name : Name) (signer : Key) (data : List Data) (expiry : T)
  /-- A revocation that nobody signs. -/
  | lapse (name : Name) (data : List Data) (expiry : T)
  | list (name : Name) (signer : Key) (price : Nat)
  | delist (name : Name) (signer : Key)
  | buy (name : Name) (signer : Key) (limit : Nat)
  | transfer (name : Name) (signer : Key) (recipient : Key)

variable {Name Key Data T : Type*}

namespace Act

def name : Act Name Key Data T → Name
  | register name .. | update name .. | renew name .. | revoke name .. | lapse name ..
  | list name .. | delist name .. | buy name .. | transfer name .. => name

/-- The key that the act needs, if any. A registration is open to all. -/
def signer : Act Name Key Data T → Option Key
  | register .. | lapse .. => none
  | update _ signer .. | renew _ signer .. | revoke _ signer .. | list _ signer ..
  | delist _ signer | buy _ signer .. | transfer _ signer .. => some signer

/-- Who may do what with the deed of the name, and when. -/
def Allowed (terms : Terms T) (trusted : Key → Prop) (now : T) (R : Register Name Key Data T) :
    Act Name Key Data T → Prop
  | register name .. => ∀ deed, R name = some deed → terms.Lapsed now deed.expiry
  | update name signer .. =>
    ∃ deed, R name = some deed ∧ deed.owner = signer ∧ terms.Active now deed.expiry
  | renew name signer .. =>
    ∃ deed, R name = some deed ∧ trusted signer ∧ ¬ terms.Lapsed now deed.expiry
  | revoke name signer .. => ∃ deed, R name = some deed ∧ deed.owner = signer
  | lapse name .. => ∃ deed, R name = some deed ∧ ¬ terms.Active now deed.expiry
  | list name signer price =>
    ∃ deed, R name = some deed ∧ deed.owner = signer ∧ terms.Active now deed.expiry ∧ 0 < price
  | delist name signer =>
    ∃ deed, R name = some deed ∧ deed.owner = signer ∧ terms.Active now deed.expiry ∧
      0 < deed.price
  | buy name signer limit =>
    ∃ deed, R name = some deed ∧ deed.owner ≠ signer ∧ terms.Active now deed.expiry ∧
      0 < deed.price ∧ deed.price ≤ limit
  | transfer name signer _ =>
    ∃ deed, R name = some deed ∧ deed.owner = signer ∧ terms.Active now deed.expiry

/-- What an act makes of the deed of its name. A new registration keeps the price of the deed that
has lapsed, and a renewal keeps the data, unless there are none. -/
def deed (old : Option (Deed Key Data T)) : Act Name Key Data T → Option (Deed Key Data T)
  | register _ owner data expiry => some ⟨owner, data, expiry, (old.map Deed.price).getD 0⟩
  | update _ _ data expiry | revoke _ _ data expiry | lapse _ data expiry =>
    old.map fun deed => { deed with data, expiry }
  | renew _ _ data expiry =>
    old.map fun deed => { deed with data := if deed.data.isEmpty then data else deed.data, expiry }
  | list _ _ price => old.map fun deed => { deed with price }
  | delist .. => old.map fun deed => { deed with price := 0 }
  | buy _ signer _ => old.map fun deed => { deed with owner := signer, price := 0 }
  | transfer _ _ recipient => old.map fun deed => { deed with owner := recipient, price := 0 }

end Act

section Replay

variable [DecidableEq Name]

def Act.apply (R : Register Name Key Data T) (act : Act Name Key Data T) :
    Register Name Key Data T :=
  Function.update R act.name (act.deed (R act.name))

/-- The register that acts lead to, each with the time at which it was done. -/
def replay (acts : List (T × Act Name Key Data T)) : Register Name Key Data T :=
  acts.foldl (fun R e => e.2.apply R) fun _ => none

/-- Each act was allowed when it was done. -/
def Lawful (terms : Terms T) (trusted : Key → Prop) (acts : List (T × Act Name Key Data T)) : Prop :=
  Along (fun prior e => e.2.Allowed terms trusted e.1 (replay prior)) acts

theorem replay_concat (acts : List (T × Act Name Key Data T)) (e : T × Act Name Key Data T) :
    replay (acts ++ [e]) = e.2.apply (replay acts) := by
  rw [replay, List.foldl_concat]
  rfl

end Replay

/-! ## Quiet possession -/

/-- A deed that is as good as an earlier one: same owner, same data, not for sale, and active
whenever the earlier one would be. -/
structure Deed.Kept (terms : Terms T) (start deed : Deed Key Data T) : Prop where
  owner : deed.owner = start.owner
  data : deed.data = start.data
  unlisted : deed.price = 0
  active : ∀ now, terms.Active now start.expiry → terms.Active now deed.expiry

/-- An act that leaves a deed in peace: it is done while the deed is active, by somebody else, and
a renewal does not shorten the term. -/
structure Act.Leaves (terms : Terms T) (start : Deed Key Data T) (now : T)
    (act : Act Name Key Data T) : Prop where
  inTerm : terms.Active now start.expiry
  other : act.signer ≠ some start.owner
  renewal : ∀ name signer data expiry, act = .renew name signer data expiry →
    ∀ now, terms.Active now start.expiry → terms.Active now expiry

section Kept

variable {terms : Terms T} {trusted : Key → Prop} {start deed : Deed Key Data T} {now : T}
  {R : Register Name Key Data T} {act : Act Name Key Data T}

theorem Deed.Kept.step (hData : start.data ≠ []) (h : Deed.Kept terms start deed)
    (hDeed : R act.name = some deed) (hAllowed : act.Allowed terms trusted now R)
    (hLeaves : act.Leaves terms start now) :
    ∃ deed', act.deed (R act.name) = some deed' ∧ Deed.Kept terms start deed' := by
  obtain ⟨hTerm, hOther, hRenewal⟩ := hLeaves
  have hActive := h.active now hTerm
  -- the deed that the act speaks of is this one
  have hSame : ∀ {found}, R act.name = some found → found = deed := fun hFound =>
    Option.some.inj (hFound.symm.trans hDeed)
  cases act with
  | register =>
    have hLapsed := hAllowed deed hDeed
    exact absurd hLapsed (terms.apart hActive)
  | update _ signer =>
    obtain ⟨found, hFound, hOwner, -⟩ := hAllowed
    obtain rfl := hSame hFound
    exact absurd (congrArg some (hOwner.symm.trans h.owner)) hOther
  | renew name signer data expiry =>
    have hNone : deed.data.isEmpty = false := by
      rw [h.data]
      simpa using hData
    refine ⟨{ deed with expiry }, ?_, h.owner, h.data, h.unlisted,
      hRenewal name signer data expiry rfl⟩
    rw [hDeed, Act.deed, Option.map_some, hNone]
    rfl
  | revoke _ signer =>
    obtain ⟨found, hFound, hOwner⟩ := hAllowed
    obtain rfl := hSame hFound
    exact absurd (congrArg some (hOwner.symm.trans h.owner)) hOther
  | lapse =>
    obtain ⟨found, hFound, hNot⟩ := hAllowed
    obtain rfl := hSame hFound
    exact absurd hActive hNot
  | list _ signer | delist _ signer | transfer _ signer =>
    obtain ⟨found, hFound, hOwner, -⟩ := hAllowed
    obtain rfl := hSame hFound
    exact absurd (congrArg some (hOwner.symm.trans h.owner)) hOther
  | buy _ signer limit =>
    obtain ⟨found, hFound, -, -, hPrice, -⟩ := hAllowed
    obtain rfl := hSame hFound
    rw [h.unlisted] at hPrice
    exact absurd hPrice (Nat.lt_irrefl 0)

variable [DecidableEq Name]

/-- An owner who does nothing keeps an active name that is not for sale. -/
theorem Lawful.keeps {before after : List (T × Act Name Key Data T)} {name : Name}
    (hLawful : Lawful terms trusted (before ++ after)) (hStart : replay before name = some start)
    (hUnlisted : start.price = 0) (hData : start.data ≠ [])
    (hLeaves : ∀ e ∈ after, e.2.name = name → e.2.Leaves terms start e.1) :
    ∃ deed, replay (before ++ after) name = some deed ∧ Deed.Kept terms start deed := by
  induction after using List.reverseRecOn with
  | nil =>
    rw [List.append_nil]
    exact ⟨start, hStart, rfl, rfl, hUnlisted, fun _ h => h⟩
  | append_singleton after e ih =>
    rw [← List.append_assoc] at hLawful ⊢
    obtain ⟨hOld, hAllowed⟩ := along_concat.mp hLawful
    obtain ⟨deed, hDeed, hKept⟩ := ih hOld fun e' he' => hLeaves e' (List.mem_append_left _ he')
    rw [replay_concat]
    by_cases hName : e.2.name = name
    · have hHere := hLeaves e (by simp) hName
      subst hName
      obtain ⟨deed', hDeed', hKept'⟩ := hKept.step hData hDeed hAllowed hHere
      exact ⟨deed', by rw [Act.apply, Function.update_self, hDeed'], hKept'⟩
    · exact ⟨deed, by rw [Act.apply, Function.update_of_ne (Ne.symm hName), hDeed], hKept⟩

end Kept

end Bdns.Lib
