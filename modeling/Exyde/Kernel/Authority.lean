import Mathlib.Logic.Relation
import Exyde.Ipc.Channel

/-! # Authority over kernel objects

What the handle tables and the message queues are for, without tables, rings or threads:
capabilities sit in places, and moves create, copy, pass on and destroy them. Forgery,
double ownership and dangling channels are excluded here. -/

namespace Exyde.Kernel

open Function Exyde.Ipc

/-- Where a capability can be: an entry of a process's handle table, or the
slot of a queued message. -/
inductive Place where
  | entry (p : ObjId) (i : Fin handleMax)
  | slot (x : ObjId) (k : Nat)
  deriving DecidableEq

/-- The rights `sys_ipc_create` gives: READ, WRITE and TRANSFER. -/
def chanRights : UInt32 := rightRead ||| rightWrite ||| rightTransfer

def chanCap (x : ObjId) : Cap := ⟨kindChannel, chanRights, x, true⟩

def procCap (q : ObjId) : Cap := ⟨kindProcess, rightRead, q, true⟩

/-- A capability whose holder has to release the channel. -/
def Owner (c : Cap) : Prop := c.kind = kindChannel ∧ c.owns = true

/-- `live`: the channel exists. `created`: the kind and the rights an object
was created with. `active`: the process has a thread that can still run.
`inside`: the channel a thread is blocked on or resumes on. -/
structure Authority where
  cap : Place → Option Cap
  live : ObjId → Bool
  created : ObjId → Option (UInt32 × UInt32)
  active : ObjId → Bool
  inside : Tid → Option ObjId
  destroys : List ObjId

namespace Authority

variable (a : Authority)

def put (pl : Place) (c : Cap) : Authority := { a with cap := update a.cap pl (some c) }

def drop (pl : Place) : Authority := { a with cap := update a.cap pl none }

def newChannel (x : ObjId) : Authority :=
  { a with
    live := update a.live x true
    created := update a.created x (some (kindChannel, chanRights)) }

def newProcess (q : ObjId) : Authority :=
  { a with created := update a.created q (some (kindProcess, rightRead)) }

def destroy (x : ObjId) : Authority :=
  { a with
    live := update a.live x false
    destroys := x :: a.destroys
    cap := fun
      | .slot y k => if y = x then none else a.cap (.slot y k)
      | .entry p i => a.cap (.entry p i) }

/-- Nobody but entry `i` of `p` can reach channel `x` any more: no other entry
owns it or belongs to a process that can still run, no capability for it is
queued in another channel, and no thread is inside an operation on it. -/
structure Alone (p : ObjId) (i : Fin handleMax) (x : ObjId) : Prop where
  entries : ∀ q j c, a.cap (.entry q j) = some c → c.kind = kindChannel → c.object = x →
    (q = p ∧ j = i) ∨ (c.owns = false ∧ a.active q = false)
  slots : ∀ y k c, a.cap (.slot y k) = some c → c.kind = kindChannel → c.object = x → y = x
  threads : ∀ t, a.inside t ≠ some x

end Authority

/-- What may be passed on as owned, when a channel may be released, and into
which channel a table entry may go; and whether only live channels are used. -/
structure Policy where
  transfer : Cap → Prop
  release : Authority → ObjId → Fin handleMax → ObjId → Prop
  enqueue : Authority → ObjId → Fin handleMax → ObjId → Prop
  alive : Prop

inductive Move (pol : Policy) : Authority → Authority → Prop
  | create {a : Authority} (p : ObjId) (i : Fin handleMax) (x : ObjId) :
      a.cap (.entry p i) = none → a.created x = none →
      Move pol a ((a.newChannel x).put (.entry p i) (chanCap x))
  | birth {a : Authority} (q : ObjId) : (∀ i, a.cap (.entry q i) = none) →
      Move pol a { a with active := update a.active q true }
  | hold {a : Authority} (p : ObjId) (i : Fin handleMax) (q : ObjId) :
      a.cap (.entry p i) = none → a.created q = none →
      Move pol a ((a.newProcess q).put (.entry p i) (procCap q))
  | mint {a : Authority} (p : ObjId) (i : Fin handleMax) (c : Cap) :
      a.cap (.entry p i) = none → c.kind ≠ kindChannel → c.kind ≠ kindProcess →
      Move pol a (a.put (.entry p i) c)
  | share {a : Authority} (p : ObjId) (i : Fin handleMax) (c : Cap) (pl : Place) :
      a.cap (.entry p i) = some c → a.active p = true →
      c.rights &&& rightTransfer = rightTransfer → a.cap pl = none →
      Move pol a (a.put pl { c with owns := false })
  | transfer {a : Authority} (p : ObjId) (i : Fin handleMax) (c : Cap) (y : ObjId) (k : Nat) :
      a.cap (.entry p i) = some c → a.active p = true →
      c.rights &&& rightTransfer = rightTransfer → a.cap (.slot y k) = none → pol.transfer c →
      pol.enqueue a p i y →
      Move pol a ((a.put (.slot y k) { c with owns := true }).drop (.entry p i))
  | receive {a : Authority} (y : ObjId) (k : Nat) (c : Cap) (p : ObjId) (i : Fin handleMax) :
      a.cap (.slot y k) = some c → a.cap (.entry p i) = none →
      Move pol a ((a.put (.entry p i) c).drop (.slot y k))
  | drop {a : Authority} (p : ObjId) (i : Fin handleMax) (c : Cap) :
      a.cap (.entry p i) = some c → ¬ Owner c → Move pol a (a.drop (.entry p i))
  | release {a : Authority} (p : ObjId) (i : Fin handleMax) (c : Cap) :
      a.cap (.entry p i) = some c → Owner c → pol.release a p i c.object →
      Move pol a ((a.destroy c.object).drop (.entry p i))
  | retire {a : Authority} (act : ObjId → Bool) : (∀ p, act p = true → a.active p = true) →
      Move pol a { a with active := act }
  | enter {a : Authority} (t : Tid) (p : ObjId) (i : Fin handleMax) (c : Cap) :
      a.cap (.entry p i) = some c → a.active p = true → c.kind = kindChannel →
      Move pol a { a with inside := update a.inside t (some c.object) }
  | leave {a : Authority} (t : Tid) :
      Move pol a { a with inside := update a.inside t none }

abbrev Moves (pol : Policy) := Relation.ReflTransGen (Move pol)

section

variable {a : Authority} {pl pl' : Place} {c c' : Cap}

theorem cap_put (h : (a.put pl c).cap pl' = some c') :
    (pl' = pl ∧ c' = c) ∨ (pl' ≠ pl ∧ a.cap pl' = some c') := by
  by_cases hpl : pl' = pl
  · subst hpl
    simp only [Authority.put, update_self, Option.some.injEq] at h
    exact Or.inl ⟨rfl, h.symm⟩
  · simp only [Authority.put, update_of_ne hpl] at h
    exact Or.inr ⟨hpl, h⟩

theorem cap_drop (h : (a.drop pl).cap pl' = some c') : pl' ≠ pl ∧ a.cap pl' = some c' := by
  by_cases hpl : pl' = pl
  · subst hpl
    simp [Authority.drop] at h
  · simp only [Authority.drop, update_of_ne hpl] at h
    exact ⟨hpl, h⟩

theorem cap_destroy {x : ObjId} (h : (a.destroy x).cap pl = some c) :
    a.cap pl = some c ∧ ∀ k, pl ≠ .slot x k := by
  cases pl with
  | entry p i => exact ⟨h, fun k hk => by cases hk⟩
  | slot y k =>
    obtain ⟨hne, h⟩ := Option.ite_none_left_eq_some.mp h
    exact ⟨h, fun k hk => by cases hk; exact hne rfl⟩

end

section

variable {pol : Policy} {a a' : Authority} {c : Cap} {pl : Place} {x : ObjId}

/-- What a capability conveys besides its ownership. -/
def SameGrant (c c' : Cap) : Prop :=
  c.kind = c'.kind ∧ c.rights = c'.rights ∧ c.object = c'.object

/-- **Where capabilities come from.** After a move every capability is one that
was there before, a copy of one, one to a new object, or of no kernel kind. -/
theorem Move.origin (h : Move pol a a') (hc : a'.cap pl = some c) :
    (∃ pl' c', a.cap pl' = some c' ∧ SameGrant c c') ∨
      (a.created c.object = none ∧ a'.created c.object = some (c.kind, c.rights)) ∨
      (c.kind ≠ kindChannel ∧ c.kind ≠ kindProcess) := by
  have old : ∀ {pl' : Place}, a.cap pl' = some c →
      ∃ pl' c', a.cap pl' = some c' ∧ SameGrant c c' := fun h => ⟨_, c, h, rfl, rfl, rfl⟩
  cases h with
  | create p i x _ hx =>
    rcases cap_put hc with ⟨-, rfl⟩ | ⟨-, hc⟩
    · exact Or.inr (Or.inl ⟨hx, update_self ..⟩)
    · exact Or.inl (old hc)
  | hold p i q _ hq =>
    rcases cap_put hc with ⟨-, rfl⟩ | ⟨-, hc⟩
    · exact Or.inr (Or.inl ⟨hq, update_self ..⟩)
    · exact Or.inl (old hc)
  | mint p i c0 _ h1 h2 =>
    rcases cap_put hc with ⟨-, rfl⟩ | ⟨-, hc⟩
    · exact Or.inr (Or.inr ⟨h1, h2⟩)
    · exact Or.inl (old hc)
  | share p i c0 pl0 hsrc _ _ _ =>
    rcases cap_put hc with ⟨-, rfl⟩ | ⟨-, hc⟩
    · exact Or.inl ⟨_, c0, hsrc, rfl, rfl, rfl⟩
    · exact Or.inl (old hc)
  | transfer p i c0 y k hsrc _ _ _ _ _ =>
    rcases cap_put (cap_drop hc).2 with ⟨-, rfl⟩ | ⟨-, hc⟩
    · exact Or.inl ⟨_, c0, hsrc, rfl, rfl, rfl⟩
    · exact Or.inl (old hc)
  | receive y k c0 p i hsrc _ =>
    rcases cap_put (cap_drop hc).2 with ⟨-, rfl⟩ | ⟨-, hc⟩
    · exact Or.inl (old hsrc)
    · exact Or.inl (old hc)
  | drop p i c0 _ _ => exact Or.inl (old (cap_drop hc).2)
  | release p i c0 _ _ _ => exact Or.inl (old (cap_destroy (cap_drop hc).2).1)
  | birth _ _ | retire _ _ | enter _ _ _ _ _ _ _ | leave _ => exact Or.inl (old hc)

theorem Move.created_mono (h : Move pol a a') {v : UInt32 × UInt32}
    (hx : a.created x = some v) : a'.created x = some v := by
  have upd : ∀ {y : ObjId} {w : UInt32 × UInt32}, a.created y = none →
      update a.created y (some w) x = some v := by
    intro y w hy
    have hne : x ≠ y := by rintro rfl; rw [hx] at hy; cases hy
    rw [update_of_ne hne, hx]
  cases h with
  | create p i y _ hy => exact upd hy
  | hold p i q _ hq => exact upd hq
  | _ => exact hx

/-! ## No forgery -/

/-- Every capability of a kernel kind names an object created with that kind and
with those rights. -/
def Genuine (a : Authority) : Prop :=
  ∀ pl c, a.cap pl = some c → c.kind = kindChannel ∨ c.kind = kindProcess →
    a.created c.object = some (c.kind, c.rights)

theorem Move.genuine (h : Move pol a a') (hg : Genuine a) : Genuine a' := by
  intro pl c hc hkind
  rcases h.origin hc with ⟨pl', c', hc', hk, hr, ho⟩ | ⟨-, hnew⟩ | ⟨h1, h2⟩
  · rw [hk, hr, ho]
    exact h.created_mono (hg pl' c' hc' (by rwa [hk] at hkind))
  · exact hnew
  · rcases hkind with h | h
    · exact absurd h h1
    · exact absurd h h2

/-! ## Process handles -/

/-- A process handle stays where it was made: it has no TRANSFER right. -/
def ProcCaps (a : Authority) : Prop :=
  ∀ pl c, a.cap pl = some c → c.kind = kindProcess →
    c.owns = true ∧ c.rights = rightRead ∧ ∃ p i, pl = .entry p i

theorem procCap_not_transferable (hr : c.rights = rightRead)
    (ht : c.rights &&& rightTransfer = rightTransfer) : False := by
  rw [hr] at ht
  exact absurd ht (by decide)

theorem Move.procCaps (h : Move pol a a') (hp : ProcCaps a) : ProcCaps a' := by
  intro pl c hc hk
  cases h with
  | create p i x _ _ =>
    rcases cap_put hc with ⟨-, rfl⟩ | ⟨-, hc⟩
    · cases hk
    · exact hp pl c hc hk
  | hold p i q _ _ =>
    rcases cap_put hc with ⟨rfl, rfl⟩ | ⟨-, hc⟩
    · exact ⟨rfl, rfl, p, i, rfl⟩
    · exact hp pl c hc hk
  | mint p i c0 _ _ hne =>
    rcases cap_put hc with ⟨-, rfl⟩ | ⟨-, hc⟩
    · exact absurd hk hne
    · exact hp pl c hc hk
  | share p i c0 pl0 hsrc _ ht _ =>
    rcases cap_put hc with ⟨-, rfl⟩ | ⟨-, hc⟩
    · exact (procCap_not_transferable (hp _ c0 hsrc hk).2.1 ht).elim
    · exact hp pl c hc hk
  | transfer p i c0 y k hsrc _ ht _ _ _ =>
    rcases cap_put (cap_drop hc).2 with ⟨-, rfl⟩ | ⟨-, hc⟩
    · exact (procCap_not_transferable (hp _ c0 hsrc hk).2.1 ht).elim
    · exact hp pl c hc hk
  | receive y k c0 p i hsrc _ =>
    rcases cap_put (cap_drop hc).2 with ⟨-, rfl⟩ | ⟨-, hc⟩
    · obtain ⟨-, -, p', i', hpl⟩ := hp _ c hsrc hk
      cases hpl
    · exact hp pl c hc hk
  | drop p i c0 _ _ => exact hp pl c (cap_drop hc).2 hk
  | release p i c0 _ _ _ => exact hp pl c (cap_destroy (cap_drop hc).2).1 hk
  | birth _ _ | retire _ _ | enter _ _ _ _ _ _ _ | leave _ => exact hp pl c hc hk

/-! ## One owner -/

/-- No two places own one channel, and no place owns a destroyed one. -/
structure OneOwner (a : Authority) : Prop where
  unique : ∀ pl pl' c c', a.cap pl = some c → a.cap pl' = some c' → Owner c → Owner c' →
    c.object = c'.object → pl = pl'
  gone : ∀ pl c, a.cap pl = some c → Owner c → c.object ∉ a.destroys
  known : ∀ x, x ∈ a.destroys → a.created x ≠ none
  nodup : a.destroys.Nodup

theorem OneOwner.mono (h : OneOwner a)
    (hcap : ∀ pl c, a'.cap pl = some c → Owner c → a.cap pl = some c)
    (hcreated : ∀ x, a.created x ≠ none → a'.created x ≠ none)
    (hdestroys : a'.destroys = a.destroys) : OneOwner a' where
  unique pl pl' c c' hc hc' ho ho' heq :=
    h.unique pl pl' c c' (hcap pl c hc ho) (hcap pl' c' hc' ho') ho ho' heq
  gone pl c hc ho := by rw [hdestroys]; exact h.gone pl c (hcap pl c hc ho) ho
  known x hx := by rw [hdestroys] at hx; exact hcreated x (h.known x hx)
  nodup := by rw [hdestroys]; exact h.nodup

theorem OneOwner.put_other (h : OneOwner a) (hc : ¬ Owner c) : OneOwner (a.put pl c) := by
  refine h.mono ?_ (fun x hx => hx) rfl
  intro pl' c' hc' ho
  rcases cap_put hc' with ⟨-, rfl⟩ | ⟨-, hold⟩
  · exact absurd ho hc
  · exact hold

theorem OneOwner.relocate (h : OneOwner a) {src dst : Place} {c c' : Cap}
    (hsrc : a.cap src = some c) (hobj : c'.object = c.object) (howner : Owner c' → Owner c) :
    OneOwner ((a.put dst c').drop src) := by
  -- an owner afterwards is the moved one, or was there before at another place
  have split : ∀ {pl : Place} {d : Cap}, ((a.put dst c').drop src).cap pl = some d → Owner d →
      (pl = dst ∧ d.object = c.object ∧ Owner c) ∨ (pl ≠ src ∧ a.cap pl = some d) := by
    intro pl d hd ho
    obtain ⟨hne, hd⟩ := cap_drop hd
    rcases cap_put hd with ⟨rfl, rfl⟩ | ⟨-, hold⟩
    · exact Or.inl ⟨rfl, hobj, howner ho⟩
    · exact Or.inr ⟨hne, hold⟩
  refine ⟨?_, ?_, h.known, h.nodup⟩
  · intro pl pl' d d' hd hd' ho ho' heq
    rcases split hd ho with ⟨rfl, hx, hown⟩ | ⟨hne, hold⟩
    · rcases split hd' ho' with ⟨rfl, -, -⟩ | ⟨hne', hold'⟩
      · rfl
      · exact absurd (h.unique _ _ _ _ hold' hsrc ho' hown (heq.symm.trans hx)) hne'
    · rcases split hd' ho' with ⟨rfl, hx, hown⟩ | ⟨-, hold'⟩
      · exact absurd (h.unique _ _ _ _ hold hsrc ho hown (heq.trans hx)) hne
      · exact h.unique _ _ _ _ hold hold' ho ho' heq
  · intro pl d hd ho
    rcases split hd ho with ⟨-, hx, hown⟩ | ⟨-, hold⟩
    · rw [hx]; exact h.gone src c hsrc hown
    · exact h.gone pl d hold ho

/-- The policy under which ownership stays single: only an owner is passed on
as owned. -/
def OwnerPolicy (pol : Policy) : Prop := ∀ c, pol.transfer c → c.kind = kindChannel → c.owns = true

theorem Move.oneOwner (h : Move pol a a') (hpol : OwnerPolicy pol) (hg : Genuine a)
    (ho : OneOwner a) : OneOwner a' := by
  have known : ∀ {x : ObjId} {v : UInt32 × UInt32} (y : ObjId), a.created y ≠ none →
      update a.created x (some v) y ≠ none := by
    intro x v y hy
    by_cases hyx : y = x
    · subst hyx; simp
    · rwa [update_of_ne hyx]
  cases h with
  | create p i x hfree hx =>
    -- nobody knows the new object yet
    have fresh : ∀ pl c, a.cap pl = some c → Owner c → c.object ≠ x := by
      intro pl c hc hown heq
      subst heq
      have := hg pl c hc (Or.inl hown.1)
      rw [hx] at this
      cases this
    refine ⟨?_, ?_, fun y hy => known y (ho.known y hy), ho.nodup⟩
    · intro pl pl' c c' hc hc' hown hown' heq
      rcases cap_put hc with ⟨rfl, rfl⟩ | ⟨-, hold⟩
      · rcases cap_put hc' with ⟨rfl, rfl⟩ | ⟨-, hold'⟩
        · rfl
        · exact absurd heq.symm (fresh pl' c' hold' hown')
      · rcases cap_put hc' with ⟨rfl, rfl⟩ | ⟨-, hold'⟩
        · exact absurd heq (fresh pl c hold hown)
        · exact ho.unique pl pl' c c' hold hold' hown hown' heq
    · intro pl c hc hown
      rcases cap_put hc with ⟨rfl, rfl⟩ | ⟨-, hold⟩
      · exact fun hmem => ho.known x hmem hx
      · exact ho.gone pl c hold hown
  | hold p i q _ _ =>
    have hnew : OneOwner (a.newProcess q) := ho.mono (fun _ _ hc _ => hc) known rfl
    exact hnew.put_other fun hown => by cases hown.1
  | mint p i c _ hk _ => exact ho.put_other fun hown => hk hown.1
  | share p i c pl _ _ _ _ => exact ho.put_other fun hown => by cases hown.2
  | transfer p i c y k hsrc _ _ _ htr _ =>
    exact ho.relocate hsrc rfl fun hown => ⟨hown.1, hpol c htr hown.1⟩
  | receive y k c p i hsrc _ => exact ho.relocate hsrc rfl id
  | drop p i c _ _ => exact ho.mono (fun pl c hc _ => (cap_drop hc).2) (fun _ h => h) rfl
  | release p i c hc hown _ =>
    -- the entry that is released was the only owner
    have left : ∀ pl d, ((a.destroy c.object).drop (.entry p i)).cap pl = some d →
        pl ≠ .entry p i ∧ a.cap pl = some d :=
      fun pl d hd => ⟨(cap_drop hd).1, (cap_destroy (cap_drop hd).2).1⟩
    refine ⟨?_, ?_, ?_, List.nodup_cons.mpr ⟨ho.gone _ c hc hown, ho.nodup⟩⟩
    · intro pl pl' d d' hd hd' hown' hown'' heq
      exact ho.unique pl pl' d d' (left pl d hd).2 (left pl' d' hd').2 hown' hown'' heq
    · intro pl d hd hown' hmem
      obtain ⟨hne, hd⟩ := left pl d hd
      rcases List.mem_cons.mp hmem with heq | hmem
      · exact hne (ho.unique pl _ d c hd hc hown' hown heq)
      · exact ho.gone pl d hd hown' hmem
    · intro x hx
      rcases List.mem_cons.mp hx with rfl | hx
      · rw [show ((a.destroy c.object).drop (.entry p i)).created = a.created from rfl,
          hg _ c hc (Or.inl hown.1)]
        simp
      · exact ho.known x hx
  | birth _ _ | retire _ _ | enter _ _ _ _ _ _ _ | leave _ =>
    exact ho.mono (fun _ _ hc _ => hc) (fun _ h => h) rfl

/-! ## No dangling channel -/

/-- Whoever can still use a channel finds it alive. -/
structure Sound (a : Authority) : Prop where
  entries : ∀ p i c, a.cap (.entry p i) = some c → c.kind = kindChannel →
    c.owns = true ∨ a.active p = true → a.live c.object = true
  slots : ∀ y k c, a.cap (.slot y k) = some c → c.kind = kindChannel → a.live c.object = true
  threads : ∀ t x, a.inside t = some x → a.live x = true
  dead : ∀ x, x ∈ a.destroys → a.live x = false ∧ a.created x ≠ none

/-- The policy under which no channel dangles: a channel is released when nobody
else can reach it. -/
def AlonePolicy (pol : Policy) : Prop := ∀ a p i x, pol.release a p i x → a.Alone p i x

theorem Sound.mono (h : Sound a) (hcap : ∀ pl c, a'.cap pl = some c → a.cap pl = some c)
    (hactive : ∀ p, a'.active p = true → a.active p = true)
    (hinside : ∀ t x, a'.inside t = some x → a.inside t = some x)
    (hlive : a'.live = a.live) (hcreated : ∀ x, a.created x ≠ none → a'.created x ≠ none)
    (hdestroys : a'.destroys = a.destroys) : Sound a' where
  entries p i c hc hk hor := by
    rw [hlive]; exact h.entries p i c (hcap _ c hc) hk (hor.imp_right (hactive p))
  slots y k c hc hk := by rw [hlive]; exact h.slots y k c (hcap _ c hc) hk
  threads t x hx := by rw [hlive]; exact h.threads t x (hinside t x hx)
  dead x hx := by
    rw [hdestroys] at hx
    rw [hlive]
    exact ⟨(h.dead x hx).1, hcreated x (h.dead x hx).2⟩

theorem Sound.put (h : Sound a)
    (hc : c.kind = kindChannel → a.live c.object = true) : Sound (a.put pl c) where
  entries p i d hd hk hor := by
    rcases cap_put hd with ⟨-, rfl⟩ | ⟨-, hold⟩
    · exact hc hk
    · exact h.entries p i d hold hk hor
  slots y k d hd hk := by
    rcases cap_put hd with ⟨-, rfl⟩ | ⟨-, hold⟩
    · exact hc hk
    · exact h.slots y k d hold hk
  threads := h.threads
  dead := h.dead

theorem Sound.drop (h : Sound a) (pl : Place) : Sound (a.drop pl) :=
  h.mono (fun _ _ hc => (cap_drop hc).2) (fun _ hp => hp) (fun _ _ ht => ht) rfl (fun _ hx => hx) rfl

theorem Sound.newChannel (h : Sound a) (hx : a.created x = none) : Sound (a.newChannel x) := by
  have grow : ∀ y, a.live y = true → (a.newChannel x).live y = true := by
    intro y hy
    by_cases hyx : y = x
    · subst hyx; exact update_self ..
    · rw [← hy]; exact update_of_ne hyx ..
  refine ⟨fun p i c hc hk hor => grow _ (h.entries p i c hc hk hor),
    fun y k c hc hk => grow _ (h.slots y k c hc hk), fun t y hy => grow _ (h.threads t y hy), ?_⟩
  intro y hy
  obtain ⟨hdead, hknown⟩ := h.dead y hy
  have hne : y ≠ x := by rintro rfl; exact hknown hx
  simp only [Authority.newChannel, update_of_ne hne]
  exact ⟨hdead, hknown⟩

theorem Sound.destroy (h : Sound a) {p : ObjId} {i : Fin handleMax}
    (ha : a.Alone p i x) (hx : a.created x ≠ none) :
    Sound ((a.destroy x).drop (.entry p i)) := by
  have other : ∀ y, y ≠ x → a.live y = true → ((a.destroy x).drop (.entry p i)).live y = true := by
    intro y hy hl
    rw [← hl]; exact update_of_ne hy ..
  refine ⟨?_, ?_, ?_, ?_⟩
  · intro q j c hc hk hor
    obtain ⟨hne, hc⟩ := cap_drop hc
    refine other _ ?_ (h.entries q j c hc hk hor)
    intro heq
    rcases ha.entries q j c hc hk heq with ⟨rfl, rfl⟩ | ⟨ho, hq⟩
    · exact hne rfl
    · rcases hor with hor | hor
      · rw [ho] at hor; cases hor
      · have hor : a.active q = true := hor
        rw [hq] at hor; cases hor
  · intro y k c hc hk
    obtain ⟨hc, hslot⟩ := cap_destroy (cap_drop hc).2
    refine other _ ?_ (h.slots y k c hc hk)
    intro heq
    exact hslot k (by rw [ha.slots y k c hc hk heq])
  · intro t y hy
    refine other y ?_ (h.threads t y hy)
    rintro rfl
    exact ha.threads t hy
  · intro y hy
    rcases List.mem_cons.mp hy with rfl | hy
    · exact ⟨update_self .., hx⟩
    · refine ⟨?_, (h.dead y hy).2⟩
      by_cases hyx : y = x
      · subst hyx; exact update_self ..
      · rw [← (h.dead y hy).1]; exact update_of_ne hyx ..

theorem Move.sound (h : Move pol a a') (hpol : AlonePolicy pol) (hg : Genuine a) (hs : Sound a) :
    Sound a' := by
  cases h with
  | create p i x _ hx => exact (hs.newChannel hx).put fun _ => update_self ..
  | hold p i q _ hq =>
    have hnew : Sound (a.newProcess q) := by
      refine hs.mono (fun _ _ hc => hc) (fun _ hp => hp) (fun _ _ ht => ht) rfl ?_ rfl
      intro x hx
      by_cases hxq : x = q
      · subst hxq; exact absurd hq hx
      · simpa [Authority.newProcess, update_of_ne hxq] using hx
    exact hnew.put fun hk => by cases hk
  | mint p i c _ hk _ => exact hs.put fun hk' => absurd hk' hk
  | share p i c pl hsrc hact _ _ => exact hs.put fun hk => hs.entries p i c hsrc hk (Or.inr hact)
  | transfer p i c y k hsrc hact _ _ _ _ =>
    have hput : Sound (a.put (.slot y k) { c with owns := true }) :=
      hs.put fun hk => hs.entries p i c hsrc hk (Or.inr hact)
    exact hput.drop _
  | receive y k c p i hsrc _ => exact (hs.put fun hk => hs.slots y k c hsrc hk).drop _
  | drop p i c _ _ => exact hs.drop _
  | release p i c hc hown hrel =>
    refine hs.destroy (hpol a p i _ hrel) ?_
    rw [hg _ c hc (Or.inl hown.1)]
    simp
  | birth q hempty =>
    refine ⟨?_, hs.slots, hs.threads, hs.dead⟩
    intro p i c hc hk hor
    have hne : p ≠ q := by rintro rfl; rw [hempty i] at hc; cases hc
    simp only [update_of_ne hne] at hor
    exact hs.entries p i c hc hk hor
  | retire act hact => exact hs.mono (fun _ _ hc => hc) hact (fun _ _ ht => ht) rfl (fun _ hx => hx) rfl
  | enter t p i c hc hact hk =>
    refine ⟨hs.entries, hs.slots, ?_, hs.dead⟩
    intro u x hx
    by_cases hut : u = t
    · subst hut
      simp only [update_self, Option.some.injEq] at hx
      rw [← hx]
      exact hs.entries p i c hc hk (Or.inr hact)
    · simp only [update_of_ne hut] at hx
      exact hs.threads u x hx
  | leave t =>
    refine hs.mono (fun _ _ hc => hc) (fun _ hp => hp) ?_ rfl (fun _ hx => hx) rfl
    intro u x hx
    by_cases hut : u = t
    · subst hut; simp at hx
    · simpa [update_of_ne hut] using hx

/-! ## Sequences of moves -/

theorem Moves.genuine (h : Moves pol a a') (hg : Genuine a) : Genuine a' := by
  induction h with
  | refl => exact hg
  | tail _ hm ih => exact hm.genuine ih

theorem Moves.procCaps (h : Moves pol a a') (hp : ProcCaps a) : ProcCaps a' := by
  induction h with
  | refl => exact hp
  | tail _ hm ih => exact hm.procCaps ih

theorem Moves.oneOwner (h : Moves pol a a') (hpol : OwnerPolicy pol) (hg : Genuine a)
    (ho : OneOwner a) : OneOwner a' := by
  induction h with
  | refl => exact ho
  | tail hms hm ih => exact hm.oneOwner hpol (Moves.genuine hms hg) ih

theorem Moves.sound (h : Moves pol a a') (hpol : AlonePolicy pol) (hg : Genuine a)
    (hs : Sound a) : Sound a' := by
  induction h with
  | refl => exact hs
  | tail hms hm ih => exact hm.sound hpol (Moves.genuine hms hg) ih

end

end Exyde.Kernel
