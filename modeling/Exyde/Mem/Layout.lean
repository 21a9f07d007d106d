import Exyde.Lib.Forest
import Exyde.Mem.Loader
import Exyde.Mem.PmmSpec

/-! # Where the pages are

The page tables of all spaces, read as a forest: the place of a page is a space and the
indices that lead to it, the last one first. Entry 0 of a user space's root is the
kernel's. `Layout` is the invariant on which isolation rests; `Twin` relates states that
differ only in pages that are no tables. -/

namespace Exyde.Mem

open Function List Option State
open Exyde.Lib (Forest)

abbrev Path := List (Fin 512)

/-- Entry `i` at a place belongs to the space: of the roots, the kernel's has
only entry 0, the others all but entry 0. -/
def Opens (r : Nat) (p : Path) (i : Fin 512) : Prop := p = [] → (r = 0 ↔ i = 0)

/-- The frame that a word leads to as entry `i` of the table at a place. -/
def childOf (r : Nat) (p : Path) (i : Fin 512) (e : Word) : Option Nat :=
  if present e ∧ p.length < 4 ∧ (p.length < 3 → huge e = false) ∧ (p = [] → r ≠ 0 → i ≠ 0) then
    some (pteAddr e / 4096)
  else none

/-- The pages fewer than `d` levels below the roots, and those right below them. -/
def State.forestTo (d : Nat) (s : State) : Forest Nat (Fin 512) Nat where
  root r := (s.space r).map fun space => space.pml4 / 4096
  child r p f i := if p.length < d then childOf r p i (s.mem f i) else none

abbrev State.forest (s : State) : Forest Nat (Fin 512) Nat := s.forestTo 4

abbrev State.node (s : State) (r : Nat) (p : Path) : Option Nat := s.forest.node r p

def vaPath (va : Nat) : Path := [idxPt va, idxPd va, idxPdpt va, idxPml4 va]

def State.IsTable (s : State) (f : Nat) : Prop := ∃ r p, s.node r p = some f ∧ p.length < 4

/-- What the tables depend on of a space: all but its reference count. -/
def Space.shape (space : Space) : Nat × Bool := (space.pml4, space.isKernel)

/-! ## Entries and places -/

variable {i : Fin 512} {p : Path} {r : Nat} {e : Word}

theorem childOf_absent (h : present e = false) : childOf r p i e = none := by
  simp [childOf, h]

theorem childOf_deep (h : 4 ≤ p.length) : childOf r p i e = none := by
  simp [childOf, Nat.not_lt.mpr h]

theorem childOf_some {c : Nat}
    (h : childOf r p i e = some c) :
    present e = true ∧ p.length < 4 ∧ (p.length < 3 → huge e = false) ∧ pteAddr e = c * 4096 := by
  unfold childOf at h
  split at h
  next hc =>
    cases h
    exact ⟨hc.1, hc.2.1, hc.2.2.1, (pteAddr_aligned e).symm⟩
  · cases h

theorem childOf_open (hp : p.length < 4)
    (hi : Opens r p i) (he : present e = true) (hh : p.length < 3 → huge e = false) :
    childOf r p i e = some (pteAddr e / 4096) :=
  if_pos ⟨he, hp, hh, fun h0 hr hi0 => hr ((hi h0).mpr hi0)⟩

theorem childOf_pteFor {c : Nat} {bits : Word}
    (hp : p.length < 4) (hi : Opens r p i) (hc : c < 2 ^ 40) (hb : LowBits bits) :
    childOf r p i (pteFor (c * 4096) bits) = some c := by
  rw [childOf_open hp hi (present_pteFor hb) fun _ => huge_pteFor hb, pteAddr_pteFor hc hb,
    Nat.mul_div_cancel _ (by decide)]

namespace State

variable {s t : State} {r : Nat} {p : Path} {i : Fin 512} {f c : Nat}

theorem forestTo_child (d : Nat) (s : State) (r : Nat) (p : Path) (f : Nat) (i : Fin 512) :
    (s.forestTo d).child r p f i = if p.length < d then childOf r p i (s.mem f i) else none := rfl

@[simp] theorem forest_child (s : State) (r : Nat) (p : Path) (f : Nat) (i : Fin 512) :
    s.forest.child r p f i = childOf r p i (s.mem f i) := by
  rw [forestTo_child]
  split
  · rfl
  next hp => rw [childOf_deep (Nat.le_of_not_lt hp)]

theorem node_root {space : Space} (h : s.space r = some space) :
    s.node r [] = some (space.pml4 / 4096) := by
  change (s.space r).map _ = _
  rw [h, map_some]

theorem node_cons_of (h : s.node r p = some f) : s.node r (i :: p) = childOf r p i (s.mem f i) :=
  (Forest.node_cons_of h i).trans (forest_child ..)

theorem node_cons_some (h : s.node r (i :: p) = some c) :
    ∃ f, s.node r p = some f ∧ childOf r p i (s.mem f i) = some c := by
  obtain ⟨f, hf, hc⟩ := Forest.node_cons_eq_some.mp h
  exact ⟨f, hf, (forest_child ..).symm.trans hc⟩

theorem node_cons_none (h : s.node r p = none) (i : Fin 512) : s.node r (i :: p) = none := by
  change (s.node r p).bind _ = none
  rw [h, bind_none]

theorem forestTo_congr {d : Nat}
    (hspace : ∀ r, (t.space r).map Space.shape = (s.space r).map Space.shape)
    (hmem : ∀ {r p f}, (s.forestTo d).node r p = some f → p.length < d → t.mem f = s.mem f)
    (r : Nat) (p : Path) : (t.forestTo d).node r p = (s.forestTo d).node r p := by
  apply Forest.node_congr
  · intro r
    have hroot := congrArg (Option.map fun x : Nat × Bool => x.1 / 4096) (hspace r)
    rwa [Option.map_map, Option.map_map] at hroot
  · intro r p f hf i
    rw [forestTo_child, forestTo_child]
    split
    next hp => rw [hmem hf hp]
    · rfl

end State

/-! ## The invariant -/

def State.kroot (s : State) : Nat := s.pml4Of vmmKernelSpace / 4096

/-- What every walk relies on: whose the entries of the roots are. -/
structure Rooted (s : State) : Prop where
  kernel : ∃ space, s.space 0 = some space
  /-- All roots have the kernel's entry 0. -/
  shared : ∀ {r f}, s.node r [] = some f → s.mem f 0 = s.mem s.kroot 0
  /-- The kernel has mappings under entry 0 only. -/
  kernelTop : ∀ {i}, i ≠ 0 → present (s.mem s.kroot i) = false

theorem Rooted.kroot_node {s : State} (h : Rooted s) : s.node 0 [] = some s.kroot := by
  obtain ⟨space, hs⟩ := h.kernel
  rw [node_root hs, kroot, pml4Of, vmmKernelSpace, hs]
  rfl

/-- What both invariants say, the layout of all pages and that of the tables alone. -/
structure Housed (d : Nat) (s : State) : Prop extends rooted : Rooted s where
  entered : present (s.mem s.kroot 0) = true
  /-- No frame is at two places. -/
  distinct : (s.forestTo d).Distinct
  /-- What has a place is not free. -/
  held : ∀ {r p f}, (s.forestTo d).node r p = some f → ¬ s.pmm.Free f
  nonzero : ∀ {r p f}, (s.forestTo d).node r p = some f → f ≠ 0
  total : s.pmm.totalPages ≤ 2 ^ 18
  aligned : ∀ {r space}, s.space r = some space → space.pml4 / 4096 * 4096 = space.pml4
  kind : ∀ {r space}, s.space r = some space → (space.isKernel = true ↔ r = 0)
  numbered : ∀ {r}, s.nextSpace ≤ r → s.space r = none

structure Layout (s : State) : Prop extends Housed 4 s where
  wf : s.pmm.Wf
  /-- The pages of user spaces came from the allocator. -/
  drawn : ∀ {r p f}, r ≠ 0 → s.node r p = some f → s.pmm.Fit f
  /-- The identity map: address 0 is under a huge entry. -/
  identity : ∃ pd, s.node 0 [0, 0] = some pd ∧ present (s.mem pd 0) = true ∧ huge (s.mem pd 0) = true
  /-- User tables have no huge entries. -/
  noHuge : ∀ {r p f i}, r ≠ 0 → s.node r p = some f → p.length < 4 → Opens r p i →
    present (s.mem f i) = true → huge (s.mem f i) = false

namespace Layout

variable {s s' : State} {r : Nat} {p : Path} {i : Fin 512} {f c : Nat}

theorem kroot_node (h : Layout s) : s.node 0 [] = some s.kroot := h.rooted.kroot_node

theorem unplaced_of_free (h : Layout s) (hf : s.pmm.Free f) : s.forest.Unplaced f :=
  fun _ _ hn => h.held hn hf

theorem not_table_of_leaf (h : Layout s) (hp : p.length = 4) (hn : s.node r p = some f) :
    ¬ s.IsTable f := by
  intro ⟨r', q, hq, hlen⟩
  obtain ⟨_, rfl⟩ := h.distinct hn hq
  omega

theorem not_table_of_unplaced (hf : s.forest.Unplaced f) : ¬ s.IsTable f :=
  fun ⟨r, p, hp, _⟩ => hf r p hp

theorem setPmm (h : Layout s) {m : Pmm} (hm : m.Wf ∧ s.pmm.Same m)
    (hheld : ∀ g, m.Free g → s.forest.Unplaced g) : Layout (s.setPmm m) :=
  { h with
    held := fun hn hf => hheld _ hf _ _ hn
    total := hm.1.small
    wf := hm.1
    drawn := fun hr hn => hm.2.fit (h.drawn hr hn) }

theorem setCr3 (h : Layout s) (a : Nat) : Layout (s.setCr3 a) := { h with }

end Layout

variable {s t : State}

theorem State.shape_some
    (hspace : ∀ r, (t.space r).map Space.shape = (s.space r).map Space.shape) {r : Nat}
    {space : Space} (ht : t.space r = some space) :
    ∃ space', s.space r = some space' ∧ space'.pml4 = space.pml4 ∧
      space'.isKernel = space.isKernel := by
  have hr := hspace r
  rw [ht, map_some] at hr
  obtain ⟨space', hs, hsh⟩ := map_eq_some_iff.mp hr.symm
  exact ⟨space', hs, congrArg Prod.fst hsh, congrArg Prod.snd hsh⟩

theorem State.kroot_congr
    (hspace : ∀ r, (t.space r).map Space.shape = (s.space r).map Space.shape) :
    t.kroot = s.kroot := by
  have hr := congrArg (Option.map fun x : Nat × Bool => x.1) (hspace vmmKernelSpace)
  rw [Option.map_map, Option.map_map] at hr
  exact congrArg (fun o : Option Nat => o.getD 0 / 4096) hr

/-- The invariant depends on the allocator, the shape of the spaces and the tables. -/
theorem Housed.transfer {d : Nat} (h : Housed d s) (h0 : 0 < d)
    (hspace : ∀ r, (t.space r).map Space.shape = (s.space r).map Space.shape)
    (hnext : t.nextSpace = s.nextSpace) (htotal : t.pmm.totalPages ≤ 2 ^ 18)
    (hmem : ∀ {r p f}, (s.forestTo d).node r p = some f → p.length < d → t.mem f = s.mem f)
    (hheld : ∀ {r p f}, (s.forestTo d).node r p = some f → ¬ t.pmm.Free f) : Housed d t := by
  have hnode := forestTo_congr hspace hmem
  have hkroot := kroot_congr hspace
  have hk : t.mem s.kroot = s.mem s.kroot := hmem (p := []) h.rooted.kroot_node h0
  refine
    { rooted := ⟨?_, ?_, ?_⟩
      entered := by rw [hkroot, hk]; exact h.entered
      distinct := h.distinct.mono fun r p _ hn => (hnode r p).symm.trans hn
      held := fun hn => hheld ((hnode _ _).symm.trans hn)
      nonzero := fun hn => h.nonzero ((hnode _ _).symm.trans hn)
      total := htotal
      aligned := ?_, kind := ?_, numbered := ?_ }
  · obtain ⟨space, h0⟩ := h.rooted.kernel
    obtain ⟨space', h0', _⟩ := shape_some (fun r => (hspace r).symm) h0
    exact ⟨space', h0'⟩
  · intro r f hn
    have hn : s.node r [] = some f := (hnode r []).symm.trans hn
    rw [hkroot, hk, hmem (p := []) hn h0]
    exact h.rooted.shared hn
  · intro i hi
    rw [hkroot, hk]
    exact h.rooted.kernelTop hi
  · intro r space ht
    obtain ⟨space', hs', hpml4, _⟩ := shape_some hspace ht
    rw [← hpml4]
    exact h.aligned hs'
  · intro r space ht
    obtain ⟨space', hs', _, hkind⟩ := shape_some hspace ht
    rw [← hkind]
    exact h.kind hs'
  · intro r hr
    have hnone := hspace r
    rw [h.numbered (hnext ▸ hr), map_none] at hnone
    exact map_eq_none_iff.mp hnone

theorem Layout.transfer (hs : Layout s) (hpmm : t.pmm = s.pmm)
    (hnext : t.nextSpace = s.nextSpace)
    (hspace : ∀ r, (t.space r).map Space.shape = (s.space r).map Space.shape)
    (hmem : ∀ {f}, s.IsTable f → t.mem f = s.mem f) : Layout t := by
  have htable : ∀ {r p f}, s.node r p = some f → p.length < 4 → t.mem f = s.mem f :=
    fun hf hp => hmem ⟨_, _, hf, hp⟩
  have hnode : ∀ r p, t.node r p = s.node r p := forestTo_congr hspace htable
  refine ⟨hs.toHoused.transfer (by decide) hspace hnext ?_ htable ?_, ?_, ?_, ?_, ?_⟩
  · rw [hpmm]; exact hs.total
  · rw [hpmm]; exact hs.held
  · rw [hpmm]; exact hs.wf
  · rw [hpmm]
    exact fun hr hn => hs.drawn hr ((hnode _ _).symm.trans hn)
  · obtain ⟨pd, hpd, hpres⟩ := hs.identity
    rw [hnode]
    exact ⟨pd, hpd, hmem ⟨0, [0, 0], hpd, by decide⟩ ▸ hpres⟩
  · intro r p f i hr hn hp hi hpres
    rw [hnode] at hn
    rw [hmem ⟨r, p, hn, hp⟩] at hpres ⊢
    exact hs.noHuge hr hn hp hi hpres

/-! ## Hanging a page into a table -/

structure Pending (s : State) (f : Nat) : Prop where
  unplaced : s.forest.Unplaced f
  used : ¬ s.pmm.Free f
  nonzero : f ≠ 0
  fit : s.pmm.Fit f

theorem Pending.lt {s : State} {f : Nat} (hf : Pending s f) (h : Layout s) : f < 2 ^ 40 :=
  Nat.lt_of_lt_of_le hf.fit.1 (Nat.le_trans h.wf.small (by decide))

/-- `s'` is `s` with the present entry `i` of the table `f`, which is at the
place `p`, leading to the frame `c`; as a table, `c` is empty. -/
structure Hung (s s' : State) (r : Nat) (p : Path) (i : Fin 512) (f c : Nat) : Prop where
  space : s'.space = s.space
  nextSpace : s'.nextSpace = s.nextSpace
  pmm : s'.pmm = s.pmm
  entry : ∃ bits, LowBits bits ∧ s'.mem f i = pteFor (c * 4096) bits
  others : ∀ g j, g ≠ c → (g ≠ f ∨ j ≠ i) → s'.mem g j = s.mem g j
  blank : p.length < 3 → ∀ j, s'.mem c j = 0#64

namespace Hung

variable {s s' : State} {r : Nat} {p : Path} {i : Fin 512} {f c : Nat}

theorem forestTo {d : Nat} (hh : Hung s s' r p i f c) (hf : (s.forestTo d).node r p = some f)
    (hp : p.length < d) (hd : d ≤ 4) (hi : Opens r p i) (habsent : present (s.mem f i) = false)
    (hc : (s.forestTo d).Unplaced c) (hlt : c < 2 ^ 40) :
    Forest.Hang (s.forestTo d) (s'.forestTo d) r p i f c where
  root r := by
    change (s'.space r).map _ = (s.space r).map _
    rw [hh.space]
  parent := hf
  vacant := by rw [forestTo_child, if_pos hp, childOf_absent habsent]
  unplaced := hc
  hung := by
    obtain ⟨bits, hb, he⟩ := hh.entry
    rw [forestTo_child, if_pos hp, he, childOf_pteFor (by omega) hi hlt hb]
  bare j := by
    rw [forestTo_child]
    split
    next hp' =>
      rw [hh.blank (by simp only [length_cons] at hp'; omega)]
      exact childOf_absent rfl
    · rfl
  rest r' q g j hgc hgf := by
    rw [forestTo_child, forestTo_child, hh.others g j hgc hgf]

theorem forest (hh : Hung s s' r p i f c) (hf : s.node r p = some f) (hp : p.length < 4)
    (hi : Opens r p i) (habsent : present (s.mem f i) = false) (hc : s.forest.Unplaced c)
    (hlt : c < 2 ^ 40) : Forest.Hang s.forest s'.forest r p i f c :=
  hh.forestTo hf hp (by decide) hi habsent hc hlt

theorem same {T U : Forest Nat (Fin 512) Nat} (hh : Hung s s' r p i f c)
    (hF : Forest.Hang T U r p i f c) (hd : T.Distinct) {r' : Nat} {q : Path} {g : Nat} {j : Fin 512}
    (hg : T.node r' q = some g) (hne : ¬ (r' = r ∧ q = p ∧ j = i)) : s'.mem g j = s.mem g j := by
  refine hh.others g j (fun hgc => hF.unplaced r' q (hgc ▸ hg)) ?_
  by_cases hgf : g = f
  · subst hgf
    obtain ⟨hr, hq⟩ := hd hg hF.parent
    exact .inr fun hji => hne ⟨hr, hq, hji⟩
  · exact .inl hgf

end Hung

/-- **Hanging keeps the invariant**: an allocated frame without a place goes
into an entry that is not present. -/
theorem Housed.hang {d : Nat} {s s' : State} {r : Nat} {p : Path} {i : Fin 512} {f c : Nat}
    (h : Housed d s) (hh : Hung s s' r p i f c)
    (hF : Forest.Hang (s.forestTo d) (s'.forestTo d) r p i f c) (hi : Opens r p i)
    (habsent : present (s.mem f i) = false) (hc0 : c ≠ 0) (hused : ¬ s.pmm.Free c) :
    Housed d s' := by
  have hd := h.distinct
  have hkroot : s'.kroot = s.kroot := by simp only [kroot, pml4Of, hh.space]
  -- at a root, neither entry 0 nor an entry of the kernel's is free to be filled
  have hroot : ∀ {r' g} j, s.node r' [] = some g → (r' = 0 ∨ j = 0) → s'.mem g j = s.mem g j := by
    intro r' g j hg hj
    refine hh.same hF hd (q := []) hg ?_
    rintro ⟨rfl, rfl, rfl⟩
    have hi' := hi rfl
    have hr0 : r' = 0 := hj.elim id hi'.mpr
    have hj0 : j = 0 := hi'.mp hr0
    subst hr0 hj0
    rw [Option.some.inj (hF.parent.symm.trans h.rooted.kroot_node), h.entered] at habsent
    cases habsent
  refine
    { rooted := ⟨by rw [hh.space]; exact h.rooted.kernel, ?_, ?_⟩
      entered := by rw [hkroot, hroot 0 h.rooted.kroot_node (.inl rfl)]; exact h.entered
      distinct := hF.distinct hd
      held := ?_, nonzero := ?_
      total := by rw [hh.pmm]; exact h.total
      aligned := by rw [hh.space]; exact h.aligned
      kind := by rw [hh.space]; exact h.kind
      numbered := by rw [hh.space, hh.nextSpace]; exact h.numbered }
  · intro r' g hg
    have hg : s.node r' [] = some g := (hF.root r').symm.trans hg
    rw [hkroot, hroot 0 h.rooted.kroot_node (.inl rfl), hroot 0 hg (.inr rfl)]
    exact h.rooted.shared hg
  · intro j hj
    rw [hkroot, hroot j h.rooted.kroot_node (.inl rfl)]
    exact h.rooted.kernelTop hj
  · intro r' q g hg
    rw [hh.pmm]
    rcases hF.node_cases hd hg with hg | ⟨_, _, rfl⟩
    · exact h.held hg
    · exact hused
  · intro r' q g hg
    rcases hF.node_cases hd hg with hg | ⟨_, _, rfl⟩
    · exact h.nonzero hg
    · exact hc0

theorem Layout.hang {s s' : State} {r : Nat} {p : Path} {i : Fin 512} {f c : Nat} (h : Layout s)
    (hh : Hung s s' r p i f c) (hf : s.node r p = some f) (hp : p.length < 4) (hi : Opens r p i)
    (habsent : present (s.mem f i) = false) (hc : Pending s c) : Layout s' := by
  have hF := hh.forest hf hp hi habsent hc.unplaced (hc.lt h)
  have hd := h.distinct
  refine ⟨h.toHoused.hang hh hF hi habsent hc.nonzero hc.used, ?_, ?_, ?_, ?_⟩
  · rw [hh.pmm]; exact h.wf
  · intro r' q g hr hg
    rw [hh.pmm]
    rcases hF.node_cases hd hg with hg | ⟨_, _, rfl⟩
    · exact h.drawn hr hg
    · exact hc.fit
  · obtain ⟨pd, hpd, hpres⟩ := h.identity
    refine ⟨pd, hF.node_keep hd hpd, ?_⟩
    rw [hh.same hF hd hpd]
    · exact hpres
    · rintro ⟨rfl, rfl, rfl⟩
      rw [Option.some.inj (hf.symm.trans hpd), hpres.1] at habsent
      cases habsent
  · intro r' q g j hr hg hq hj hpres
    rcases hF.node_cases hd hg with hg | ⟨rfl, rfl, rfl⟩
    · by_cases hplace : r' = r ∧ q = p ∧ j = i
      · obtain ⟨rfl, rfl, rfl⟩ := hplace
        obtain ⟨bits, hb, he⟩ := hh.entry
        rw [Option.some.inj (hg.symm.trans hf), he, huge_pteFor hb]
      · rw [hh.same hF hd hg hplace] at hpres ⊢
        exact h.noHuge hr hg hq hj hpres
    · rw [hh.blank (by simp only [length_cons] at hq; omega)]
      rfl

/-! ## Taking a page out of a table -/

/-- **Unmapping keeps the invariant**: the entry of a mapped page is cleared. -/
theorem Layout.cut {s : State} {r : Nat} {p : Path} {f : Nat} (h : Layout s)
    (hf : s.node r p = some f) (hp : p.length = 3) (hr : r ≠ 0) (i : Fin 512) :
    Layout (s.setWord f i 0#64) ∧ Forest.Cut s.forest (s.setWord f i 0#64).forest r p i f := by
  have hd := h.distinct
  have hmem : ∀ g j, ¬ (g = f ∧ j = i) → (s.setWord f i 0#64).mem g j = s.mem g j := by
    intro g j hne
    rw [setWord_mem]
    by_cases hg : g = f
    · subst hg
      rw [update_self, update_of_ne fun hj => hne ⟨rfl, hj⟩]
    · rw [update_of_ne hg]
  have hnew : (s.setWord f i 0#64).mem f i = 0#64 := by
    rw [setWord_mem, update_self, update_self]
  have hF : Forest.Cut s.forest (s.setWord f i 0#64).forest r p i f :=
    { root := fun _ => rfl
      parent := hf
      emptied := by rw [forest_child, hnew]; exact childOf_absent rfl
      bare := fun c j => by rw [forest_child, childOf_deep (by rw [length_cons, hp])]
      rest := fun r' q g j hne => by
        rw [forest_child, forest_child, hmem g j (by tauto)] }
  -- the table is a page table of a user space: no root, and not the kernel's
  have hother : ∀ {r' q g} (j : Fin 512), s.node r' q = some g → (q.length < 3 ∨ r' = 0) →
      (s.setWord f i 0#64).mem g j = s.mem g j := by
    intro r' q g j hg hq
    refine hmem g j fun ⟨hgf, _⟩ => ?_
    obtain ⟨rfl, rfl⟩ := hd hf (hgf ▸ hg)
    omega
  refine ⟨?_, hF⟩
  refine
    { h with
      shared := ?_, kernelTop := ?_, entered := ?_
      distinct := hF.distinct hd
      held := fun hg => h.held (hF.node_cases hd hg).1
      nonzero := fun hg => h.nonzero (hF.node_cases hd hg).1
      drawn := fun hr hg => h.drawn hr (hF.node_cases hd hg).1
      identity := ?_, noHuge := ?_ }
  · intro r' g hg
    have hg := (hF.node_cases hd hg).1
    rw [hother 0 hg (.inl (by decide))]
    exact (h.rooted.shared hg).trans (hother 0 h.kroot_node (.inr rfl)).symm
  · intro j hj
    exact (congrArg present (hother j h.kroot_node (.inr rfl))).trans (h.rooted.kernelTop hj)
  · exact (congrArg present (hother 0 h.kroot_node (.inr rfl))).trans h.entered
  · obtain ⟨pd, hpd, hpres, hhuge⟩ := h.identity
    refine ⟨pd, ?_, ?_⟩
    · rw [node, (hF.node_both hd _ _).2 fun h0 => hr h0.1.symm]
      exact hpd
    · rw [hother 0 hpd (.inr rfl)]
      exact ⟨hpres, hhuge⟩
  · intro r' q g j hr' hg hq hj hpres
    have hg := (hF.node_cases hd hg).1
    by_cases hgf : g = f ∧ j = i
    · rw [hgf.1, hgf.2, hnew]
      rfl
    · rw [hmem g j hgf] at hpres ⊢
      exact h.noHuge hr' hg hq hj hpres

/-! ## Writing to a page that is no table -/

structure Twin (s t : State) : Prop where
  pmm : t.pmm = s.pmm
  space : t.space = s.space
  nextSpace : t.nextSpace = s.nextSpace
  heapEnd : t.heapEnd = s.heapEnd
  cr3 : t.cr3 = s.cr3
  tables : ∀ {f}, s.IsTable f → t.mem f = s.mem f

namespace Twin

variable {s t : State}

theorem refl (s : State) : Twin s s := ⟨rfl, rfl, rfl, rfl, rfl, fun _ => rfl⟩

theorem node (h : Twin s t) (r : Nat) (p : Path) : t.node r p = s.node r p :=
  forestTo_congr (fun _ => by rw [h.space]) (fun hf hp => h.tables ⟨_, _, hf, hp⟩) r p

theorem isTable (h : Twin s t) {f : Nat} : t.IsTable f ↔ s.IsTable f := by
  simp only [State.IsTable, h.node]

theorem layout (h : Twin s t) (hs : Layout s) : Layout t :=
  hs.transfer h.pmm h.nextSpace (fun _ => by rw [h.space]) h.tables

theorem setCr3 (h : Twin s t) (a : Nat) : Twin (s.setCr3 a) (t.setCr3 a) :=
  ⟨h.pmm, h.space, h.nextSpace, h.heapEnd, rfl, h.tables⟩

end Twin

end Exyde.Mem
