import Exyde.Kernel.Lifetime

/-! # The life of a process

The global list holds the processes with a reference left. A process is published with
its main thread's reference, gets one for each handle on it, and is taken off the list
in the step that drops the last one. -/

namespace Exyde.Kernel

open Function Exyde.Lib Exyde.Ipc List Option State

/-! ## What a step does to the list -/

/-- The main thread of process `p` belongs to it, once that thread is dead `p` has
exited, and nobody waits for it once it has. -/
def State.Life (s : State) (p : ObjId) (P : Process) : Prop :=
  s.process P.mainThread = some p ∧ ((s.ctl P.mainThread).isDead = true → P.exited = true) ∧
    (P.exited = true → P.waiters = [])

def Lives (s : State) : Prop := ∀ p P, s.procs p = some P → s.Life p P

structure SameList (s s' : State) : Prop where
  list : s'.procList = s.procList
  count : s'.procRefs.count = s.procRefs.count
  next : s.nextObj ≤ s'.nextObj
  lives : Lives s → Lives s'

/-- One change of the list or of a count. `born`: published, with one reference;
`counted`: a reference taken or dropped, or in the end the object freed; `gone`: the
last reference dropped. -/
inductive ListStep (s s' : State) : Prop
  | same : SameList s s' → ListStep s s'
  | born (q : ObjId) : s.nextObj ≤ q → q < s'.nextObj → s.procs q = none →
      s'.procList = q :: s.procList →
      s'.procRefs.count = update s.procRefs.count q (some 1) → ListStep s s'
  | counted (q : ObjId) (n : Nat) (v : Option Nat) : s.procRefs.count q = some n →
      (v.getD 0 = 0 ↔ n = 0) → s'.procList = s.procList →
      s'.procRefs.count = update s.procRefs.count q v → s'.nextObj = s.nextObj → ListStep s s'
  | gone (q : ObjId) : s.procRefs.count q = some 1 → s'.procList = s.procList.erase q →
      s'.procRefs.count = update s.procRefs.count q (some 0) → s'.nextObj = s.nextObj →
      ListStep s s'

/-- Changes of the list that keep the lives of the processes. -/
abbrev ListSteps := Relation.ReflTransGen fun s s' => ListStep s s' ∧ (Lives s → Lives s')

structure Listed (s : State) : Prop where
  nodup : s.procList.Nodup
  mem : ∀ p, p ∈ s.procList ↔ ∃ n, s.procRefs.count p = some (n + 1)

section

variable {s s' s'' : State} {p q : ObjId} {P P' : Process} {k : Ctl}

theorem SameList.refl (s : State) : SameList s s := ⟨rfl, rfl, Nat.le_refl _, id⟩

theorem SameList.trans (h : SameList s s') (h' : SameList s' s'') : SameList s s'' :=
  ⟨h'.list.trans h.list, h'.count.trans h.count, Nat.le_trans h.next h'.next, fun hl => h'.lives (h.lives hl)⟩

theorem SameList.steps (h : SameList s s') : ListSteps s s' := .single ⟨.same h, h.lives⟩

theorem exists_succ_iff {o : Option Nat} : (∃ n, o = some (n + 1)) ↔ ¬ o.getD 0 = 0 := by
  rcases o with _ | _ | n <;> simp

theorem Listed.step (h : Listed s) (hl : ListStep s s') : Listed s' := by
  cases hl with
  | same hs =>
    refine ⟨hs.list ▸ h.nodup, fun p => ?_⟩
    rw [hs.list, hs.count]
    exact h.mem p
  | born q _ _ hq hlist hcount =>
    have hnot : q ∉ s.procList := by
      intro hm
      obtain ⟨n, hn⟩ := (h.mem q).mp hm
      simp [procRefs, hq] at hn
    refine ⟨hlist ▸ nodup_cons.mpr ⟨hnot, h.nodup⟩, fun p => ?_⟩
    rw [hlist, hcount, mem_cons]
    by_cases hp : p = q
    · subst hp; simp
    · simpa [hp] using h.mem p
  | counted q n v hq hv hlist hcount _ =>
    refine ⟨hlist ▸ h.nodup, fun p => ?_⟩
    rw [hlist, hcount, h.mem p]
    by_cases hp : p = q
    · subst hp
      rw [exists_succ_iff, exists_succ_iff, hq, update_self, hv, getD_some]
    · rw [update_of_ne hp]
  | gone q hq hlist hcount _ =>
    refine ⟨hlist ▸ h.nodup.erase q, fun p => ?_⟩
    rw [hlist, hcount, h.nodup.mem_erase_iff]
    by_cases hp : p = q
    · subst hp; simp
    · simpa [hp] using h.mem p

theorem Listed.steps (h : Listed s) (hl : ListSteps s s') : Listed s' := by
  induction hl with
  | refl => exact h
  | tail _ hstep ih => exact ih.step hstep.1

theorem ListSteps.lives (hl : ListSteps s s') (h : Lives s) : Lives s' := by
  induction hl with
  | refl => exact h
  | tail _ hstep ih => exact hstep.2 ih

/-- Only new processes come onto the list. -/
theorem ListSteps.new (hl : ListSteps s s') :
    s.nextObj ≤ s'.nextObj ∧ ∀ p, p ∈ s'.procList → p ∈ s.procList ∨ s.nextObj ≤ p := by
  induction hl with
  | refl => exact ⟨Nat.le_refl _, fun p hp => .inl hp⟩
  | @tail s1 s2 _ hstep ih =>
    obtain ⟨hle, hnew⟩ := ih
    cases hstep.1 with
    | same hs => exact ⟨Nat.le_trans hle hs.next, fun p hp => hnew p (hs.list ▸ hp)⟩
    | born q hq hlt _ hlist _ =>
      refine ⟨Nat.le_trans hle (Nat.le_trans hq (Nat.le_of_lt hlt)), fun p hp => ?_⟩
      rw [hlist] at hp
      rcases mem_cons.mp hp with rfl | hp
      · exact .inr (Nat.le_trans hle hq)
      · exact hnew p hp
    | counted q n v _ _ hlist _ hnext => exact ⟨hnext ▸ hle, fun p hp => hnew p (hlist ▸ hp)⟩
    | gone q _ hlist _ hnext =>
      exact ⟨hnext ▸ hle, fun p hp => hnew p (mem_of_mem_erase (hlist ▸ hp))⟩

/-! ## The parts of a system call -/

theorem sameList_fail (f : Fault) : SameList s (s.fail f) := ⟨rfl, rfl, Nat.le_refl _, id⟩

theorem Lives.goto (h : Lives s) (hk : k.isDead = false) : Lives (s.goto k) := by
  intro p P hP
  obtain ⟨hmain, hexit, hwait⟩ := h p P hP
  refine ⟨hmain, fun hd => hexit ?_, hwait⟩
  by_cases hc : P.mainThread = s.cur
  · simp [hc, hk] at hd
  · simpa [hc] using hd

theorem sameList_goto (hk : k.isDead = false) : SameList s (s.goto k) :=
  ⟨rfl, rfl, Nat.le_refl _, fun h => h.goto hk⟩

theorem sameList_ret (r : Int) : SameList s (s.ret r) :=
  (sameList_goto rfl).trans ⟨rfl, rfl, Nat.le_refl _, id⟩

theorem sameList_setChan (x : ObjId) (c : Channel) : SameList s (s.setChan x c) :=
  ⟨rfl, rfl, Nat.le_refl _, id⟩

theorem sameList_schedule (r : Except Panic Sched) : SameList s (s.schedule r) := by
  cases r with
  | error e => exact sameList_fail _
  | ok sch =>
    simp only [schedule]
    split <;> exact ⟨rfl, rfl, Nat.le_refl _, id⟩

theorem sameList_block (hk : k.isDead = false) : SameList s (s.block k) :=
  (sameList_goto hk).trans (sameList_schedule _)

theorem sameList_wake (w : Option Tid) : SameList s (s.wake w) := by
  cases w <;> exact ⟨rfl, rfl, Nat.le_refl _, id⟩

theorem Lives.setProc (h : Lives s) (hP : s.procs p = some P) (hlife : s.Life p P → s.Life p P') :
    Lives (s.setProc p P') := by
  intro q R hR
  by_cases hq : q = p
  · subst hq
    have heq : P' = R := by simpa using hR
    rw [← heq]
    exact hlife (h q P hP)
  · exact h q R (by simpa [hq] using hR)

theorem count_setProc (p : ObjId) (P : Process) :
    (s.setProc p P).procRefs.count = update s.procRefs.count p (some P.refcount) := by
  funext q
  by_cases hq : q = p
  · subst hq; simp [procRefs]
  · simp [procRefs, hq]

theorem sameList_setProc (hP : s.procs p = some P) (hr : P'.refcount = P.refcount)
    (hlife : s.Life p P → s.Life p P') : SameList s (s.setProc p P') := by
  refine ⟨rfl, ?_, Nat.le_refl _, fun h => h.setProc hP hlife⟩
  rw [count_setProc, update_eq_self_iff, hr]
  simp [procRefs, hP]

theorem sameList_setTable (hP : s.procs p = some P) (tbl : HandleTable) :
    SameList s (s.setTable p P tbl) := sameList_setProc hP rfl id

theorem withProc_steps {f : ObjId → Process → State}
    (hf : ∀ p P, s.procs p = some P → ListSteps s (f p P)) : ListSteps s (s.withProc f) := by
  unfold withProc
  split
  · exact (sameList_ret _).steps
  · split
    · exact (sameList_fail _).steps
    next hP => exact hf _ _ hP

theorem withChannel_steps {h : UInt64} {required : UInt32} {f : ObjId → Channel → State}
    (hf : ∀ x c, ListSteps s (f x c)) : ListSteps s (s.withChannel P h required f) := by
  unfold withChannel
  split
  · exact (sameList_ret _).steps
  · split
    · exact (sameList_fail _).steps
    · exact hf _ _

theorem sendPass_same (hP : s.procs p = some P) (x : ObjId) (c : Channel) (msg : Nat → UInt8)
    (grant : Option Grant) : SameList s (s.sendPass p P x c msg grant) := by
  unfold sendPass
  simp only
  split
  · exact (sameList_setChan x _).trans (sameList_block rfl)
  next r _ =>
    have hsame := (sameList_setChan (s := s) x (channelSendCap c s.cur msg (grant.map Grant.cap)).chan).trans
      (sameList_wake (channelSendCap c s.cur msg (grant.map Grant.cap)).wake)
    have hP' : ((s.setChan x (channelSendCap c s.cur msg (grant.map Grant.cap)).chan).wake
        (channelSendCap c s.cur msg (grant.map Grant.cap)).wake).procs p = some P := by
      cases (channelSendCap c s.cur msg (grant.map Grant.cap)).wake <;> exact hP
    refine hsame.trans ?_
    unfold finishSend
    split
    · exact sameList_ret _
    · split
      · exact sameList_ret _
      · exact (sameList_setTable hP' _).trans (sameList_ret _)

theorem finishRecv_same (hP : s.procs p = some P) (x : ObjId) (pass : Pass) {park : Ctl}
    (hpark : park.isDead = false) (refusal : Int) (copyOut : Bool) :
    SameList s (s.finishRecv p P x pass park refusal copyOut) := by
  unfold finishRecv
  split
  · exact (sameList_setChan x _).trans (sameList_block hpark)
  next item _ =>
    have hsame := (sameList_setChan (s := s) x pass.chan).trans (sameList_wake pass.wake)
    have hP' : ((s.setChan x pass.chan).wake pass.wake).procs p = some P := by
      cases pass.wake <;> exact hP
    refine (hsame.trans ?_).trans (sameList_ret _)
    unfold install
    split
    · exact .refl _
    · exact sameList_setTable hP' _
  · exact sameList_ret _
  · exact sameList_ret _

theorem withReceive_steps {h maxLen : UInt64} {f : ObjId → Process → ObjId → Channel → State}
    (hf : ∀ p P x c, s.procs p = some P → SameList s (f p P x c)) :
    ListSteps s (s.withReceive h maxLen f) := by
  refine withProc_steps fun p P hP => withChannel_steps fun x c => ?_
  split
  · exact (sameList_ret _).steps
  · exact (hf p P x c hP).steps

theorem processUnref_steps (q : ObjId) : ListSteps s (s.processUnref q) := by
  unfold processUnref
  split
  · exact (sameList_fail _).steps
  next Q hQ =>
    have hcount : s.procRefs.count q = some Q.refcount := by simp [procRefs, hQ]
    split
    · exact .refl
    split
    next h1 =>
      rw [h1] at hcount
      exact .single ⟨.gone q hcount rfl (count_setProc ..) rfl, fun h => h.setProc hQ id⟩
    next h0 h1 =>
      obtain ⟨n, hn⟩ : ∃ n, Q.refcount = n + 2 := ⟨Q.refcount - 2, by omega⟩
      rw [hn] at hcount
      refine .single ⟨.counted q (n + 2) (some (n + 1)) hcount (by simp) rfl ?_ rfl, fun h => h.setProc hQ id⟩
      exact (count_setProc ..).trans (by rw [hn]; rfl)

theorem clearEntry_same (p : ObjId) (i : Fin handleMax) : SameList s (s.clearEntry p i) := by
  unfold clearEntry
  split
  · exact sameList_fail _
  next hP => exact sameList_setTable hP _

theorem sameList_setWork (w : List Frame) : SameList s (s.setWork w) := ⟨rfl, rfl, Nat.le_refl _, id⟩

theorem closeEntry_steps (p : ObjId) (i : Fin handleMax) (e : HandleEntry) (waiting next : List Frame) :
    ListSteps s (s.closeEntry p i e waiting next) := by
  unfold closeEntry
  split
  · split
    · exact (sameList_fail _).steps
    next s1 hs1 =>
      have hsame : SameList s s1 := by
        rcases channelDestroy_cases s e.object with hd | ⟨-, hd⟩ | ⟨_, _, _, -, -, -, hd⟩ <;>
          cases hd.symm.trans hs1
        exact ⟨rfl, rfl, Nat.le_refl _, id⟩
      exact ((hsame.trans (clearEntry_same p i)).trans (sameList_setWork _)).steps
  · split
    · exact (sameList_setWork waiting).steps.trans (processUnref_steps _)
    · exact ((clearEntry_same p i).trans (sameList_setWork _)).steps

/-! ## Spawning -/

theorem processSpawn_steps (hfresh : Fresh s) : ListSteps s s.processSpawn := by
  refine .single ⟨.born s.nextObj (Nat.le_refl _) (Nat.lt_succ_self _)
    (hfresh.procs _ (Nat.le_refl _)) rfl ?_, fun h p P hP => ?_⟩
  · funext p
    by_cases hp : p = s.nextObj
    · subst hp; simp [procRefs, processSpawn]
    · simp [procRefs, processSpawn, hp]
  · by_cases hp : p = s.nextObj
    · subst hp
      simp only [processSpawn, update_self, Option.some.injEq] at hP
      rw [← hP]
      simp [State.Life, processSpawn, Ctl.isDead]
    · have hP : s.procs p = some P := by simpa [processSpawn, hp] using hP
      have hne : P.mainThread ≠ s.nextTid := Nat.ne_of_lt (hfresh.main p P hP)
      simp only [State.Life, processSpawn, update_of_ne hne]
      exact h p P hP

theorem holdChild_steps {n : Nat} (hq : s.procRefs.count q = some (n + 1)) :
    ListSteps s (s.holdChild p q) := by
  obtain ⟨Q, hQ, hr⟩ := map_eq_some_iff.mp hq
  have href : s.processRef q = s.setProc q { Q with refcount := Q.refcount + 1 } := by
    simp only [processRef, hQ]
  have hmore : ListSteps s (s.processRef q) := by
    refine .single ⟨.counted q (n + 1) (some (n + 2)) hq (by simp) ?_ ?_ ?_, fun h => ?_⟩ <;> rw [href]
    · rfl
    · rw [count_setProc, hr]
    · rfl
    · exact h.setProc hQ id
  refine hmore.trans ?_
  unfold holdChild
  simp only
  split
  · exact (sameList_fail _).steps
  next P hP =>
    split
    · exact ((processUnref_steps q).trans (processUnref_steps q)).trans (sameList_ret _).steps
    next tbl i _ =>
      have hcreated : SameList ((s.processRef q).setTable p P tbl)
          { (s.processRef q).setTable p P tbl with
            created := update (s.processRef q).created q (some (kindProcess, rightRead)) } :=
        ⟨rfl, rfl, Nat.le_refl _, id⟩
      exact (((sameList_setTable hP tbl).trans hcreated).trans (sameList_ret _)).steps

theorem count_processSpawn : s.processSpawn.procRefs.count s.nextObj = some 1 := by
  simp [procRefs, processSpawn]

theorem copyBootstrap_steps {n : Nat} (hq : s.procRefs.count q = some (n + 1)) (e : HandleEntry) :
    ListSteps s (s.copyBootstrap p q e) := by
  unfold copyBootstrap
  split
  · exact (sameList_fail _).steps
  next Q hQ =>
    split
    · exact (processUnref_steps q).trans (sameList_ret _).steps
    next tbl j _ =>
      have hsame : SameList s (s.setProc q { Q with handles := tbl, bootstrapHandle := some j }) :=
        sameList_setProc hQ rfl id
      exact hsame.steps.trans (holdChild_steps (hsame.count ▸ hq))

theorem spawnWithElf_steps (hfresh : Fresh s) (p : ObjId) (P : Process) (capH : UInt64)
    (spawn : SpawnResult) : ListSteps s (s.spawnWithElf p P capH spawn) := by
  have hborn : ListSteps s s.processSpawn := processSpawn_steps hfresh
  unfold spawnWithElf
  extract_lets bootstrap
  split
  · exact (sameList_ret _).steps
  split
  · exact (sameList_ret _).steps
  cases spawn with
  | noProcess => exact (sameList_ret _).steps
  | noThread =>
    have hpid : SameList s { s with nextPid := s.nextPid + 1 } := ⟨rfl, rfl, Nat.le_refl _, id⟩
    exact (hpid.trans (sameList_ret _)).steps
  | spawned =>
    simp only
    split
    · exact hborn.trans (holdChild_steps count_processSpawn)
    · cases bootstrap with
      | none => exact hborn.trans ((processUnref_steps _).trans (sameList_ret _).steps)
      | some e => exact hborn.trans (copyBootstrap_steps count_processSpawn e)

theorem sysSpawnElf_steps (hfresh : Fresh s) (elfSize capH flags : UInt64) (env : SpawnEnv) :
    ListSteps s (s.sysSpawnElf elfSize capH flags env) := by
  refine withProc_steps fun p P _ => ?_
  split
  · exact (sameList_ret _).steps
  split
  · exact (sameList_ret _).steps
  split
  · exact (sameList_ret _).steps
  split
  · exact (sameList_ret _).steps
  split
  · exact (sameList_ret _).steps
  · exact spawnWithElf_steps hfresh p P capH env.spawn

/-! ## The other system calls -/

theorem waitPass_same (q : ObjId) : SameList s (s.waitPass q) := by
  unfold waitPass
  split
  · exact sameList_fail _
  next Q hQ =>
    split
    · exact sameList_ret _
    next hexited =>
      have hset : SameList s (s.setProc q { Q with waiters := waitqPush Q.waiters s.cur }) :=
        sameList_setProc hQ rfl fun ⟨hmain, hexit, _⟩ => ⟨hmain, hexit, fun he => absurd he hexited⟩
      exact hset.trans (sameList_block rfl)

theorem threadExit_same
    (hx : Lives s → ∀ p P, s.procs p = some P → P.mainThread = s.cur → P.exited = true) :
    SameList s s.threadExit := by
  have hgoto : SameList s (s.goto .dead) := by
    refine ⟨rfl, rfl, Nat.le_refl _, fun h p P hP => ?_⟩
    obtain ⟨hmain, hexit, hwait⟩ := h p P hP
    refine ⟨hmain, fun hd => ?_, hwait⟩
    by_cases hc : P.mainThread = s.cur
    · exact hx h p P hP hc
    · exact hexit (by simpa [hc] using hd)
  exact hgoto.trans (sameList_schedule _)

theorem sameList_setSched (sch : Sched) : SameList s (s.setSched sch) := ⟨rfl, rfl, Nat.le_refl _, id⟩

theorem processExit_same (hP : s.procs p = some P) (code : Int) :
    SameList s (s.processExit p P code) := by
  unfold processExit
  split
  · exact .refl _
  · refine SameList.trans ?_ (sameList_setSched _)
    exact sameList_setProc hP rfl fun ⟨hmain, _, _⟩ => ⟨hmain, fun _ => rfl, fun _ => rfl⟩

theorem processExit_exited (hP : s.procs p = some P) (code : Int) :
    ∃ P', (s.processExit p P code).procs p = some P' ∧ P'.exited = true := by
  unfold processExit
  split
  next he => exact ⟨P, hP, he⟩
  · exact ⟨_, update_self .., rfl⟩

theorem processExit_process (code : Int) : (s.processExit p P code).process = s.process := by
  unfold processExit
  split <;> rfl

theorem sysExit_same (code : UInt64) : SameList s (s.sysExit code) := by
  unfold sysExit
  split
  next hnone =>
    refine threadExit_same fun hl p P hP hmain => ?_
    have hown := (hl p P hP).1
    rw [hmain, hnone] at hown
    cases hown
  next p hown =>
    split
    · exact sameList_fail _
    next P hP =>
      refine (processExit_same hP _).trans (threadExit_same fun hl q Q hQ hmain => ?_)
      obtain ⟨-, hcur, -⟩ := processExit_spec hP code.toUInt32.toBitVec.toInt
      have hq := (hl q Q hQ).1
      rw [hmain, hcur, processExit_process, hown] at hq
      cases hq
      obtain ⟨P', hP', he⟩ := processExit_exited hP code.toUInt32.toBitVec.toInt
      rw [hP'] at hQ
      cases hQ
      exact he

theorem syscall_steps (hfresh : Fresh s) (call : Syscall) : ListSteps s (s.syscall call) := by
  have hret : ∀ r, ListSteps s (s.ret r) := fun r => (sameList_ret r).steps
  cases call with
  | ping a0 | undefined => exact hret _
  | exit code => exact (sysExit_same code).steps
  | handleCreate kind rights object =>
    refine withProc_steps fun p P hP => ?_
    split
    · exact hret _
    · exact ((sameList_setTable hP _).trans (sameList_ret _)).steps
  | handleClose h =>
    refine withProc_steps fun p P _ => ?_
    split
    · exact hret _
    · exact (hret 0).trans (closeEntry_steps ..)
  | handleQuery h required | getBootstrap =>
    refine withProc_steps fun p P _ => ?_
    split <;> exact hret _
  | getpid | plain call result => exact withProc_steps fun p P _ => hret _
  | ipcCreate msgSize capacity allocOk =>
    refine withProc_steps fun p P hP => ?_
    split
    · exact hret _
    split
    · exact hret _
    split
    · exact hret _
    split
    · exact hret _
    next c _ _ tbl i _ =>
      have hadd : SameList (s.setTable p P tbl) ((s.setTable p P tbl).addChannel c) :=
        ⟨rfl, rfl, Nat.le_succ _, id⟩
      exact (((sameList_setTable hP tbl).trans hadd).trans (sameList_ret _)).steps
  | ipcSend h len msg =>
    refine withProc_steps fun p P hP => withChannel_steps fun x c => ?_
    split
    · exact hret _
    split
    · exact hret _
    · exact (sendPass_same hP ..).steps
  | ipcTrySend h len msg =>
    refine withProc_steps fun p P hP => withChannel_steps fun x c => ?_
    split
    · exact hret _
    split
    · exact hret _
    split
    · exact hret _
    · exact (((sameList_setChan x _).trans (sameList_wake _)).trans (sameList_ret _)).steps
  | ipcRecv h maxLen copyOut | ipcTryRecv h maxLen copyOut | ipcRecvCap h maxLen copyOut | ipcTryRecvCap h maxLen copyOut =>
    exact withReceive_steps fun p P x c hP => finishRecv_same hP _ _ rfl ..
  | ipcSendCap h len msg capH action =>
    refine withProc_steps fun p P hP => withChannel_steps fun x c => ?_
    split
    · exact hret _
    split
    · exact hret _
    split
    · exact (sendPass_same hP ..).steps
    split
    · exact hret _
    split
    · exact hret _
    · exact (sendPass_same hP ..).steps
  | spawnElf elfSize capH flags env => exact sysSpawnElf_steps hfresh ..
  | wait procH =>
    refine withProc_steps fun p P _ => ?_
    split
    · exact hret _
    split
    · exact hret _
    · exact (waitPass_same _).steps
  | yield => exact ((sameList_ret 0).trans (sameList_schedule _)).steps

theorem resume_steps {copyOut : Bool} (hs : s.resume copyOut k = some s') : ListSteps s s' := by
  unfold resume at hs
  split at hs
  · cases hs
    refine withProc_steps fun p P hP => ?_
    split
    · exact (sameList_fail _).steps
    · exact (sendPass_same hP ..).steps
  pick_goal 3
  · cases hs
    exact (waitPass_same _).steps
  pick_goal 3
  · cases hs
  all_goals
    cases hs
    refine withProc_steps fun p P hP => ?_
    split
    · exact (sameList_fail _).steps
    · exact (finishRecv_same hP _ _ rfl ..).steps

/-! ## Releases and steps -/

theorem spaceUnref_same (q : ObjId) : SameList s (s.spaceUnref q) := by
  unfold spaceUnref
  split
  · exact sameList_fail _
  · split
    · exact .refl _
    · split <;> exact ⟨rfl, rfl, Nat.le_refl _, id⟩

theorem spaceUnref_procs (q : ObjId) : (s.spaceUnref q).procs = s.procs := by
  unfold spaceUnref
  split
  · rfl
  · split
    · rfl
    · split <;> rfl

theorem unwind_steps (hrel : Releases s) {f : Frame} {w : List Frame} (hw : s.work = f :: w) :
    ListSteps s (s.unwind f w) := by
  cases f with
  | sweep p n =>
    simp only [unwind]
    split
    · exact (sameList_fail _).steps
    next P hP =>
      split
      · split
        · exact closeEntry_steps ..
        · exact (sameList_setWork _).steps
      · -- `process_destroy` has emptied the table of a process nobody refers to
        have h0 : s.procRefs.count p = some 0 := hrel.unheld p (by simp [hw, Frame.sweeping?])
        have hsp := spaceUnref_same (s := s) p
        refine .single ⟨.counted p 0 none h0 (by simp) hsp.list ?_ ?_, fun hm q R hR => ?_⟩
        · funext q
          by_cases hq : q = p
          · subst hq; simp [procRefs]
          · simp [procRefs, hq]
        · unfold spaceUnref
          split
          · rfl
          · split
            · rfl
            · split <;> rfl
        · by_cases hq : q = p
          · subst hq; simp at hR
          · have hlife := hsp.lives hm q R
            rw [spaceUnref_procs] at hlife
            exact hlife (by simpa [hq] using hR)
  | swept p i | close p i => exact ((clearEntry_same p i).trans (sameList_setWork _)).steps
  | reap d rest =>
    cases d with
    | none =>
      cases rest with
      | nil => exact (sameList_setWork _).steps
      | cons t rest =>
        refine (sameList_setWork (.reap (some t) rest :: w)).steps.trans ?_
        simp only [unwind, freeThread]
        split
        · exact .refl
        · split
          · exact (sameList_fail _).steps
          · split
            · exact processUnref_steps _
            · exact .refl
    | some t =>
      refine (SameList.trans ?_ (sameList_setWork _)).steps
      simp only [freeThreadMem]
      split
      · exact ⟨rfl, rfl, Nat.le_refl _, id⟩
      · exact (spaceUnref_same _).trans ⟨rfl, rfl, Nat.le_refl _, id⟩

theorem step_lists {Q : Cap → Prop} (hb : Base Q s) {e : Event} (hs : s.step e = some s') :
    ListSteps s s' := by
  unfold step at hs
  split at hs
  · cases hs
  split at hs
  next f w hw =>
    cases hs
    exact unwind_steps hb.releases hw
  · cases hs
  · cases hs
  · exact resume_steps hs
  · split at hs
    · cases hs; exact (sameList_goto rfl).steps
    · cases hs
  · split at hs
    · cases hs; exact syscall_steps hb.fresh _
    · cases hs
  · split at hs
    · cases hs; exact (sameList_schedule _).steps
    · cases hs; exact (sameList_schedule _).steps
    · cases hs
  · split at hs
    · cases hs; exact processSpawn_steps hb.fresh
    · cases hs
  · split at hs
    · cases hs; exact (sameList_schedule _).steps
    · cases hs

end

/-! ## References -/

/-- The thread has not been reaped: it exists, and `free_thread` is not past its
`process_unref`. -/
def State.Unreaped (s : State) (t : Tid) : Prop := (s.sched.state t).isSome = true ∧ ¬ s.dying t

/-- The owning PROCESS handles on `p` in all tables, without one whose object
`handle_close` has released and which it is about to clear. -/
def State.handlesOn (s : State) (p : ObjId) : Set (ObjId × Fin handleMax) :=
  { k | ∃ c, s.capAt (.entry k.1 k.2) = some c ∧ c.kind = kindProcess ∧ c.owns = true ∧ c.object = p ∧
    ¬ s.clearing k.1 k.2 }

def State.MainUnreaped (s : State) (p : ObjId) : Prop := ∃ P, s.procs p = some P ∧ s.Unreaped P.mainThread

open Classical in
/-- One for the main thread, and one for each owning handle. -/
noncomputable def State.references (s : State) (p : ObjId) : ℕ∞ :=
  (if s.MainUnreaped p then 1 else 0) + (s.handlesOn p).encard

section

variable {s s' : State} {p q : ObjId}

theorem holds_entry (hp : ProcCaps s.authority) {i : Fin handleMax} :
    s.procRefs.holds (.entry q i) = some p ↔ (q, i) ∈ s.handlesOn p := by
  simp only [procRefs, handlesOn, Set.mem_ofPred_eq]
  constructor
  · intro h
    split at h
    · cases h
    next hc =>
      obtain ⟨c, hcap, hk⟩ := bind_eq_some_iff.mp h
      split at hk
      next hkind =>
        cases hk
        exact ⟨c, hcap, hkind, (hp (.entry q i) c hcap hkind).1, rfl, hc⟩
      · cases hk
  · intro h
    obtain ⟨c, hcap, hkind, _, hobj, hc⟩ := h
    rw [if_neg hc]
    exact bind_eq_some_iff.mpr ⟨c, hcap, by rw [if_pos hkind, hobj]⟩

theorem holds_thread_iff (hm : Lives s) (hc : Counts s) {t : Tid} :
    s.procRefs.holds (.thread t) = some p ↔
      ∃ P, s.procs p = some P ∧ P.mainThread = t ∧ s.Unreaped t := by
  constructor
  · intro h
    obtain ⟨P, hP, hmain⟩ := hc.main t p h
    refine ⟨P, hP, hmain, ?_⟩
    simp only [procRefs] at h
    split at h
    next hu => exact hu
    · cases h
  · intro h
    obtain ⟨P, hP, rfl, hu⟩ := h
    exact (if_pos hu).trans (hm p P hP).1

theorem encard_holders (hm : Lives s) (hc : Counts s) (hp : ProcCaps s.authority) (p : ObjId) :
    (s.procRefs.holders p).encard = s.references p := by
  have hset : s.procRefs.holders p =
      Holder.thread '' { t | s.procRefs.holds (.thread t) = some p } ∪
        (fun k : ObjId × Fin handleMax => Holder.entry k.1 k.2) '' s.handlesOn p := by
    ext k
    cases k with
    | thread t => simp [Refs.holders]
    | entry q i => simp [Refs.holders, holds_entry hp]
  have hdis : Disjoint (Holder.thread '' { t | s.procRefs.holds (.thread t) = some p })
      ((fun k : ObjId × Fin handleMax => Holder.entry k.1 k.2) '' s.handlesOn p) := by
    rw [Set.disjoint_left]
    rintro _ ⟨t, -, rfl⟩ ⟨k, -, hk⟩
    cases hk
  have hinj : Injective fun k : ObjId × Fin handleMax => Holder.entry k.1 k.2 := by
    intro k k' hk
    simpa [Prod.ext_iff] using hk
  rw [hset, Set.encard_union_eq hdis, hinj.encard_image,
    Injective.encard_image (fun _ _ h => by cases h; rfl), references]
  congr 1
  by_cases hmain : s.MainUnreaped p
  · obtain ⟨P, hP, hu⟩ := hmain
    have hsing : { t | s.procRefs.holds (.thread t) = some p } = {P.mainThread} := by
      ext t
      rw [Set.mem_ofPred_eq, holds_thread_iff hm hc, Set.mem_singleton_iff]
      constructor
      · intro hholds
        obtain ⟨P', hP', ht, _⟩ := hholds
        rw [hP] at hP'
        cases hP'
        exact ht.symm
      · intro ht
        exact ⟨P, hP, ht.symm, ht ▸ hu⟩
    rw [hsing, Set.encard_singleton, if_pos ⟨P, hP, hu⟩]
  · have hempty : { t | s.procRefs.holds (.thread t) = some p } = ∅ := by
      ext t
      rw [Set.mem_ofPred_eq, holds_thread_iff hm hc]
      refine iff_of_false (fun hholds => ?_) (Set.notMem_empty t)
      obtain ⟨P, hP, rfl, hu⟩ := hholds
      exact hmain ⟨P, hP, hu⟩
    rw [hempty, Set.encard_empty, if_neg hmain]

structure Published (s : State) : Prop where
  kept : Kept (anything False) s
  listed : Listed s
  lives : Lives s

theorem reach_published (h : Reach kernelSystem (fun _ e => NoForge e) s) : Published s := by
  refine h.invariant (I := Published) ?_ ?_
  · intro s hs
    rw [show s = boot from hs]
    refine ⟨kept_boot _, ⟨nodup_nil, fun p => ?_⟩, fun p P hP => by cases hP⟩
    refine iff_of_false not_mem_nil fun ⟨n, hn⟩ => by cases hn
  · intro s e s' hpub hok hs
    have hl := step_lists (hpub.kept.base (step_running hs)) hs
    exact ⟨hpub.kept.step (allowed_anything hok) hs, hpub.listed.steps hl, hl.lives hpub.lives⟩

/-- A process is on the list as long as somebody refers to it. -/
theorem Published.mem_iff (h : Published s) (hf : s.fault = none) (p : ObjId) :
    p ∈ s.procList ↔ s.references p ≠ 0 := by
  have hb := h.kept.base hf
  rw [h.listed.mem p, ← encard_holders h.lives hb.counts h.kept.procCaps p]
  constructor
  · intro ⟨n, hn⟩
    rw [hb.counts.procs.card p _ hn]
    simp
  · intro hne
    obtain ⟨k, hk⟩ := Set.encard_ne_zero.mp hne
    exact hb.counts.procs.pos hk

/-- **The life of a process**, in runs that release a channel only when nobody else
can reach it. The list has every process with a reference left, whose count is the
number of its references; a process leaves the list in the step in which it has no
reference any more, and does not come back; and nobody refers to a process that has
left. -/
theorem process_lifetime (h : Reach kernelSystem (fun s e => NoForge e ∧ ReleasesAlone s e) s) :
    (s.procList.Nodup ∧ ∀ p, p ∈ s.procList → ∃ P, s.procs p = some P ∧ P.refcount = s.references p) ∧
    (∀ e s', NoForge e → ReleasesAlone s e → s.step e = some s' → ∀ p,
      (p ∈ s.procList → (p ∉ s'.procList ↔ s'.references p = 0)) ∧
      (p < s.nextObj → p ∉ s.procList → p ∉ s'.procList)) ∧
    (∀ q i c, s.capAt (.entry q i) = some c → c.kind = kindProcess → ¬ s.clearing q i →
      c.object ∈ s.procList) ∧
    (∀ t p, s.Unreaped t → s.process t = some p → p ∈ s.procList) ∧
    ∀ t q, s.ctl t = .wait q → q ∈ s.procList := by
  have hpub := reach_published (h.mono fun _ _ hok => hok.1)
  have hb := hpub.kept.base (reach_safe h).running
  -- whoever holds a reference finds the process on the list
  have hheld : ∀ {k : Holder} {p : ObjId}, s.procRefs.holds k = some p → p ∈ s.procList :=
    fun hk => (hpub.listed.mem _).mpr (hb.counts.procs.pos hk)
  refine ⟨⟨hpub.listed.nodup, fun p hp => ?_⟩, fun e s' hok hrel hs p => ⟨fun _ => ?_, fun hlt hp hp' => ?_⟩,
    fun q i c hc hk hcl => ?_, fun t p hu hp => ?_, fun t q hw => ?_⟩
  · obtain ⟨n, hn⟩ := (hpub.listed.mem p).mp hp
    obtain ⟨P, hP, hr⟩ := map_eq_some_iff.mp hn
    refine ⟨P, hP, ?_⟩
    rw [← encard_holders hpub.lives hb.counts hpub.kept.procCaps p, hb.counts.procs.card p _ hn, hr]
  · have hreach := h.step (e := e) ⟨hok, hrel⟩ hs
    have hpub' := reach_published (hreach.mono fun _ _ hok => hok.1)
    rw [hpub'.mem_iff (reach_safe hreach).running p, not_not]
  · rcases (step_lists hb hs).new.2 p hp' with hold | hnew
    · exact hp hold
    · exact Nat.not_le_of_lt hlt hnew
  · have howns := (hpub.kept.procCaps (.entry q i) c hc hk).1
    exact hheld ((holds_entry hpub.kept.procCaps).mpr ⟨c, hc, hk, howns, rfl, hcl⟩)
  · exact hheld (k := .thread t) ((if_pos hu).trans hp)
  · have hback := hb.waits t
    rw [hw] at hback
    obtain ⟨p, i, -, hentry⟩ := hback
    exact hheld hentry

end

def childExits : List Event :=
  startInit ++ [.syscall (.spawnElf 64 noHandle 0 spawnOk), .syscall .yield, .unwind, .idle, .enter,
    .syscall (.exit 7), .unwind, .unwind, .unwind]

/-- The handle of `init` is the last reference to its child, and closing it
destroys the child. -/
theorem process_lifetime_last_handle :
    ∃ s s', Reach kernelSystem (fun s e => NoForge e ∧ ReleasesAlone s e) s ∧ 1 ∈ s.procList ∧
      s.step (.syscall (.handleClose 0)) = some s' ∧ 1 ∉ s'.procList ∧ s'.references 1 = 0 := by
  obtain ⟨s, hs, hmem, hrel, s', hs', hgone⟩ :
      ∃ s ∈ kernelSystem.runOk (fun s e => NoForge e ∧ ReleasesAlone s e) boot childExits,
        1 ∈ s.procList ∧ ReleasesAlone s (.syscall (.handleClose 0)) ∧
        ∃ s' ∈ s.step (.syscall (.handleClose 0)), 1 ∉ s'.procList := by decide +kernel
  have hreach := Reach.runOk hs (.start rfl)
  obtain ⟨-, hlife, -⟩ := process_lifetime hreach
  have hok : NoForge (.syscall (.handleClose 0)) := trivial
  exact ⟨s, s', hreach, hmem, hs', hgone, ((hlife _ s' hok hrel hs' 1).1 hmem).mp hgone⟩

/-- The memory of the destroyed channel 2, as somebody else has written it since: one
message, with a capability that owns process 0. -/
def staleChannel : Channel :=
  { channelNew 1 8 with caps := fun _ => ⟨kindProcess, rightRead, 0, true, true⟩, count := 1 }

/-- **A handle that nothing backs.** `init` receives on its duplicate of a destroyed
channel, gets a handle on itself out of the memory that was freed, and its count is
one short. -/
theorem process_undercounted :
    ∃ s s' P, Reach kernelSystem (fun _ e => e.makesHandle = false) s ∧ s.fault = none ∧
      s.uses (.syscall (.ipcRecvCap 2 8 true)) = some 2 ∧ s.chans 2 = none ∧
      (s.setChan 2 staleChannel).step (.syscall (.ipcRecvCap 2 8 true)) = some s' ∧
      s'.procs 0 = some P ∧ P.refcount ≠ s'.references 0 := by
  obtain ⟨s, hs, hf, huses, hgone, s', hs', hwork, hcap, hstate, P, hP, href, hthread⟩ :
      ∃ s ∈ kernelSystem.runOk (fun _ e => e.makesHandle = false) boot
        (makeChannels ++ [.syscall (.ipcSendCap 0 8 blank 1 2), .syscall (.ipcRecvCap 0 8 true),
          .syscall (.handleClose 1)]),
        s.fault = none ∧ s.uses (.syscall (.ipcRecvCap 2 8 true)) = some 2 ∧
        (s.chans 2).isNone = true ∧
        ∃ s' ∈ (s.setChan 2 staleChannel).step (.syscall (.ipcRecvCap 2 8 true)), s'.work = [] ∧
          s'.capAt (.entry 0 3) = some ⟨kindProcess, rightRead, 0, true⟩ ∧
          (s'.sched.state 1).isSome = true ∧
          ∃ P ∈ s'.procs 0, P.refcount = 1 ∧ P.mainThread = 1 := by decide +kernel
  refine ⟨s, s', P, Reach.runOk hs (.start rfl), hf, huses, isNone_iff_eq_none.mp hgone, hs', hP, ?_⟩
  have hmain : s'.MainUnreaped 0 := ⟨P, hP, by rw [hthread]; exact ⟨hstate, by simp [dying, hwork]⟩⟩
  have hmem : (0, 3) ∈ s'.handlesOn 0 := ⟨_, hcap, rfl, rfl, rfl, by simp [clearing, hwork]⟩
  have hone : 1 ≤ (s'.handlesOn 0).encard := Set.one_le_encard_iff_nonempty.mpr ⟨_, hmem⟩
  rw [references, if_pos hmain, href]
  refine ne_of_lt (lt_of_lt_of_le ?_ (add_le_add_right hone 1))
  exact Nat.cast_lt.mpr Nat.one_lt_two

end Exyde.Kernel
