import Exyde.Lib.Objects

/-! # The process environment

`getenv`, `setenv` and `unsetenv` on a memory of objects. The array of pointers lies on
the stack until the first change, which copies it to the heap together with an array of
flags that says which strings are to be given back. Reading a cell that is not there or
has never been written, and giving back what is not on the heap, are traps. The
allocator may fail at every call. -/

namespace Exyde.Libc

open Exyde.Lib

/-- The characters of a C string, without the end mark. -/
abbrev CStr := { l : List Nat // 0 ∉ l }

/-- What the allocator does with a request. A block may be made larger where it is. -/
inductive Answer
  | fail
  | fresh
  | same
  deriving DecidableEq

inductive Errno
  | enomem
  | einval
  deriving DecidableEq

structure EnvVars where
  environ : Nat
  envArr : Nat
  envOwned : Nat
  envCap : Nat
  envCount : Nat
  envIsOwned : Bool

structure EnvState where
  objs : Objects
  answers : List Answer
  errno : Option Errno
  vars : EnvVars

abbrev EnvM := Trap EnvState

/-! ## Memory -/

def loadCell (p i : Nat) : EnvM Nat := .read fun s => s.objs.load p i

def storeCell (p i x : Nat) : EnvM Unit := fun s =>
  (s.objs.store p i x).map fun m => ((), { s with objs := m })

def slots (p : Nat) : EnvM Nat := .read fun s => (s.objs.get p).map fun o => o.cells.length

def allocate (cells : List (Option Nat)) : EnvM Nat := fun s =>
  if s.answers.headD .fail = .fail then some (0, { s with answers := s.answers.tail })
  else some (s.objs.next, { s with objs := s.objs.alloc cells, answers := s.answers.tail })

def malloc (n : Nat) : EnvM Nat := allocate (List.replicate n none)

def calloc (n : Nat) : EnvM Nat := allocate (List.replicate n (some 0))

def resized (cells : List (Option Nat)) (n : Nat) : List (Option Nat) :=
  cells.take n ++ List.replicate (n - cells.length) none

def realloc (p n : Nat) : EnvM Nat := fun s =>
  (s.objs.get p).bind fun o =>
    if o.heap = true then
      match s.answers.headD .fail with
      | .fail => some (0, { s with answers := s.answers.tail })
      | .fresh => some (s.objs.next, { s with
          objs := (s.objs.alloc (resized o.cells n)).set p none, answers := s.answers.tail })
      | .same => some (p, { s with
          objs := s.objs.set p (some { o with cells := resized o.cells n }),
          answers := s.answers.tail })
    else none

def free (p : Nat) : EnvM Unit := fun s =>
  if p = 0 then some ((), s) else (s.objs.release p).map fun m => ((), { s with objs := m })

def setErrno (e : Errno) : EnvM Unit := .change fun s => { s with errno := some e }

def vars : EnvM EnvVars := .read fun s => some s.vars

def setVars (f : EnvVars → EnvVars) : EnvM Unit := .change fun s => { s with vars := f s.vars }

/-! ## Strings -/

def equalsSign : Nat := 61

/-- `strncmp` of the string at `p`, from character `i` on. -/
def strncmp (p : Nat) (name : List Nat) : Nat → Nat → EnvM Int
  | 0, _ => pure 0
  | n + 1, i => do
    let ca ← loadCell p i
    let cb := name.getD i 0
    if ca ≠ cb then pure ((ca : Int) - cb)
    else if ca = 0 then pure 0
    else strncmp p name n (i + 1)

/-- `memcpy` of `n` characters of a string to the cells from `off` on; the character behind
the last one is the end mark. -/
def memcpyTo (p off : Nat) (str : List Nat) (n : Nat) : EnvM Unit :=
  .forEach (fun i => storeCell p (off + i) (str.getD i 0)) (List.range n)

/-! ## Helpers -/

/-- The loop of `count_env`. It reads no cell twice, so it has as many rounds as there
are cells. -/
def countFrom (e : Nat) : Nat → Nat → EnvM Nat
  | 0, _ => .trap
  | rounds + 1, n => do
    let p ← loadCell e n
    if p ≠ 0 then countFrom e rounds (n + 1) else pure n

def countEnv (e : Nat) : EnvM Nat :=
  if e ≠ 0 then do
    let rounds ← slots e
    countFrom e rounds 0
  else pure 0

/-- The second half of `promote`, with both arrays allocated. -/
def adopt (n cap arr own : Nat) : EnvM Int := do
  let v ← vars
  .forEach (fun i => do
    let p ← loadCell v.environ i
    storeCell arr i p) (List.range n)
  storeCell arr n 0
  setVars fun _ => ⟨arr, arr, own, cap, n, true⟩
  pure 0

def promote : EnvM Int := do
  let v ← vars
  if v.envIsOwned = true then pure 0
  else
    let n ← countEnv v.environ
    let cap := n + 8
    let arr ← malloc cap
    if arr = 0 then do
      setErrno .enomem
      pure (-1)
    else
      let own ← calloc cap
      if own = 0 then do
        free arr
        setErrno .enomem
        pure (-1)
      else adopt n cap arr own

def copyFlags (nown cap ncap own : Nat) : EnvM Unit := do
  .forEach (fun i => do
    let x ← loadCell own i
    storeCell nown i x) (List.range cap)
  .forEach (fun i => storeCell nown i 0) (List.range' cap (ncap - cap))

def ensureSlot : EnvM Int := do
  let v ← vars
  if v.envCap ≥ v.envCount + 2 then pure 0
  else
    let ncap := if v.envCap ≠ 0 then v.envCap * 2 else 16
    let nown ← malloc ncap
    if nown = 0 then do
      setErrno .enomem
      pure (-1)
    else
      copyFlags nown v.envCap ncap v.envOwned
      let narr ← realloc v.envArr ncap
      if narr = 0 then do
        free nown
        setErrno .enomem
        pure (-1)
      else
        free v.envOwned
        setVars fun v => { v with envOwned := nown, envArr := narr, environ := narr, envCap := ncap }
        pure 0

def makeEntry (name value : CStr) : EnvM Nat := do
  let nl := name.val.length
  let vl := value.val.length
  let s ← malloc (nl + 1 + vl + 1)
  if s = 0 then pure 0
  else
    memcpyTo s 0 name.val nl
    storeCell s nl equalsSign
    memcpyTo s (nl + 1) value.val (vl + 1)
    pure s

/-- `strncmp(*e, name, nl) == 0 && (*e)[nl] == '='` for the string at `p`. -/
def entryIs (p : Nat) (name : CStr) : EnvM Bool := do
  let c ← strncmp p name.val name.val.length 0
  if c = 0 then do
    let d ← loadCell p name.val.length
    pure (decide (d = equalsSign))
  else pure false

/-- The scan that all three functions have, from slot `i` on. -/
def findFrom (e : Nat) (name : CStr) : Nat → Nat → EnvM (Option Nat)
  | 0, _ => .trap
  | rounds + 1, i => do
    let p ← loadCell e i
    if p = 0 then pure none
    else
      let hit ← entryIs p name
      if hit = true then pure (some i) else findFrom e name rounds (i + 1)

def findEntry (name : CStr) : EnvM (Option Nat) := do
  let v ← vars
  if v.environ = 0 then pure none
  else
    let rounds ← slots v.environ
    findFrom v.environ name rounds 0

/-- `!*name || strchr(name, '=')` -/
def BadName (name : CStr) : Prop := name.val = [] ∨ equalsSign ∈ name.val

instance instDecidableBadName (name : CStr) : Decidable (BadName name) :=
  inferInstanceAs (Decidable (_ ∨ _))

/-! ## The functions -/

/-- `getenv`; `none` for the name is the null pointer. The answer is a pointer into the
string of an entry: the string and the number of the character. -/
def getenv : Option CStr → EnvM (Option (Nat × Nat))
  | none => pure none
  | some name =>
    if BadName name then pure none
    else do
      let hit ← findEntry name
      match hit with
      | none => pure none
      | some i =>
        let v ← vars
        let p ← loadCell v.environ i
        pure (some (p, name.val.length + 1))

/-- `if (env_owned[idx]) free(env_arr[idx])` -/
def dropString (v : EnvVars) (idx : Nat) : EnvM Unit := do
  let owned ← loadCell v.envOwned idx
  if owned ≠ 0 then do
    let p ← loadCell v.envArr idx
    free p
  else pure ()

def replaceEntry (idx : Nat) (name value : CStr) : EnvM Int := do
  let r ← promote
  if r < 0 then pure (-1)
  else
    let nstr ← makeEntry name value
    if nstr = 0 then do
      setErrno .enomem
      pure (-1)
    else
      let v ← vars
      dropString v idx
      storeCell v.envArr idx nstr
      storeCell v.envOwned idx 1
      pure 0

def appendEntry (name value : CStr) : EnvM Int := do
  let r ← promote
  if r < 0 then pure (-1)
  else
    let r ← ensureSlot
    if r < 0 then pure (-1)
    else
      let nstr ← makeEntry name value
      if nstr = 0 then do
        setErrno .enomem
        pure (-1)
      else
        let v ← vars
        storeCell v.envArr v.envCount nstr
        storeCell v.envOwned v.envCount 1
        setVars fun v => { v with envCount := v.envCount + 1 }
        storeCell v.envArr (v.envCount + 1) 0
        pure 0

def putEntry (name value : CStr) (overwrite : Bool) : EnvM Int := do
  let hit ← findEntry name
  match hit with
  | some idx => if overwrite = true then replaceEntry idx name value else pure 0
  | none => appendEntry name value

def refuse : EnvM Int := do
  setErrno .einval
  pure (-1)

def setenv : Option CStr → Option CStr → Bool → EnvM Int
  | none, _, _ => refuse
  | some name, value, overwrite =>
    if BadName name then refuse
    else
      match value with
      | none => refuse
      | some value => putEntry name value overwrite

def closeGap (arr own idx count : Nat) : EnvM Unit :=
  .forEach (fun i => do
    let p ← loadCell arr (i + 1)
    storeCell arr i p
    let x ← loadCell own (i + 1)
    storeCell own i x) (List.range' idx (count - 1 - idx))

def removeEntry (idx : Nat) : EnvM Int := do
  let r ← promote
  if r < 0 then pure (-1)
  else
    let v ← vars
    dropString v idx
    closeGap v.envArr v.envOwned idx v.envCount
    setVars fun v => { v with envCount := v.envCount - 1 }
    storeCell v.envArr (v.envCount - 1) 0
    storeCell v.envOwned (v.envCount - 1) 0
    pure 0

def unsetenv : Option CStr → EnvM Int
  | none => refuse
  | some name =>
    if BadName name then refuse
    else do
      let hit ← findEntry name
      match hit with
      | none => pure 0
      | some idx => removeEntry idx

end Exyde.Libc
