import Xv6.Lib.Reach
import Xv6.Vm.Process

/-! `exec` (`kernel/exec.c`) with the argument pages of `sys_exec` (`kernel/sysfile.c`), and the whole system of
    processes. -/

namespace Xv6.Vm
open Lib

/-- An executable as `readi` returns it: at most the bytes asked for. -/
structure File where
  readi : (off n : Nat) → List UInt8
  length_le : ∀ off n, (readi off n).length ≤ n

def field (l : List UInt8) (o : Nat) : Nat → Nat
  | 0 => 0
  | k + 1 => (l.getD o 0).toNat + 256 * field l (o + 1) k

def ELF_MAGIC : Nat := 0x464C457F
def ELF_PROG_LOAD : Nat := 1

/-- `struct elfhdr`, as far as `exec` reads it. -/
structure Elfhdr where
  magic : Nat
  entry : Nat
  phoff : Nat
  phnum : Nat

def Elfhdr.size : Nat := 64

def Elfhdr.ofBytes (l : List UInt8) : Elfhdr :=
  { magic := field l 0 4, entry := field l 24 8, phoff := field l 32 8, phnum := field l 56 2 }

/-- `struct proghdr`, as far as `exec` reads it. -/
structure Proghdr where
  type : Nat
  flags : Nat
  off : Nat
  vaddr : Nat
  filesz : Nat
  memsz : Nat

def Proghdr.size : Nat := 56

def Proghdr.ofBytes (l : List UInt8) : Proghdr :=
  { type := field l 0 4, flags := field l 4 4, off := field l 8 8, vaddr := field l 16 8, filesz := field l 32 8,
    memsz := field l 40 8 }

def flags2perm (flags : Nat) : Nat :=
  (if has flags 1 then PTE_X else 0) ||| (if has flags 2 then PTE_W else 0)

/-- `offset` and `sz` are of type `uint`. -/
def loadseg (pagetable va : Nat) (ip : File) (offset sz : Nat) : VmM Int := do
  let r ← forUp .stuck PGSIZE (2 ^ 32) 0 sz fun i => do
    let pa ← walkaddr pagetable ((va + i) % 2 ^ 64)
    if pa = 0 then halt (.panic "loadseg: address should exist")
    let n := if sz - i < PGSIZE then sz - i else PGSIZE
    let l := ip.readi ((offset + i) % 2 ^ 32) n
    change fun s => s.setBytes pa l
    if l.length ≠ n then pure (some (-1)) else pure none
  pure (r.getD 0)

/-- The loop over the program headers, from the one at file offset `off`. It returns the size so far, and `false`
    for `goto bad`. -/
def loadSegments (L : Layout) (pagetable : Nat) (ip : File) : Nat → Nat → Nat → VmM (Nat × Bool)
  | 0, _, sz => pure (sz, true)
  | rounds + 1, off, sz => do
    let l := ip.readi off Proghdr.size
    if l.length ≠ Proghdr.size then pure (sz, false)
    else
      let ph := Proghdr.ofBytes l
      let next := (off + Proghdr.size) % 2 ^ 32
      if ph.type ≠ ELF_PROG_LOAD then loadSegments L pagetable ip rounds next sz
      else if ph.memsz < ph.filesz then pure (sz, false)
      else if (ph.vaddr + ph.memsz) % 2 ^ 64 < ph.vaddr then pure (sz, false)
      else if ph.vaddr % PGSIZE ≠ 0 then pure (sz, false)
      else
        let sz1 ← uvmalloc L pagetable sz ((ph.vaddr + ph.memsz) % 2 ^ 64) (flags2perm ph.flags)
        if sz1 = 0 then pure (sz, false)
        else
          let r ← loadseg pagetable ph.vaddr ip (ph.off % 2 ^ 32) (ph.filesz % 2 ^ 32)
          if r < 0 then pure (sz1, false) else loadSegments L pagetable ip rounds next sz1

def sub64 (a b : Nat) : Nat := (a + 2 ^ 64 - b % 2 ^ 64) % 2 ^ 64

/-- The NUL-terminated string in the page `a`, without the NUL. -/
def Sys.cstr (s : Sys) (a : Nat) : List UInt8 := (s.bytes a PGSIZE).takeWhile (· ≠ 0)

/-- Push the strings of `argv`, of which `argc` are pushed already; nothing for `goto bad`. -/
def pushStrings (pagetable stackbase : Nat) : List Nat → Nat → Nat → VmM (Option (Nat × List Nat))
  | [], _, sp => pure (some (sp, []))
  | arg :: argv, argc, sp => do
    if MAXARG ≤ argc then pure none
    else
      let str ← view fun s => s.cstr arg
      let sp := sub64 sp (str.length + 1)
      let sp := sp - sp % 16
      if sp < stackbase then pure none
      else
        let r ← copyout pagetable sp (str ++ [0])
        if r < 0 then pure none
        else
          let rest ← pushStrings pagetable stackbase argv (argc + 1) sp
          pure (rest.map fun (sp', ustack) => (sp', sp :: ustack))

def wordBytes (l : List Nat) : List UInt8 := l.flatMap fun w => (List.range 8).map fun k => UInt8.ofNat (w / 256 ^ k)

/-- Push the strings and the array of their addresses; the new stack pointer. -/
def pushArgs (pagetable sz : Nat) (argv : List Nat) : VmM (Option Nat) := do
  let stackbase := sz - USERSTACK * PGSIZE
  match ← pushStrings pagetable stackbase argv 0 sz with
  | none => pure none
  | some (sp, ustack) =>
    let sp := sub64 sp ((ustack.length + 1) * 8)
    let sp := sp - sp % 16
    if sp < stackbase then pure none
    else
      let r ← copyout pagetable sp (wordBytes (ustack ++ [0]))
      if r < 0 then pure none else pure (some sp)

def lastElem (path : List UInt8) : List UInt8 := (path.reverse.takeWhile (· ≠ 0x2f)).reverse

/-- `bad:` with a page table -/
def execBad (L : Layout) (pagetable sz : Nat) : VmM Int := do
  procFreepagetable L pagetable sz
  pure (-1)

def execCommit (L : Layout) (i : Slot) (path : List UInt8) (pagetable sz sp entry : Nat) : VmM Unit := do
  let p ← view fun s => s.proc i
  store (p.trapframe + tfA1) sp
  onProc i (·.setName (safestrcpy (lastElem path) 16))
  onProc i (·.setPagetable pagetable)
  onProc i (·.setSz sz)
  store (p.trapframe + tfEpc) entry
  store (p.trapframe + tfSp) sp
  procFreepagetable L p.pagetable p.sz

/-- `exec`, from the point where the segments are loaded. -/
def execStack (L : Layout) (i : Slot) (path : List UInt8) (argv : List Nat) (pagetable sz entry : Nat) : VmM Int := do
  let sz := pgRoundUp sz
  let sz1 ← uvmalloc L pagetable sz ((sz + (USERSTACK + 1) * PGSIZE) % 2 ^ 64) PTE_W
  if sz1 = 0 then execBad L pagetable sz
  else
    uvmclear pagetable (sub64 sz1 ((USERSTACK + 1) * PGSIZE))
    match ← pushArgs pagetable sz1 argv with
    | none => execBad L pagetable sz1
    | some sp =>
      execCommit L i path pagetable sz1 sp entry
      pure argv.length

/-- `namei` is the file system's answer for a path. -/
def exec (L : Layout) (i : Slot) (namei : List UInt8 → Option File) (path : List UInt8) (argv : List Nat) :
    VmM Int := do
  match namei path with
  | none => pure (-1)
  | some ip =>
    let l := ip.readi 0 Elfhdr.size
    if l.length ≠ Elfhdr.size then pure (-1)
    else
      let elf := Elfhdr.ofBytes l
      if elf.magic ≠ ELF_MAGIC then pure (-1)
      else
        let p ← view fun s => s.proc i
        let pagetable ← procPagetable L p.trapframe
        if pagetable = 0 then pure (-1)
        else
          let (sz, ok) ← loadSegments L pagetable ip elf.phnum (elf.phoff % 2 ^ 32) 0
          if !ok then execBad L pagetable sz else execStack L i path argv pagetable sz elf.entry

def fetchaddr (i : Slot) (addr : Nat) : VmM (Int × Nat) := do
  let p ← view fun s => s.proc i
  if p.sz ≤ addr ∨ p.sz < (addr + 8) % 2 ^ 64 then pure (-1, 0)
  else
    let r ← copyin p.pagetable addr 8
    if r.1 ≠ 0 then pure (-1, 0) else pure (0, field r.2 0 8)

def fetchstr (i : Slot) (addr max : Nat) : VmM (Int × List UInt8) := do
  let p ← view fun s => s.proc i
  copyinstr p.pagetable addr max

/-- Fetch the arguments into pages of their own, `argv` being those so far; `false` for `goto bad`. -/
def fetchArgs (i : Slot) (uargv : Nat) : Nat → List Nat → VmM (List Nat × Bool)
  | 0, argv => pure (argv, false)
  | rounds + 1, argv => do
    let (r, uarg) ← fetchaddr i ((uargv + 8 * argv.length) % 2 ^ 64)
    if r < 0 then pure (argv, false)
    else if uarg = 0 then pure (argv, true)
    else
      let page ← kalloc
      if page = 0 then pure (argv, false)
      else
        let (r, l) ← fetchstr i uarg PGSIZE
        change fun s => s.setBytes page l
        if r < 0 then pure (argv ++ [page], false) else fetchArgs i uargv rounds (argv ++ [page])

def freeArgs (L : Layout) : List Nat → VmM Unit
  | [] => pure ()
  | page :: argv => do
    kfree L page
    freeArgs L argv

def sysExec (L : Layout) (i : Slot) (namei : List UInt8 → Option File) (upath uargv : Nat) : VmM Int := do
  let (r, l) ← fetchstr i upath MAXPATH
  if r < 0 then pure (-1)
  else
    let (argv, ok) ← fetchArgs i uargv MAXARG []
    let ret ← if ok then exec L i namei (l.takeWhile (· ≠ 0)) argv else pure (-1)
    freeArgs L argv
    pure ret

inductive Call where
  | fork
  | sbrk (n : BitVec 32)
  | exec (namei : List UInt8 → Option File) (upath uargv : Nat)
  | exit (status : BitVec 32)
  | wait (addr : Nat)
  | pipe (f0 f1 : Bool)
  -- the last close of one end of the pipe in page `pa`
  | pipeclose (pa : Nat) (writable : Bool)
  -- a user store, which `copyout` models: it takes effect on pages that the user may write
  | write (va : Nat) (byte : UInt8)

/-- A call by the process in slot `proc`, with the calls of `kalloc` that find no memory and the one to look at. -/
structure Action where
  proc : Slot
  call : Call
  refuse : Nat → Bool
  watch : Option Nat

def Sys.start (s : Sys) (a : Action) : Sys := { s with refuse := a.refuse, watch := a.watch, calls := 0 }

def dispatch (L : Layout) (i : Slot) : Call → VmM Unit
  | .fork => do let _ ← fork L i
  | .sbrk n => do let _ ← growproc L i n
  | .exec namei upath uargv => do let _ ← sysExec L i namei upath uargv
  | .exit status => exit i status
  | .wait addr => do let _ ← wait L i addr
  | .pipe f0 f1 => do let _ ← pipealloc f0 f1
  | .pipeclose pa writable => pipeclose L pa writable
  | .write va byte => do
    let p ← view fun s => s.proc i
    let _ ← copyout p.pagetable va [byte]

def step (L : Layout) (s : Sys) (a : Action) : Except (Stop × Sys) Sys :=
  if (s.proc a.proc).state = .runnable then
    match dispatch L a.proc a.call (s.start a) with
    | .ok _ t => .ok t
    | .error e t => .error (e, t)
  else .ok s

def takePages : Nat → VmM Unit
  | 0 => pure ()
  | n + 1 => do
    let pa ← kalloc
    if pa = 0 then halt .fault
    change fun s => { s with kernel := pa :: s.kernel }
    takePages n

/-- `main` as far as it allocates memory: the kernel and its drivers take `n` pages. -/
def boot (L : Layout) (n : Nat) : VmM Unit := do
  kinit L
  takePages n
  userinit L

/-- The state when the kernel starts: nothing is allocated and no process exists. -/
structure Cold (s : Sys) : Prop where
  freelist : s.freelist = 0
  proc : ∀ i, s.proc i = { state := .unused, pid := 0, parent := none, xstate := 0, sz := 0, pagetable := 0,
                           trapframe := 0, name := [] }
  pipes : s.pipes = []
  kernel : s.kernel = []

end Xv6.Vm
