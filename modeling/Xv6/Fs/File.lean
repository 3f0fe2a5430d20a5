import Xv6.Fs.Dir

/-! Open files: `kernel/file.c`, the allocation and closing of pipes in `kernel/pipe.c`, and descriptors. -/

namespace Xv6.Fs
open Lib

def Sys.setFile (s : Sys) (i : Fin NFILE) (f : File) : Sys := { s with ftable := Function.update s.ftable i f }

section
variable (s : Sys) (i j : Fin NFILE) (f : File)

@[simp] theorem setFile_self : (s.setFile i f).ftable i = f := Function.update_self ..
theorem setFile_ftable : (s.setFile i f).ftable j = if j = i then f else s.ftable j := Function.update_apply ..
@[simp] theorem setFile_pipe : (s.setFile i f).pipe = s.pipe := rfl

end

def onFile (i : Fin NFILE) (g : File → File) : M Unit := change fun s => s.setFile i (g (s.ftable i))

def Sys.setProc (s : Sys) (p : Fin NPROC) (x : Proc) : Sys := { s with proc := Function.update s.proc p x }

section
variable (s : Sys) (p q : Fin NPROC) (x : Proc)

@[simp] theorem setProc_self : (s.setProc p x).proc p = x := Function.update_self ..
theorem setProc_proc : (s.setProc p x).proc q = if q = p then x else s.proc q := Function.update_apply ..
@[simp] theorem setProc_ftable : (s.setProc p x).ftable = s.ftable := rfl

end

def onProc (p : Fin NPROC) (g : Proc → Proc) : M Unit := change fun s => s.setProc p (g (s.proc p))

def Proc.setFd (x : Proc) (fd : Fin NOFILE) (f : Option (Fin NFILE)) : Proc :=
  { x with ofile := Function.update x.ofile fd f }

def Proc.setCwd (x : Proc) (cwd : Option (Fin NINODE)) : Proc := { x with cwd }

def File.setRef (f : File) (ref : Int) : File := { f with ref }
def File.setOff (f : File) (off : Nat) : File := { f with off }

def filealloc : M (Option (Fin NFILE)) := do
  match ← view fun s => (List.finRange NFILE).find? fun i => (s.ftable i).ref == 0 with
  | some i =>
    onFile i (·.setRef 1)
    pure (some i)
  | none => pure none

def filedup (i : Fin NFILE) : M Unit := do
  let f ← view fun s => s.ftable i
  stopIf (f.ref < 1) (.panic "filedup")
  onFile i fun f => f.setRef (f.ref + 1)

def Sys.setPipe (s : Sys) (pi : Nat) (x : Option Pipe) : Sys := { s with pipe := Function.update s.pipe pi x }

section
variable (s : Sys) (pi : Nat) (x : Option Pipe)

@[simp] theorem setPipe_ftable : (s.setPipe pi x).ftable = s.ftable := rfl

end

/-- `kalloc` for a pipe: a page that is not in use, if there is one. -/
def pipePage (page : Option Nat) : M (Option Nat) := view fun s =>
  match page with
  | some pi => if (s.pipe pi).isNone then some pi else none
  | none => none

def pipeclose (pi : Nat) (writable : Bool) : M Unit := do
  match ← view fun s => s.pipe pi with
  | none => halt .fault
  | some x =>
    let x := if writable then { x with writeopen := false } else { x with readopen := false }
    if x.readopen = false ∧ x.writeopen = false then change fun s => s.setPipe pi none
    else change fun s => s.setPipe pi (some x)

section
variable (sb : Superblock)

def fileclose (i : Fin NFILE) : M Unit := do
  let f ← view fun s => s.ftable i
  stopIf (f.ref < 1) (.panic "fileclose")
  onFile i fun f => f.setRef (f.ref - 1)
  if f.ref - 1 > 0 then pure ()
  else
    onFile i fun f => { f with ref := 0, type := .none }
    match f.type with
    | .pipe => pipeclose f.pipe f.writable
    | .inode | .device =>
      beginOp
      iput sb f.ip
      endOp
    | .none => pure ()

/-- `bad` of `pipealloc`, after as many files as there are in the list. -/
def pipeallocBad : List (Fin NFILE) → M (Option (Fin NFILE × Fin NFILE))
  | [] => pure none
  | i :: rest => do
    fileclose sb i
    pipeallocBad rest

def pipealloc (page : Option Nat) : M (Option (Fin NFILE × Fin NFILE)) := do
  match ← filealloc with
  | none => pipeallocBad sb []
  | some f0 =>
    match ← filealloc with
    | none => pipeallocBad sb [f0]
    | some f1 =>
      match ← pipePage page with
      | none => pipeallocBad sb [f0, f1]
      | some pi =>
        change fun s => s.setPipe pi (some ⟨true, true⟩)
        onFile f0 fun f => { f with type := .pipe, readable := true, writable := false, pipe := pi }
        onFile f1 fun f => { f with type := .pipe, readable := false, writable := true, pipe := pi }
        pure (some (f0, f1))

/-- Get metadata about a file. `ok`: the copy to user space succeeds. -/
def filestat (i : Fin NFILE) (ok : Bool) : M Int := do
  let f ← view fun s => s.ftable i
  if f.type = .inode ∨ f.type = .device then
    ilock sb f.ip
    iunlock sb f.ip
    pure (if ok then 0 else -1)
  else pure (-1)

def badMajor (major : Int16) : Bool := major.toInt < 0 || major.toInt ≥ NDEV

/-- `devsw` has functions for the console only. -/
def hasDriver (major : Int16) : Bool := major = 1

/-- Read from a file. `n` is an `int`; `r` is what a pipe or a device returns. -/
def fileread (i : Fin NFILE) (n : Int) (dst : Sink) (r : Int) : M Int := do
  let f ← view fun s => s.ftable i
  if f.readable = false then pure (-1)
  else
    match f.type with
    | .pipe => pure r
    | .device => if badMajor f.major ∨ hasDriver f.major = false then pure (-1) else pure r
    | .inode =>
      ilock sb f.ip
      let (r, _) ← readi sb f.ip dst f.off (n % 2 ^ 32).toNat
      doIf (r > 0) (onFile i fun f => f.setOff ((f.off + r.toNat) % 2 ^ 32))
      iunlock sb f.ip
      pure r
    | .none => halt (.panic "fileread")

def maxWrite : Nat := (MAXOPBLOCKS - 1 - 1 - 2) / 2 * BSIZE

/-- The loop of `filewrite`, from byte `i` on. It returns how many bytes have been written without an error. -/
def filewriteLoop (k : Fin NFILE) (src : Source) (n : Nat) : Nat → Nat → M Nat
  | 0, i => pure i
  | rounds + 1, i =>
    if i < n then do
      let n1 := min (n - i) maxWrite
      beginOp
      let f ← view fun s => s.ftable k
      ilock sb f.ip
      let r ← writei sb f.ip (src.drop i) f.off n1
      doIf (r > 0) (onFile k fun f => f.setOff ((f.off + r.toNat) % 2 ^ 32))
      iunlock sb f.ip
      endOp
      if r ≠ n1 then pure i else filewriteLoop k src n rounds (i + n1)
    else pure i

/-- Write to a file. `n` is an `int`; `r` is what a pipe or a device returns. -/
def filewrite (k : Fin NFILE) (n : Int) (src : Source) (r : Int) : M Int := do
  let f ← view fun s => s.ftable k
  if f.writable = false then pure (-1)
  else
    match f.type with
    | .pipe => pure r
    | .device => if badMajor f.major ∨ hasDriver f.major = false then pure (-1) else pure r
    | .inode =>
      let i ← filewriteLoop sb k src n.toNat n.toNat 0
      pure (if (i : Int) = n then n else -1)
    | .none => halt (.panic "filewrite")

end

/-- `fd` is a descriptor and the process has a file there. -/
def argfd (p : Fin NPROC) (fd : Int) : M (Option (Fin NOFILE × Fin NFILE)) := view fun s =>
  if h : 0 ≤ fd ∧ fd.toNat < NOFILE then ((s.proc p).ofile ⟨fd.toNat, h.2⟩).map fun f => (⟨fd.toNat, h.2⟩, f) else none

/-- Allocate a file descriptor for the given file. Takes over file reference from caller on success. -/
def fdalloc (p : Fin NPROC) (f : Fin NFILE) : M (Option (Fin NOFILE)) := do
  match ← view fun s => (List.finRange NOFILE).find? fun fd => ((s.proc p).ofile fd).isNone with
  | some fd =>
    onProc p (·.setFd fd (some f))
    pure (some fd)
  | none => pure none

end Xv6.Fs
