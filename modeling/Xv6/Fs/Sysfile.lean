import Xv6.Fs.File
import Xv6.Lib.Reach

/-! The file-system calls of `kernel/sysfile.c`, and what `fork`, `exit` and `exec` do to open files and inodes. What
    a call gets from user space and from the page allocator is an argument. -/

namespace Xv6.Fs
open Lib

def O_RDONLY : Nat := 0x000
def O_WRONLY : Nat := 0x001
def O_RDWR : Nat := 0x002
def O_CREATE : Nat := 0x200
def O_TRUNC : Nat := 0x400

/-- A path argument: `none` if it cannot be read, and it must fit the buffer with its NUL. -/
def argstr (path : Option Path) : Option Path :=
  match path with
  | some l => if (l.takeWhile (· ≠ 0)).length < MAXPATH then some (l.takeWhile (· ≠ 0)) else none
  | none => none

section
variable (sb : Superblock) (p : Fin NPROC)

def sysDup (fd : Int) : M Int := do
  match ← argfd p fd with
  | none => pure (-1)
  | some (_, f) =>
    match ← fdalloc p f with
    | none => pure (-1)
    | some fd =>
      filedup f
      pure fd.val

def sysRead (fd n : Int) (dst : Sink) (r : Int) : M Int := do
  match ← argfd p fd with
  | none => pure (-1)
  | some (_, f) => fileread sb f n dst r

def sysWrite (fd n : Int) (src : Source) (r : Int) : M Int := do
  match ← argfd p fd with
  | none => pure (-1)
  | some (_, f) => filewrite sb f n src r

def sysClose (fd : Int) : M Int := do
  match ← argfd p fd with
  | none => pure (-1)
  | some (fd, f) =>
    onProc p (·.setFd fd none)
    fileclose sb f
    pure 0

def sysFstat (fd : Int) (ok : Bool) : M Int := do
  match ← argfd p fd with
  | none => pure (-1)
  | some (_, f) => filestat sb f ok

def setNlink (ip : Fin NINODE) (g : Int16 → Int16) : M Unit := do
  onInode ip fun x => x.setD (x.d.setNlink (g x.d.nlink))
  iupdate sb ip

def linkBad (ip : Fin NINODE) : M Int := do
  ilock sb ip
  setNlink sb ip (· - 1)
  iunlockput sb ip
  endOp
  pure (-1)

/-- `sys_link`, from `ip->nlink++` on. -/
def linkTo (ip : Fin NINODE) (new : Path) : M Int := do
  setNlink sb ip (· + 1)
  iunlock sb ip
  match ← nameiparent sb p new with
  | none => linkBad sb ip
  | some (dp, name) =>
    ilock sb dp
    let x ← view fun s => s.itable ip
    let r ← dirlink sb dp name x.inum
    iunlockput sb dp
    if r < 0 then linkBad sb ip
    else
      iput sb ip
      endOp
      pure 0

/-- Create the path `new` as a link to the same inode as `old`. -/
def sysLink (old new : Option Path) : M Int := do
  match argstr old, argstr new with
  | some old, some new =>
    beginOp
    match ← namei sb p old with
    | none =>
      endOp
      pure (-1)
    | some ip =>
      ilock sb ip
      let x ← view fun s => s.itable ip
      if x.d.type = T_DIR then
        iunlockput sb ip
        endOp
        pure (-1)
      else linkTo sb p ip new
  | _, _ => pure (-1)

def isdirempty (dp : Fin NINODE) : M Bool := do
  let x ← view fun s => s.itable dp
  let r ← forUp .stuck DESIZE (2 ^ 31) (2 * DESIZE) x.d.size.toNat fun off => do
    let de ← readDirent sb dp off "isdirempty: readi"
    if de.inum ≠ 0 then pure (some ()) else pure none
  pure r.isNone

def unlinkBad (dp : Fin NINODE) : M Int := do
  iunlockput sb dp
  endOp
  pure (-1)

/-- `sys_unlink`, from the `memset` on: remove the entry of `ip` at offset `off` of `dp`. -/
def unlinkAt (dp ip : Fin NINODE) (off : Nat) : M Int := do
  let r ← writei sb dp (.kernel Dirent.zero.bytes) off DESIZE
  stopIf (r ≠ DESIZE) (.panic "unlink: writei")
  let x ← view fun s => s.itable ip
  doIf (x.d.type = T_DIR) (setNlink sb dp (· - 1))
  iunlockput sb dp
  setNlink sb ip (· - 1)
  iunlockput sb ip
  endOp
  pure 0

/-- `sys_unlink`, after `ilock(dp)`. -/
def unlinkIn (dp : Fin NINODE) (name : List UInt8) : M Int := do
  -- cannot unlink "." or ".."
  if namecmpEq name [dot] ∨ namecmpEq name [dot, dot] then unlinkBad sb dp
  else
    match ← dirlookup sb dp name with
    | none => unlinkBad sb dp
    | some (ip, off) =>
      ilock sb ip
      let x ← view fun s => s.itable ip
      stopIf (x.d.nlink < 1) (.panic "unlink: nlink < 1")
      let empty ← (if x.d.type = T_DIR then isdirempty sb ip else pure true)
      if empty = false then
        iunlockput sb ip
        unlinkBad sb dp
      else unlinkAt sb dp ip off

def sysUnlink (path : Option Path) : M Int := do
  match argstr path with
  | none => pure (-1)
  | some path =>
    beginOp
    match ← nameiparent sb p path with
    | none =>
      endOp
      pure (-1)
    | some (dp, name) =>
      ilock sb dp
      unlinkIn sb dp name

/-- `fail` of `create`: de-allocate `ip`. -/
def createFail (dp ip : Fin NINODE) : M (Option (Fin NINODE)) := do
  setNlink sb ip fun _ => 0
  iunlockput sb ip
  iunlockput sb dp
  pure none

def linkDots (dp ip : Fin NINODE) : M Bool := do
  let x ← view fun s => s.itable ip
  let r ← dirlink sb ip [dot] x.inum
  if r < 0 then pure false
  else
    let y ← view fun s => s.itable dp
    let r ← dirlink sb ip [dot, dot] y.inum
    pure (decide (0 ≤ r))

/-- `create`, after a successful `ialloc`. -/
def createIn (dp ip : Fin NINODE) (name : List UInt8) (type major minor : Int16) : M (Option (Fin NINODE)) := do
  ilock sb ip
  onInode ip fun x => x.setD { x.d with major, minor, nlink := 1 }
  iupdate sb ip
  let ok ← (if type = T_DIR then linkDots sb dp ip else pure true)
  if ok = false then createFail sb dp ip
  else
    let x ← view fun s => s.itable ip
    let r ← dirlink sb dp name x.inum
    if r < 0 then createFail sb dp ip
    else
      doIf (type = T_DIR) (setNlink sb dp (· + 1))
      iunlockput sb dp
      pure (some ip)

def create (path : Path) (type major minor : Int16) : M (Option (Fin NINODE)) := do
  match ← nameiparent sb p path with
  | none => pure none
  | some (dp, name) =>
    ilock sb dp
    match ← dirlookup sb dp name with
    | some (ip, _) =>
      iunlockput sb dp
      ilock sb ip
      let x ← view fun s => s.itable ip
      if type = T_FILE ∧ (x.d.type = T_FILE ∨ x.d.type = T_DEVICE) then pure (some ip)
      else
        iunlockput sb ip
        pure none
    | none =>
      match ← ialloc sb type with
      | none =>
        iunlockput sb dp
        pure none
      | some ip => createIn sb dp ip name type major minor

/-- The exits of `sys_open` after the inode is locked. -/
def openBad (ip : Fin NINODE) : M Int := do
  iunlockput sb ip
  endOp
  pure (-1)

/-- `sys_open`, from the locked inode on. -/
def openAt (ip : Fin NINODE) (omode : Nat) : M Int := do
  let x ← view fun s => s.itable ip
  if x.d.type = T_DEVICE ∧ badMajor x.d.major then openBad sb ip
  else
    match ← filealloc with
    | none => openBad sb ip
    | some f =>
      match ← fdalloc p f with
      | none =>
        fileclose sb f
        openBad sb ip
      | some fd =>
        let readable := omode &&& O_WRONLY = 0
        let writable := omode &&& O_WRONLY ≠ 0 ∨ omode &&& O_RDWR ≠ 0
        onFile f fun f =>
          if x.d.type = T_DEVICE then { f with type := .device, major := x.d.major, ip, readable, writable }
          else { f with type := .inode, off := 0, ip, readable, writable }
        doIf (omode &&& O_TRUNC ≠ 0 ∧ x.d.type = T_FILE) (itrunc sb ip)
        iunlock sb ip
        endOp
        pure fd.val

def sysOpen (path : Option Path) (omode : Nat) : M Int := do
  match argstr path with
  | none => pure (-1)
  | some path =>
    beginOp
    if omode &&& O_CREATE ≠ 0 then
      match ← create sb p path T_FILE 0 0 with
      | none =>
        endOp
        pure (-1)
      | some ip => openAt sb p ip omode
    else
      match ← namei sb p path with
      | none =>
        endOp
        pure (-1)
      | some ip =>
        ilock sb ip
        let x ← view fun s => s.itable ip
        if x.d.type = T_DIR ∧ omode ≠ O_RDONLY then openBad sb ip else openAt sb p ip omode

/-- `sys_mkdir` and `sys_mknod` -/
def sysMake (path : Option Path) (type major minor : Int16) : M Int := do
  beginOp
  match argstr path with
  | none =>
    endOp
    pure (-1)
  | some path =>
    match ← create sb p path type major minor with
    | none =>
      endOp
      pure (-1)
    | some ip =>
      iunlockput sb ip
      endOp
      pure 0

def sysMkdir (path : Option Path) : M Int := sysMake sb p path T_DIR 0 0

def sysMknod (path : Option Path) (major minor : Int16) : M Int := sysMake sb p path T_DEVICE major minor

def cwdOf : M (Fin NINODE) := do
  match ← view fun s => (s.proc p).cwd with
  | some e => pure e
  | none => halt .fault

def sysChdir (path : Option Path) : M Int := do
  beginOp
  match argstr path with
  | none =>
    endOp
    pure (-1)
  | some path =>
    match ← namei sb p path with
    | none =>
      endOp
      pure (-1)
    | some ip =>
      ilock sb ip
      let x ← view fun s => s.itable ip
      if x.d.type ≠ T_DIR then
        iunlockput sb ip
        endOp
        pure (-1)
      else
        iunlock sb ip
        let cwd ← cwdOf p
        iput sb cwd
        endOp
        onProc p (·.setCwd (some ip))
        pure 0

/-- The calls of `readi` that `exec` makes, until one of them returns less than asked for. -/
def execReads (ip : Fin NINODE) : List (Nat × Nat) → M Unit
  | [] => pure ()
  | (off, n) :: rest => do
    let (r, _) ← readi sb ip Sink.kernel off n
    doIf (r = n) (execReads ip rest)

/-- `exec`, as far as it uses the file system. Which parts of the file it reads depends on its contents. -/
def sysExec (path : Option Path) (reads : List (Nat × Nat)) : M Int := do
  match argstr path with
  | none => pure (-1)
  | some path =>
    beginOp
    match ← namei sb p path with
    | none =>
      endOp
      pure (-1)
    | some ip =>
      ilock sb ip
      execReads sb ip reads
      iunlockput sb ip
      endOp
      pure 0

/-- Give up the descriptors and the files of a pipe that cannot be returned. -/
def pipeBad (rf wf : Fin NFILE) (fds : List (Fin NOFILE)) : M Int := do
  fds.forM fun fd => onProc p (·.setFd fd none)
  fileclose sb rf
  fileclose sb wf
  pure (-1)

/-- `ok`: both copies to user space succeed. -/
def sysPipe (page : Option Nat) (ok : Bool) : M Int := do
  match ← pipealloc sb page with
  | none => pure (-1)
  | some (rf, wf) =>
    match ← fdalloc p rf with
    | none => pipeBad sb p rf wf []
    | some fd0 =>
      match ← fdalloc p wf with
      | none => pipeBad sb p rf wf [fd0]
      | some fd1 => if ok then pure 0 else pipeBad sb p rf wf [fd0, fd1]

def forkFd (np : Fin NPROC) (fd : Fin NOFILE) : M Unit := do
  match ← view fun s => (s.proc p).ofile fd with
  | some f =>
    filedup f
    onProc np (·.setFd fd (some f))
  | none => pure ()

/-- `fork`, as far as it copies open files. `np` is what `allocproc` returns, `none` also if `uvmcopy` fails. -/
def sysFork (np : Option (Fin NPROC)) : M Int := do
  match np with
  | none => pure (-1)
  | some np =>
    let x ← view fun s => s.proc np
    if x.cwd.isSome ∨ (List.finRange NOFILE).any fun fd => (x.ofile fd).isSome then pure (-1)
    else
      (List.finRange NOFILE).forM (forkFd p np)
      let cwd ← cwdOf p
      idup cwd
      onProc np (·.setCwd (some cwd))
      pure np.val

def exitFd (fd : Fin NOFILE) : M Unit := do
  match ← view fun s => (s.proc p).ofile fd with
  | some f =>
    fileclose sb f
    onProc p (·.setFd fd none)
  | none => pure ()

/-- `exit`, as far as it gives up files. The first process does not exit. -/
def sysExit : M Int := do
  stopIf (p.val = 0) (.panic "init exiting")
  (List.finRange NOFILE).forM (exitFd sb p)
  beginOp
  let cwd ← cwdOf p
  iput sb cwd
  endOp
  onProc p (·.setCwd none)
  pure 0

end

inductive Call where
  | open (path : Option Path) (omode : Nat)
  | mkdir (path : Option Path)
  | mknod (path : Option Path) (major minor : Int16)
  | link (old new : Option Path)
  | unlink (path : Option Path)
  | chdir (path : Option Path)
  | exec (path : Option Path) (reads : List (Nat × Nat))
  | dup (fd : Int)
  | pipe (page : Option Nat) (ok : Bool)
  | read (fd n : Int) (dst : Sink) (r : Int)
  | write (fd n : Int) (src : Source) (r : Int)
  | fstat (fd : Int) (ok : Bool)
  | close (fd : Int)
  | fork (np : Option (Fin NPROC))
  | exit

def call (sb : Superblock) (p : Fin NPROC) : Call → M Int
  | .open path omode => sysOpen sb p path omode
  | .mkdir path => sysMkdir sb p path
  | .mknod path major minor => sysMknod sb p path major minor
  | .link old new => sysLink sb p old new
  | .unlink path => sysUnlink sb p path
  | .chdir path => sysChdir sb p path
  | .exec path reads => sysExec sb p path reads
  | .dup fd => sysDup p fd
  | .pipe page ok => sysPipe sb p page ok
  | .read fd n dst r => sysRead sb p fd n dst r
  | .write fd n src r => sysWrite sb p fd n src r
  | .fstat fd ok => sysFstat sb p fd ok
  | .close fd => sysClose sb p fd
  | .fork np => sysFork p np
  | .exit => sysExit sb p

/-- A process makes a call, which runs until it returns. A process that has no current directory is not in use. -/
def step (sb : Superblock) (s : Sys) (a : Fin NPROC × Call) : Except Stop Sys :=
  if (s.proc a.1).cwd.isNone then .error .fault
  else
    match call sb a.1 a.2 s with
    | .ok _ t => .ok t
    | .error e _ => .error e

end Xv6.Fs
