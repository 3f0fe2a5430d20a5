import Mathlib.Algebra.Order.Ring.Int

/-! Constants of `kernel/param.h`, `kernel/fs.h`, `kernel/riscv.h` and `kernel/memlayout.h`, for the
    configuration that `conf/lab.mk` selects (`LAB=util`). -/

namespace Xv6

def NPROC : Nat := 64
def NOFILE : Nat := 16
def NFILE : Nat := 100
def NINODE : Nat := 50
def NDEV : Nat := 10
def ROOTDEV : Nat := 1
def MAXARG : Nat := 32
def MAXOPBLOCKS : Nat := 10
def LOGSIZE : Nat := MAXOPBLOCKS * 3
def NBUF : Nat := MAXOPBLOCKS * 3
/-- User stack pages (`LAB_UTIL`). -/
def USERSTACK : Nat := 2

def MAXPATH : Nat := 128

def BSIZE : Nat := 1024

theorem zero_lt_NPROC : 0 < NPROC := by decide

theorem one_lt_NPROC : 1 < NPROC := by decide

end Xv6
