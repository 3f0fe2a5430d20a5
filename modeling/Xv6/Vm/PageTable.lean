import Xv6.Vm.Memory

/-! Page tables and user address spaces, `kernel/vm.c`. A function that fills a kernel buffer returns the bytes it
    puts there. -/

namespace Xv6.Vm
open Lib

/-- The levels `level - 1, ..., 0` of `walk`. -/
def walkFrom (va : Nat) (alloc : Bool) : Nat → Nat → VmM Nat
  | 0, pagetable => pure (pagetable + 8 * px 0 va)
  | level + 1, pagetable => do
    let pte := pagetable + 8 * px (level + 1) va
    let e ← load pte
    if has e PTE_V then walkFrom va alloc level (pte2pa e)
    else if !alloc then pure 0
    else
      let pt ← kalloc
      if pt = 0 then pure 0
      else
        memset pt 0
        store pte (pa2pte pt ||| PTE_V)
        walkFrom va alloc level pt

def walk (pagetable va : Nat) (alloc : Bool) : VmM Nat := do
  if MAXVA ≤ va then halt (.panic "walk")
  walkFrom va alloc 2 pagetable

def walkaddr (pagetable va : Nat) : VmM Nat := do
  if MAXVA ≤ va then pure 0
  else
    let pte ← walk pagetable va false
    if pte = 0 then pure 0
    else
      let e ← load pte
      if !has e PTE_V then pure 0
      else if !has e PTE_U then pure 0
      else pure (pte2pa e)

/-- The loop of `mappages`. -/
def mapFrom (pagetable last perm : Nat) : Nat → Nat → Nat → VmM Int
  | 0, _, _ => halt .stuck
  | fuel + 1, a, pa => do
    let pte ← walk pagetable a true
    if pte = 0 then pure (-1)
    else
      let e ← load pte
      if has e PTE_V then halt (.panic "mappages: remap")
      store pte (pa2pte pa ||| perm ||| PTE_V)
      if a = last then pure 0
      else mapFrom pagetable last perm fuel ((a + PGSIZE) % 2 ^ 64) ((pa + PGSIZE) % 2 ^ 64)

def mappages (pagetable va size pa perm : Nat) : VmM Int := do
  if va % PGSIZE ≠ 0 then halt (.panic "mappages: va not aligned")
  if size % PGSIZE ≠ 0 then halt (.panic "mappages: size not aligned")
  if size = 0 then halt (.panic "mappages: size")
  mapFrom pagetable ((va + size - PGSIZE) % 2 ^ 64) perm (size / PGSIZE) va pa

def uvmunmap (L : Layout) (pagetable va npages : Nat) (doFree : Bool) : VmM Unit := do
  if va % PGSIZE ≠ 0 then halt (.panic "uvmunmap: not aligned")
  let _ ← forUp .stuck PGSIZE (2 ^ 64) va ((va + npages * PGSIZE) % 2 ^ 64) fun a => do
    let pte ← walk pagetable a false
    if pte = 0 then halt (.panic "uvmunmap: walk")
    let e ← load pte
    if !has e PTE_V then halt (.panic "uvmunmap: not mapped")
    if pteFlags e = PTE_V then halt (.panic "uvmunmap: not a leaf")
    if doFree then kfree L (pte2pa e)
    store pte 0
    pure (none : Option Unit)

def uvmcreate : VmM Nat := do
  let pagetable ← kalloc
  if pagetable = 0 then pure 0
  else
    memset pagetable 0
    pure pagetable

/-- An `int` that takes the value of `n` and is then used as a `uint64`. -/
def asInt (n : Nat) : Nat := if n % 2 ^ 32 < 2 ^ 31 then n % 2 ^ 32 else 2 ^ 64 - 2 ^ 32 + n % 2 ^ 32

def uvmdealloc (L : Layout) (pagetable oldsz newsz : Nat) : VmM Nat := do
  if oldsz ≤ newsz then pure oldsz
  else
    if pgRoundUp newsz < pgRoundUp oldsz then
      uvmunmap L pagetable (pgRoundUp newsz) (asInt ((pgRoundUp oldsz - pgRoundUp newsz) / PGSIZE)) true
    pure newsz

def uvmalloc (L : Layout) (pagetable oldsz newsz xperm : Nat) : VmM Nat := do
  if newsz < oldsz then pure oldsz
  else
    let base := pgRoundUp oldsz
    let r ← forUp .stuck PGSIZE (2 ^ 64) base newsz fun a => do
      let mem ← kalloc
      if mem = 0 then
        let _ ← uvmdealloc L pagetable a base
        pure (some 0)
      else
        memset mem 0
        let r ← mappages pagetable a PGSIZE mem (PTE_R ||| PTE_U ||| xperm)
        if r ≠ 0 then
          kfree L mem
          let _ ← uvmdealloc L pagetable a base
          pure (some 0)
        else pure none
    pure (r.getD newsz)

/-- `freewalk` of a table with `depth` levels. -/
def freewalk (L : Layout) : Nat → Nat → VmM Unit
  | 0, _ => halt .stuck
  | depth + 1, pagetable => do
    loop (fun i => do
      let pte ← load (pagetable + 8 * i)
      if has pte PTE_V && !has pte (PTE_R ||| PTE_W ||| PTE_X) then
        freewalk L depth (pte2pa pte)
        store (pagetable + 8 * i) 0
      else if has pte PTE_V then halt (.panic "freewalk: leaf")
      else pure ()) 512
    kfree L pagetable

def uvmfree (L : Layout) (pagetable sz : Nat) : VmM Unit := do
  if 0 < sz then uvmunmap L pagetable 0 (pgRoundUp sz / PGSIZE) true
  freewalk L 3 pagetable

def uvmcopy (L : Layout) (old new sz : Nat) : VmM Int := do
  let err ← forUp .stuck PGSIZE (2 ^ 64) 0 sz fun i => do
    let pte ← walk old i false
    if pte = 0 then halt (.panic "uvmcopy: pte should exist")
    let e ← load pte
    if !has e PTE_V then halt (.panic "uvmcopy: page not present")
    let mem ← kalloc
    if mem = 0 then pure (some i)
    else
      copyPage mem (pte2pa e)
      let r ← mappages new i PGSIZE mem (pteFlags e)
      if r ≠ 0 then
        kfree L mem
        pure (some i)
      else pure none
  match err with
  | none => pure 0
  | some i =>
    uvmunmap L new 0 (i / PGSIZE) true
    pure (-1)

def uvmclear (pagetable va : Nat) : VmM Unit := do
  let pte ← walk pagetable va false
  if pte = 0 then halt (.panic "uvmclear")
  let e ← load pte
  store pte (e &&& (2 ^ 64 - 1 - PTE_U))

def copyoutFrom (pagetable : Nat) : Nat → Nat → List UInt8 → VmM Int
  | 0, _, _ => halt .stuck
  | fuel + 1, dstva, src =>
    if src.length = 0 then pure 0
    else do
      let va0 := pgRoundDown dstva
      if MAXVA ≤ va0 then pure (-1)
      else
        let pte ← walk pagetable va0 false
        if pte = 0 then pure (-1)
        else
          let e ← load pte
          if !has e PTE_V || !has e PTE_U || !has e PTE_W then pure (-1)
          else
            let n := min (PGSIZE - (dstva - va0)) src.length
            change fun s => s.setBytes (pte2pa e + (dstva - va0)) (src.take n)
            copyoutFrom pagetable fuel (va0 + PGSIZE) (src.drop n)

def copyout (pagetable dstva : Nat) (src : List UInt8) : VmM Int := copyoutFrom pagetable (src.length + 1) dstva src

def copyinFrom (pagetable : Nat) : Nat → Nat → Nat → VmM (Int × List UInt8)
  | 0, _, _ => halt .stuck
  | fuel + 1, srcva, len =>
    if len = 0 then pure (0, [])
    else do
      let va0 := pgRoundDown srcva
      let pa0 ← walkaddr pagetable va0
      if pa0 = 0 then pure (-1, [])
      else
        let n := min (PGSIZE - (srcva - va0)) len
        let l ← view fun s => s.bytes (pa0 + (srcva - va0)) n
        let r ← copyinFrom pagetable fuel (va0 + PGSIZE) (len - n)
        pure (r.1, l ++ r.2)

def copyin (pagetable srcva len : Nat) : VmM (Int × List UInt8) := copyinFrom pagetable (len + 1) srcva len

def copyinstrFrom (pagetable : Nat) : Nat → Nat → Nat → VmM (Int × List UInt8)
  | 0, _, _ => halt .stuck
  | fuel + 1, srcva, max =>
    if max = 0 then pure (-1, [])
    else do
      let va0 := pgRoundDown srcva
      let pa0 ← walkaddr pagetable va0
      if pa0 = 0 then pure (-1, [])
      else
        let n := min (PGSIZE - (srcva - va0)) max
        let l ← view fun s => s.bytes (pa0 + (srcva - va0)) n
        let k := l.takeWhile (· ≠ 0)
        if k.length < n then pure (0, k ++ [0])
        else
          let r ← copyinstrFrom pagetable fuel (va0 + PGSIZE) (max - n)
          pure (r.1, l ++ r.2)

def copyinstr (pagetable srcva max : Nat) : VmM (Int × List UInt8) := copyinstrFrom pagetable (max + 1) srcva max

end Xv6.Vm
