import Xv6.Lib.Reach
import Xv6.Lib.Tiling

/-! The allocator of `user/umalloc.c`. Headers are kept by address; `sizeof(Header)` is 16, and sizes are 32-bit.
    `sbrk` gives a region above all earlier ones, or fails. A run that lacks fuel is told apart from one that returns
    0. -/

namespace Xv6.Umalloc

structure Header where
  ptr : Nat
  size : Nat
  deriving DecidableEq, Repr

abbrev Block := Lib.Span

structure Heap where
  mem : Nat → Header
  -- `&base` and `freep`
  base : Nat
  freep : Nat
  -- the end of the memory that `sbrk` has given, or of the program
  top : Nat
  ret : Nat
  -- what `sbrk` has given, and what `malloc` has given and `free` not taken back; not known to the code
  regions : List Block
  live : List Block

section
variable (s : Heap)

def setPtr (p q : Nat) : Heap := { s with mem := Function.update s.mem p { s.mem p with ptr := q } }

def setSize (p n : Nat) : Heap := { s with mem := Function.update s.mem p { s.mem p with size := n } }

def ptr (p : Nat) : Nat := (s.mem p).ptr

def size (p : Nat) : Nat := (s.mem p).size

/-- The loop of `free`: where `bp` belongs. -/
def place (bp : Nat) : Nat → Nat → Option Nat
  | 0, _ => none
  | k + 1, p =>
    if (p < bp ∧ bp < ptr s p) ∨ (ptr s p ≤ p ∧ (p < bp ∨ bp < ptr s p)) then some p else place bp k (ptr s p)

/-- The first `if` of `free`: join `bp` to the block above. -/
def joinUpper (bp p : Nat) : Heap :=
  if bp + 16 * size s bp = ptr s p then
    let s' := setSize s bp ((size s bp + size s (ptr s p)) % 2 ^ 32)
    setPtr s' bp (ptr s' (ptr s' p))
  else setPtr s bp (ptr s p)

/-- The second `if` of `free`: join `bp` to the block below. -/
def joinLower (bp p : Nat) : Heap :=
  if p + 16 * size s p = bp then
    let s' := setSize s p ((size s p + size s bp) % 2 ^ 32)
    setPtr s' p (ptr s' bp)
  else setPtr s p bp

def free (fuel ap : Nat) : Option Heap :=
  let bp := ap - 16
  (place s bp fuel s.freep).map fun p => { joinLower (joinUpper s bp p) bp p with freep := p }

/-- `sbrk` of `nu` units; `brk` says how far above the top the new region starts. -/
def sbrk (brk : Nat → Option Nat) (nu : Nat) : Option (Heap × Nat) :=
  (brk s.top).map fun gap =>
    ({ s with top := s.top + gap + 16 * nu, regions := ⟨s.top + gap, nu⟩ :: s.regions }, s.top + gap)

/-- `morecore`: the heap and its result, or no answer for lack of fuel. -/
def morecore (brk : Nat → Option Nat) (fuel nu : Nat) : Option (Heap × Nat) :=
  let nu := if nu < 4096 then 4096 else nu
  match sbrk s brk nu with
  | none => some (s, 0)
  | some (s, hp) => (free (setSize s hp nu) fuel (hp + 16)).map fun s => (s, s.freep)

/-- The block `p` behind `prevp` is large enough: all of it, or its tail. -/
def carve (nunits prevp p : Nat) : Heap :=
  if size s p = nunits then
    { setPtr s prevp (ptr s p) with freep := prevp, ret := p + 16, live := ⟨p, nunits⟩ :: s.live }
  else
    let rest := size s p - nunits
    let q := p + 16 * rest
    { setSize (setSize s p rest) q nunits with freep := prevp, ret := q + 16, live := ⟨q, nunits⟩ :: s.live }

end

def search (brk : Nat → Option Nat) (nunits : Nat) : Nat → Heap → Nat → Nat → Option Heap
  | 0, _, _, _ => none
  | k + 1, s, prevp, p =>
    if nunits ≤ size s p then some (carve s nunits prevp p)
    else if p = s.freep then
      match morecore s brk k nunits with
      | none => none
      | some (s, 0) => some { s with ret := 0 }
      | some (s, p) => search brk nunits k s p (ptr s p)
    else search brk nunits k s p (ptr s p)

/-- `(nbytes + sizeof(Header) - 1)/sizeof(Header) + 1`; the sum is taken in 64 bits. -/
def units (nbytes : Nat) : Nat := (nbytes + 16 - 1) / 16 + 1

/-- `base.s.ptr = freep = prevp = &base; base.s.size = 0;` -/
def setup (s : Heap) : Heap :=
  if s.freep = 0 then { setSize (setPtr s s.base s.base) s.base 0 with freep := s.base } else s

def malloc (s : Heap) (brk : Nat → Option Nat) (fuel nbytes : Nat) : Option Heap :=
  search brk (units nbytes) fuel (setup s) (setup s).freep (ptr (setup s) (setup s).freep)

inductive Action where
  | malloc (nbytes : Nat) (brk : Nat → Option Nat) (fuel : Nat)
  | free (ap : Nat) (fuel : Nat)

inductive Refusal where
  | fuel
  deriving DecidableEq, Repr

def step (s : Heap) : Action → Except Refusal Heap
  | .malloc nbytes brk fuel =>
    match malloc s brk fuel nbytes with
    | some t => .ok t
    | none => .error .fuel
  | .free ap fuel =>
    match free s fuel ap with
    | some t => .ok { t with live := t.live.filter fun x => x.addr + 16 ≠ ap }
    | none => .error .fuel

/-- What `morecore` asks for in a call `malloc(nbytes)`. -/
def asked (nbytes : Nat) : Nat := max (units nbytes) 4096

/-- `malloc` of a `uint` whose rounded size is a positive `int`, and `free` of a live result of `malloc`. -/
def Proper (s : Heap) : Action → Prop
  | .malloc nbytes _ _ => nbytes < 2 ^ 32 ∧ 16 * asked nbytes < 2 ^ 31
  | .free ap _ => ∃ x ∈ s.live, ap = x.addr + 16

def obtained (s : Heap) : Nat := (s.regions.map Lib.Span.units).sum

/-- The units obtained can be counted in 32 bits, also if the call gets more. -/
def Countable (s : Heap) : Action → Prop
  | .malloc nbytes _ _ => obtained s + asked nbytes < 2 ^ 32
  | .free _ _ => True

/-- Nothing allocated yet; the heap comes above the program's data. -/
structure Start (s : Heap) : Prop where
  base : 0 < s.base
  freep : s.freep = 0
  top : s.base + 16 ≤ s.top
  regions : s.regions = []
  live : s.live = []

end Xv6.Umalloc
