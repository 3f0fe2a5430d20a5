import Xv6.Lib.Reach

/-! Console input of `kernel/console.c`. `consoleintr`, less the echo and the process listing, is one step, and so is
    a round of a loop of `consoleread`. -/

namespace Xv6

def INPUT_BUF_SIZE : Nat := 128

instance : NeZero INPUT_BUF_SIZE := ⟨by decide⟩

/-- `struct cons`, less the lock. -/
structure Cons where
  buf : Fin INPUT_BUF_SIZE → UInt8
  r : UInt32
  w : UInt32
  e : UInt32

namespace Console

/-- The macro `C(x)`: control-x. -/
def C (x : Char) : UInt8 := x.toNat.toUInt8 - '@'.toNat.toUInt8

def NL : UInt8 := '\n'.toNat.toUInt8

def CR : UInt8 := '\r'.toNat.toUInt8

def DEL : UInt8 := 0x7f

section
variable (c : Cons)

def cell (i : UInt32) : UInt8 := c.buf (Fin.ofNat INPUT_BUF_SIZE i.toNat)

def put (ch : UInt8) : Cons :=
  { c with buf := Function.update c.buf (Fin.ofNat INPUT_BUF_SIZE c.e.toNat) ch, e := c.e + 1 }

def erase : Cons := { c with e := c.e - 1 }

def commit : Cons := { c with w := c.e }

def killLine : Nat → Cons → Cons
  | 0, c => c
  | k + 1, c => if c.e ≠ c.w ∧ cell c (c.e - 1) ≠ NL then killLine k (erase c) else c

/-- The default case of `consoleintr`. -/
def store (ch : UInt8) : Cons :=
  if ch ≠ 0 ∧ c.e - c.r < INPUT_BUF_SIZE.toUInt32 then
    let ch := if ch = CR then NL else ch
    let c := put c ch
    if ch = NL ∨ ch = C 'D' ∨ c.e - c.r = INPUT_BUF_SIZE.toUInt32 then commit c else c
  else c

/-- `consoleintr`; control-U lowers `e` at most until it meets `w`. -/
def consoleintr (ch : UInt8) : Cons :=
  if ch = C 'P' then c
  else if ch = C 'U' then killLine (c.e - c.w).toNat c
  else if ch = C 'H' ∨ ch = DEL then if c.e ≠ c.w then erase c else c
  else store c ch

def between (i j : UInt32) : List UInt8 := (List.range (j - i).toNat).map fun k => cell c (i + k.toUInt32)

end

/-- All characters committed so far, and the line that is being edited. -/
structure Editor where
  out : List UInt8
  line : List UInt8
  deriving DecidableEq, Repr

/-- One input character, when `taken` of the committed characters have been read. -/
def Editor.input (ed : Editor) (taken : Nat) (ch : UInt8) : Editor :=
  if ch = C 'P' ∨ ch = 0 then ed
  else if ch = C 'U' then { ed with line := [] }
  else if ch = C 'H' ∨ ch = DEL then { ed with line := ed.line.dropLast }
  else if (ed.out ++ ed.line).length - taken < INPUT_BUF_SIZE then
    let ch := if ch = CR then NL else ch
    let line := ed.line ++ [ch]
    if ch = NL ∨ ch = C 'D' ∨ (ed.out ++ line).length - taken = INPUT_BUF_SIZE then
      { out := ed.out ++ line, line := [] }
    else { ed with line }
  else ed

/-- A call of `consoleread`: its variables `target` and `n`, and the bytes it has copied to `dst`. -/
structure Call where
  target : Int
  n : Int
  got : List UInt8
  deriving DecidableEq, Repr

inductive Pc where
  | user
  -- before `acquire(&cons.lock)`, at the entry or back from `sleep`
  | enter (x : Call)
  -- at the head of `while(n > 0)`, or of the loop in it that waits for input
  | loop (x : Call)
  | asleep (x : Call)
  | back (x : Call) (ret : Int)
  deriving DecidableEq, Repr

structure Sys (ι : Type) where
  cons : Cons
  lock : Option ι
  killed : ι → Bool
  pc : ι → Pc
  -- the characters that readers have consumed, and the reference editor on the same input; the code does not
  -- know of them
  taken : List UInt8
  editor : Editor

inductive Action (ι : Type) where
  | intr (ch : UInt8)
  | call (p : ι) (n : Int)
  | run (p : ι)
  -- `p` is woken, by `wakeup(&cons.r)` or by `kill`
  | wake (p : ι)
  | kill (p : ι)

inductive Refusal where
  | disabled
  deriving DecidableEq, Repr

variable {ι : Type} [DecidableEq ι]

namespace Sys
variable (s : Sys ι)

def goto (p : ι) (pc : Pc) : Sys ι := { s with pc := Function.update s.pc p pc }

def acquire (p : ι) : Sys ι := { s with lock := some p }

def release : Sys ι := { s with lock := none }

def take : Sys ι :=
  { s with cons := { s.cons with r := s.cons.r + 1 }, taken := s.taken ++ [cell s.cons s.cons.r] }

def return_ (p : ι) (x : Call) : Sys ι := (s.goto p (.back x (x.target - x.n))).release

end Sys

def Call.deliver (x : Call) (ch : UInt8) : Call := { x with n := x.n - 1, got := x.got ++ [ch] }

/-- One round of the loops of `consoleread`. A control-D that is put back has not been consumed. -/
def readRound (s : Sys ι) (p : ι) (x : Call) : Sys ι :=
  if 0 < x.n then
    if s.cons.r = s.cons.w then
      if s.killed p then (s.goto p (.back x (-1))).release else (s.goto p (.asleep x)).release
    else
      let ch := cell s.cons s.cons.r
      if ch = C 'D' then
        if x.n < x.target then s.return_ p x else s.take.return_ p x
      else if ch = NL then s.take.return_ p (x.deliver ch)
      else s.take.goto p (.loop (x.deliver ch))
  else s.return_ p x

def step (s : Sys ι) : Action ι → Except Refusal (Sys ι)
  | .intr ch =>
    if s.lock = none then
      .ok { s with cons := consoleintr s.cons ch, editor := s.editor.input s.taken.length ch }
    else .error .disabled
  | .call p n =>
    match s.pc p with
    | .user | .back _ _ => .ok (s.goto p (.enter ⟨n, n, []⟩))
    | _ => .error .disabled
  | .run p =>
    match s.pc p with
    | .enter x => if s.lock = none then .ok ((s.goto p (.loop x)).acquire p) else .error .disabled
    | .loop x => .ok (readRound s p x)
    | _ => .error .disabled
  | .wake p =>
    match s.pc p with
    | .asleep x => .ok (s.goto p (.enter x))
    | _ => .error .disabled
  | .kill p => .ok { s with killed := Function.update s.killed p true }

structure Start (s : Sys ι) : Prop where
  r : s.cons.r = 0
  w : s.cons.w = 0
  e : s.cons.e = 0
  lock : s.lock = none
  pc : ∀ p, s.pc p = .user
  taken : s.taken = []
  editor : s.editor = ⟨[], []⟩

def Reached (s : Sys ι) : Prop := Lib.Reach Start step (fun _ _ => True) s

end Console

end Xv6
