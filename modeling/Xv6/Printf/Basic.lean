import Xv6.Lib.Cstring

/-! The two copies of `printf`, in `kernel/printf.c` and `user/printf.c`. An argument is a 64-bit slot, of which
    `va_arg(ap, int)` reads the lower half. A store behind the end of a buffer ends the run. -/

namespace Xv6.Printf
open Lib

inductive Stop where
  -- a store behind the end of `buf`
  | overrun
  -- `va_arg` without an argument
  | args
  | fuel
  deriving DecidableEq, Repr

/-- `buf[i++] = c;` in a buffer of 16 characters of which `i` are in use. -/
def push (buf : List UInt8) (c : UInt8) : Except Stop (List UInt8) :=
  if buf.length < 16 then .ok (buf ++ [c]) else .error .overrun

/-- `do { buf[i++] = digits[x % base]; } while((x /= base) != 0);` -/
def fill (digits : List UInt8) (base : Nat) : Nat → Nat → List UInt8 → Except Stop (List UInt8)
  | 0, _, _ => .error .fuel
  | k + 1, x, buf => do
    let buf ← push buf (digits.getD (x % base) 0)
    if x / base ≠ 0 then fill digits base k (x / base) buf else return buf

/-- `printint` over `w`-bit integers: what it prints. -/
def printint {w : Nat} (digits : List UInt8) (xx : BitVec w) (base : Nat) (sign : Bool) : Except Stop (List UInt8) := do
  let neg := sign && decide (xx.toInt < 0)
  let x := if neg then -xx else xx
  let buf ← fill digits base (w + 1) x.toNat []
  let buf ← if neg then push buf (ch '-') else pure buf
  return buf.reverse

def printptr (digits : List UInt8) (x : BitVec 64) : List UInt8 :=
  [ch '0', ch 'x'] ++ (List.range 16).map fun i => digits.getD ((x <<< (4 * i)) >>> 60).toNat 0

/-- What a `%` sequence asks for: a number, with `l` or without, or something else. -/
inductive Spec where
  | num (long : Bool) (base : Nat) (sign : Bool)
  | ptr | str | percent | unknown
  deriving DecidableEq, Repr

/-- The chain of tests of `c0`, `c1` and `c2`, and by how much it moves `i`. -/
def decode (c0 c1 c2 : UInt8) : Spec × Nat :=
  if c0 = ch 'd' then (.num false 10 true, 0)
  else if c0 = ch 'l' ∧ c1 = ch 'd' then (.num true 10 true, 1)
  else if c0 = ch 'l' ∧ c1 = ch 'l' ∧ c2 = ch 'd' then (.num true 10 true, 2)
  else if c0 = ch 'u' then (.num false 10 false, 0)
  else if c0 = ch 'l' ∧ c1 = ch 'u' then (.num true 10 false, 1)
  else if c0 = ch 'l' ∧ c1 = ch 'l' ∧ c2 = ch 'u' then (.num true 10 false, 2)
  else if c0 = ch 'x' then (.num false 16 false, 0)
  else if c0 = ch 'l' ∧ c1 = ch 'x' then (.num true 16 false, 1)
  else if c0 = ch 'l' ∧ c1 = ch 'l' ∧ c2 = ch 'x' then (.num true 16 false, 2)
  else if c0 = ch 'p' then (.ptr, 0)
  else if c0 = ch 's' then (.str, 0)
  else if c0 = ch '%' then (.percent, 0)
  else (.unknown, 0)

/-- What one of the two copies has of its own. -/
structure Copy where
  w : Nat
  arg : Bool → BitVec 64 → BitVec w
  digits : List UInt8

/-- `long long xx`; an `int` is sign-extended. -/
def kernel : Copy where
  w := 64
  arg long x := if long then x else (x.setWidth 32).signExtend 64
  digits := "0123456789abcdef".toList.map ch

def user : Copy where
  w := 32
  arg _ x := x.setWidth 32
  digits := "0123456789ABCDEF".toList.map ch

/-- One conversion: what it prints, and the arguments left. `str` gives the string at an address. -/
def convert (p : Copy) (str : BitVec 64 → List UInt8) (c0 : UInt8) :
    Spec → List (BitVec 64) → Except Stop (List UInt8 × List (BitVec 64))
  | .percent, ap => .ok ([ch '%'], ap)
  | .unknown, ap => .ok ([ch '%', c0], ap)
  | _, [] => .error .args
  | .num long base sign, x :: ap => do return (← printint p.digits (p.arg long x) base sign, ap)
  | .ptr, x :: ap => .ok (printptr p.digits x, ap)
  | .str, x :: ap => .ok (if x = 0 then "(null)".toList.map ch else str x, ap)

/-- `fmt[i+1] & 0xff` if `c`, or else 0. -/
def look (c : UInt8) (l : List UInt8) : UInt8 := if c ≠ 0 then l.headD 0 else 0

/-- `printf` of the kernel, from `fmt + i` on. -/
def printf (str : BitVec 64 → List UInt8) : Nat → List UInt8 → List (BitVec 64) → Except Stop (List UInt8)
  | 0, _, _ => .error .fuel
  | _ + 1, [], _ => .ok []
  | k + 1, cx :: l, ap =>
    if cx ≠ ch '%' then do return cx :: (← printf str k l ap)
    else
      let c0 := l.headD 0
      let c1 := look c0 (l.drop 1)
      let c2 := look c1 (l.drop 2)
      let (spec, extra) := decode c0 c1 c2
      if spec = .unknown ∧ c0 = 0 then .ok []
      else do
        let (out, ap) ← convert kernel str c0 spec ap
        return out ++ (← printf str k (l.drop (1 + extra)) ap)

/-- `vprintf` of the user library, from `fmt + i` on; `state` says whether a `%` has been read. -/
def vprintf (str : BitVec 64 → List UInt8) : Nat → Bool → List UInt8 → List (BitVec 64) → Except Stop (List UInt8)
  | 0, _, _, _ => .error .fuel
  | _ + 1, _, [], _ => .ok []
  | k + 1, false, c0 :: l, ap =>
    if c0 = ch '%' then vprintf str k true l ap else do return c0 :: (← vprintf str k false l ap)
  | k + 1, true, c0 :: l, ap => do
    let c1 := look c0 l
    let c2 := look c1 (l.drop 1)
    let (spec, extra) := decode c0 c1 c2
    let (out, ap) ← convert user str c0 spec ap
    return out ++ (← vprintf str k false (l.drop extra) ap)

end Xv6.Printf
