import Mathlib.Logic.Function.Basic
import Xv6.Param

/-!
# The console (`uart.c`)

The line discipline: the interrupt side puts characters into a ring and edits them, `consoleread` takes
them out once they are committed. The lock is held throughout, except while a reader sleeps.
-/

namespace Xv6.Console

abbrev Byte := BitVec 8

/-- `INPUT_BUF_SIZE`. -/
def inputBufSize : Nat := 128

/-- `C(x)`. -/
def control (x : Char) : Byte := BitVec.ofNat 8 (x.toNat - '@'.toNat)

def newline : Byte := BitVec.ofNat 8 '\n'.toNat

def carriageReturn : Byte := BitVec.ofNat 8 '\r'.toNat

def delete : Byte := 0x7f

/-- `thr` is what has been sent. -/
structure Cons where
  buf : Nat → Byte
  r : BitVec 32
  w : BitVec 32
  e : BitVec 32
  thr : List Byte

def uartputcSync (c : Byte) (s : Cons) : Cons :=
  { s with thr := s.thr ++ if c = newline then [carriageReturn, c] else [c] }

/-- `consputc(BACKSPACE)`. -/
def consputcBackspace (s : Cons) : Cons := uartputcSync 8 (uartputcSync 32 (uartputcSync 8 s))

/-- The loop of `^U`. It makes at most `e - w` turns. -/
def killLine : Nat → Cons → Cons
  | 0, s => s
  | k + 1, s =>
      if s.e ≠ s.w ∧ s.buf ((s.e - 1).toNat % inputBufSize) ≠ newline then killLine k (consputcBackspace { s with e := s.e - 1 })
      else s

/-- The `default` case of `consoleintr`. -/
def consoleChar (c : Byte) (s : Cons) : Cons :=
  if c ≠ 0 ∧ (s.e - s.r).toNat < inputBufSize then
    let c := if c = carriageReturn then newline else c
    let s := uartputcSync c s
    let s := { s with buf := Function.update s.buf (s.e.toNat % inputBufSize) c, e := s.e + 1 }
    if c = newline ∨ c = control 'D' ∨ (s.e - s.r).toNat = inputBufSize then { s with w := s.e } else s
  else s

/-- `pid` is that of `myproc()`, if there is one; the second result is the process that is marked as killed. -/
def consoleintr (pid : Option Nat) (c : Byte) (s : Cons) : Except Stop (Cons × Option Nat) :=
  if c = control 'P' then .ok (s, none)
  else if c = control 'U' then .ok (killLine (s.e - s.w).toNat s, none)
  else if c = control 'X' then .error (.panic .userTriggered)
  else if c = control 'C' then
    match pid with
    | none => .ok (s, none)
    | some pid => if 1 < pid then .ok (uartputcSync 67 (uartputcSync 94 s), some pid) else .ok (s, none)
  else if c = control 'H' ∨ c = delete then
    if s.e ≠ s.w then .ok (consputcBackspace { s with e := s.e - 1 }, none) else .ok (s, none)
  else .ok (consoleChar c s, none)

/-- A call of `consoleread`: `n` bytes are still wanted, and `got` have been copied out. -/
structure Reader where
  target : Nat
  n : Nat
  got : List Byte

/-- The loop of `consoleread`, until it ends (`true`) or sleeps. `works i` says whether the byte at `dst + i` can be
written. -/
def consoleread (works : Nat → Bool) (target : Nat) : Nat → List Byte → Cons → Cons × Reader × Bool
  | 0, got, s => (s, ⟨target, 0, got⟩, true)
  | n + 1, got, s =>
      if s.r = s.w then (s, ⟨target, n + 1, got⟩, false)
      else
        let c := s.buf (s.r.toNat % inputBufSize)
        let s := { s with r := s.r + 1 }
        if c = control 'D' then
          (if n + 1 < target then { s with r := s.r - 1 } else s, ⟨target, n + 1, got⟩, true)
        else if !works (target - (n + 1)) then (s, ⟨target, n + 1, got⟩, true)
        else if c = newline then (s, ⟨target, n, got ++ [c]⟩, true)
        else consoleread works target n (got ++ [c]) s

/-- `target - n`. -/
def Reader.result (x : Reader) : Nat := x.target - x.n

end Xv6.Console
