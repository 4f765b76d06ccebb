import Xv6.Param

/-!
# `printf`, in the kernel (`uart.c`) and in the user library (`printf.c`)

What is printed is the list of characters given to `uartputc_sync` and to `putc`. A variable argument is a word of 64
bits. `none` stands for a store outside a buffer, an argument that is not there, and a read past the end of the
format.
-/

namespace Xv6.Libc

abbrev Byte := BitVec 8

def ascii (c : Char) : Byte := BitVec.ofNat 8 c.toNat

/-! ## `printint` -/

/-- `char buf[20]`. -/
def intBuf : Nat := 20

/-- `do { buf[i++] = digits[x % base]; } while((x /= base) != 0);` with `room` places left in `buf`, which is given with
its last character first. -/
def putDigits (digits : Nat → Byte) (base : Nat) : Nat → Nat → List Byte → Option (Nat × List Byte)
  | 0, _, _ => none
  | room + 1, x, buf =>
      let buf := digits (x % base) :: buf
      if x / base ≠ 0 then putDigits digits base room (x / base) buf else some (room, buf)

/-- `if(neg) buf[i++] = '-';`. The characters are then printed from the last one on. -/
def putSign (neg : Bool) : Nat × List Byte → Option (List Byte)
  | (room, buf) =>
      if neg then
        match room with
        | 0 => none
        | _ + 1 => some (ascii '-' :: buf)
      else some buf

/-- `"0123456789abcdef"`. -/
def Kernel.digits (i : Nat) : Byte := if i < 10 then BitVec.ofNat 8 (48 + i) else BitVec.ofNat 8 (87 + i)

/-- `"0123456789ABCDEF"`. -/
def User.digits (i : Nat) : Byte := if i < 10 then BitVec.ofNat 8 (48 + i) else BitVec.ofNat 8 (55 + i)

/-- The sign is looked at only if `sign` asks for it; `-xx` wraps at the least number. -/
def printint (digits : Nat → Byte) (xx : BitVec 64) (base : Nat) (sign : Bool) : Option (List Byte) :=
  let neg := sign && xx.slt 0
  let x := if neg then -xx else xx
  (putDigits digits base intBuf x.toNat []).bind (putSign neg)

def Kernel.printint : BitVec 64 → Nat → Bool → Option (List Byte) := Libc.printint Kernel.digits

def User.printint : BitVec 64 → Nat → Bool → Option (List Byte) := Libc.printint User.digits

/-! ## `printptr` -/

/-- `for (i = 0; i < n; i++, x <<= 4) putc(digits[x >> 60]);` -/
def putNibbles (digits : Nat → Byte) : Nat → BitVec 64 → List Byte
  | 0, _ => []
  | n + 1, x => digits (x >>> 60).toNat :: putNibbles digits n (x <<< 4)

def printptr (digits : Nat → Byte) (x : BitVec 64) : List Byte := [ascii '0', ascii 'x'] ++ putNibbles digits 16 x

def Kernel.printptr : BitVec 64 → List Byte := Libc.printptr Kernel.digits

def User.printptr : BitVec 64 → List Byte := Libc.printptr User.digits

/-! ## The formats -/

/-- What is printed, and the arguments that are left. -/
abbrev Printed := Option (List Byte × List (BitVec 64))

/-- `out` is printed before the rest. -/
def Printed.after (out : List Byte) (p : Printed) : Printed := p.map fun q => (out ++ q.1, q.2)

/-- `va_arg(ap, int)`, as a `long long`. -/
def vaInt (w : BitVec 64) : BitVec 64 := (w.setWidth 32).signExtend 64

/-- `va_arg(ap, uint32)`, as a `long long`. -/
def vaUint (w : BitVec 64) : BitVec 64 := (w.setWidth 32).zeroExtend 64

/-- The next argument is printed as `text` says, and then the rest is printed. -/
def next (text : BitVec 64 → Option (List Byte)) (rest : List (BitVec 64) → Printed) : List (BitVec 64) → Printed
  | [] => none
  | w :: ap => (text w).bind fun out => (rest ap).after out

/-- `%s`: the string at `w`; `str` says what strings there are. -/
def putString (str : BitVec 64 → List Byte) (w : BitVec 64) : List Byte := if w = 0 then "(null)".toList.map ascii else str w

/-- `printf` of the kernel. `skip` characters of the format have been read already. -/
def Kernel.printf (str : BitVec 64 → List Byte) : Nat → List Byte → List (BitVec 64) → Printed
  | 0, [], ap => some ([], ap)
  | _ + 1, [], _ => none
  | skip + 1, _ :: fmt, ap => Kernel.printf str skip fmt ap
  | 0, cx :: fmt, ap =>
      if cx ≠ ascii '%' then (Kernel.printf str 0 fmt ap).after [cx]
      else
        let c0 := fmt.getD 0 0
        let c1 := if c0 ≠ 0 then fmt.getD 1 0 else 0
        if c0 = ascii 'd' then next (fun w => Kernel.printint (vaInt w) 10 true) (Kernel.printf str 1 fmt) ap
        else if c0 = ascii 'l' ∧ c1 = ascii 'd' then next (fun w => Kernel.printint w 10 true) (Kernel.printf str 2 fmt) ap
        else if c0 = ascii 'x' then next (fun w => Kernel.printint (vaInt w) 16 false) (Kernel.printf str 1 fmt) ap
        else if c0 = ascii 'p' then next (fun w => some (Kernel.printptr w)) (Kernel.printf str 1 fmt) ap
        else if c0 = ascii 's' then next (fun w => some (putString str w)) (Kernel.printf str 1 fmt) ap
        else if c0 = ascii '%' then (Kernel.printf str 1 fmt ap).after [ascii '%']
        else (Kernel.printf str 1 fmt ap).after [ascii '%', c0]

/-- `vprintf` of the user library. `state` says that a `%` came before. -/
def User.vprintf (str : BitVec 64 → List Byte) : Bool → Nat → List Byte → List (BitVec 64) → Printed
  | _, 0, [], ap => some ([], ap)
  | _, _ + 1, [], _ => none
  | state, skip + 1, _ :: fmt, ap => User.vprintf str state skip fmt ap
  | false, 0, c0 :: fmt, ap =>
      if c0 = ascii '%' then User.vprintf str true 0 fmt ap else (User.vprintf str false 0 fmt ap).after [c0]
  | true, 0, c0 :: fmt, ap =>
      let c1 := fmt.getD 0 0
      let c2 := if c1 ≠ 0 then fmt.getD 1 0 else 0
      if c0 = ascii 'd' then next (fun w => User.printint (vaInt w) 10 true) (User.vprintf str false 0 fmt) ap
      else if c0 = ascii 'l' ∧ c1 = ascii 'd' then next (fun w => User.printint w 10 true) (User.vprintf str false 1 fmt) ap
      else if c0 = ascii 'l' ∧ c1 = ascii 'l' ∧ c2 = ascii 'd' then
        next (fun w => User.printint w 10 true) (User.vprintf str false 2 fmt) ap
      else if c0 = ascii 'u' then next (fun w => User.printint (vaUint w) 10 false) (User.vprintf str false 0 fmt) ap
      else if c0 = ascii 'l' ∧ c1 = ascii 'u' then next (fun w => User.printint w 10 false) (User.vprintf str false 1 fmt) ap
      else if c0 = ascii 'l' ∧ c1 = ascii 'l' ∧ c2 = ascii 'u' then
        next (fun w => User.printint w 10 false) (User.vprintf str false 2 fmt) ap
      else if c0 = ascii 'x' then next (fun w => User.printint (vaUint w) 16 false) (User.vprintf str false 0 fmt) ap
      else if c0 = ascii 'l' ∧ c1 = ascii 'x' then next (fun w => User.printint w 16 false) (User.vprintf str false 1 fmt) ap
      else if c0 = ascii 'l' ∧ c1 = ascii 'l' ∧ c2 = ascii 'x' then
        next (fun w => User.printint w 16 false) (User.vprintf str false 2 fmt) ap
      else if c0 = ascii 'p' then next (fun w => some (User.printptr w)) (User.vprintf str false 0 fmt) ap
      else if c0 = ascii 'c' then next (fun w => some [w.setWidth 8]) (User.vprintf str false 0 fmt) ap
      else if c0 = ascii 's' then next (fun w => some (putString str w)) (User.vprintf str false 0 fmt) ap
      else if c0 = ascii '%' then (User.vprintf str false 0 fmt ap).after [ascii '%']
      else (User.vprintf str false 0 fmt ap).after [ascii '%', c0]

end Xv6.Libc
