import Mathlib.Logic.Function.Basic
import Xv6.Grep.Match

/-!
# The loop of `grep`

The buffer is global: it holds anything at first. `none` stands for a read or a write outside the buffer. Which bytes a
`read` delivers is up to the kernel.
-/

namespace Xv6.Grep

abbrev Buf := Nat → Byte

/-- `sizeof(buf)`. -/
def bufSize : Nat := 1024

def newline : Byte := ascii '\n'

/-- `buf[i] = b`. -/
def put (buf : Buf) (i : Nat) (b : Byte) : Option Buf := if i < bufSize then some (Function.update buf i b) else none

/-- The `n` bytes at `p`. -/
def slice (buf : Buf) : Nat → Nat → List Byte
  | _, 0 => []
  | p, n + 1 => buf p :: slice buf (p + 1) n

/-- The bytes of `b` at `p`. -/
def place (buf : Buf) (p : Nat) (b : List Byte) : Buf := fun i => if p ≤ i ∧ i < p + b.length then b.getD (i - p) 0 else buf i

/-- The kernel copies `b` to `buf + p`. -/
def fill (buf : Buf) (p : Nat) (b : List Byte) : Option Buf := if p + b.length ≤ bufSize then some (place buf p b) else none

/-- `strchr(p, c)`, `room` bytes before the end of the buffer. -/
def strchr (buf : Buf) (c : Byte) : Nat → Nat → Option (Option Nat)
  | 0, _ => none
  | room + 1, p =>
      if buf p = 0 then some none
      else if buf p = c then some (some p)
      else strchr buf c room (p + 1)

/-- The string at `p`. -/
def cstring (buf : Buf) : Nat → Nat → Option (List Byte)
  | 0, _ => none
  | room + 1, p => if buf p = 0 then some [] else (cstring buf room (p + 1)).map (buf p :: ·)

/-- The lines in the buffer, from `p` on. The loop runs at most `fuel` times. -/
def lines (pattern : List Byte) : Nat → Buf → Nat → List Byte → Option (Buf × Nat × List Byte)
  | 0, _, _, _ => none
  | fuel + 1, buf, p, out => do
      match ← strchr buf newline (bufSize - p) p with
      | none => return (buf, p, out)
      | some q =>
          let buf ← put buf q 0
          let text ← cstring buf (bufSize - p) p
          if grepMatch pattern text then
            let buf ← put buf q newline
            lines pattern fuel buf (q + 1) (out ++ slice buf p (q + 1 - p))
          else lines pattern fuel buf (q + 1) out

/-- `memmove(buf, p, m)`. -/
def moveDown (buf : Buf) (p m : Nat) : Option Buf := if p + m ≤ bufSize then some (place buf 0 (slice buf p m)) else none

/-- `rest` is what has not been read yet, `out` what has been written. -/
structure State where
  buf : Buf
  m : Nat
  rest : List Byte
  out : List Byte

/-- How many bytes `read` is asked for. -/
def State.want (s : State) : Nat := bufSize - s.m - 1

/-- What the loop does once `piece` has been read. -/
def State.body (pattern : List Byte) (s : State) (piece : List Byte) : Option State := do
  let buf ← fill s.buf s.m piece
  let m := s.m + piece.length
  let buf ← put buf m 0
  let (buf, p, out) ← lines pattern bufSize buf 0 s.out
  if 0 < m then
    let m := m - p
    let buf ← moveDown buf p m
    return { s with buf := buf, m := m, out := out }
  else return { s with buf := buf, m := m, out := out }

/-- `read` delivers `piece`, the next bytes of the file. -/
def State.step (pattern : List Byte) (s : State) (piece : List Byte) : Option (Except Unit State) :=
  if piece = [] ∨ s.want < piece.length ∨ s.rest.take piece.length ≠ piece then none
  else
    match s.body pattern piece with
    | none => some (.error ())
    | some t => some (.ok { t with rest := s.rest.drop piece.length })

/-- Before the first `read` of a file. -/
def State.init (buf : Buf) (file : List Byte) : State := ⟨buf, 0, file, []⟩

/-! ## Files of lines -/

/-- The file of these lines. -/
def file (ls : List (List Byte)) : List Byte := ls.flatMap (· ++ [newline])

/-- A line, without the newline at its end, that fits the buffer with it. -/
structure LineOk (l : List Byte) : Prop where
  noNul : 0 ∉ l
  noNewline : newline ∉ l
  short : l.length + 1 ≤ bufSize - 1

/-- The lines that `match` accepts. -/
def accepted (pattern : List Byte) (ls : List (List Byte)) : List Byte := file (ls.filter (grepMatch pattern))

end Xv6.Grep
