import Xv6.Console.Console

/-!
# Lines, and the system of readers

`Lines` says what the edited input is: a stream of committed bytes, and the current line. The system runs the
console with any number of readers beside it.
-/

namespace Xv6.Console

/-! ## Edited input -/

/-- All that has been committed so far, and the current line. -/
structure Lines where
  committed : List Byte
  pending : List Byte

/-- The bytes that are not taken yet fill the buffer. -/
def Lines.full (l : Lines) (taken : Nat) : Bool := l.committed.length - taken + l.pending.length == inputBufSize

/-- The current line is committed. -/
def Lines.commit (l : Lines) : Lines := ⟨l.committed ++ l.pending, []⟩

/-- A character is typed, when `taken` bytes have been taken. -/
def Lines.type (taken : Nat) (c : Byte) (l : Lines) : Lines :=
  if c = control 'U' then { l with pending := [] }
  else if c = control 'H' ∨ c = delete then { l with pending := l.pending.dropLast }
  else if c = 0 ∨ l.full taken then l
  else
    let c := if c = carriageReturn then newline else c
    let l := { l with pending := l.pending ++ [c] }
    if c = newline ∨ c = control 'D' ∨ l.full taken then l.commit else l

/-- Bytes within a line. -/
def Plain (b : List Byte) : Prop := newline ∉ b ∧ control 'D' ∉ b

/-- A part of one line: only its last byte may end the line. -/
def PartOfLine (b : List Byte) : Prop := newline ∉ b.dropLast ∧ control 'D' ∉ b

/-! ## The system -/

/-- A read in progress. It started when `start` bytes had been taken, and has been `alone` if no other read was in
progress since. -/
structure Reading where
  reader : Reader
  works : Nat → Bool
  start : Nat
  alone : Bool

/-- A read that has returned. -/
structure Completed where
  reader : Reader
  start : Nat
  stop : Nat
  alone : Bool

/-- What the read returns is, from the place where it started, a part of one line; or it is nothing, and there was a
`^D`. -/
def Completed.Whole (committed : List Byte) (x : Completed) : Prop :=
  (x.reader.got ≠ [] ∧ PartOfLine x.reader.got ∧ x.reader.got.length ≤ x.reader.target ∧ x.stop = x.start + x.reader.got.length ∧
    ∃ v, committed.drop x.start = x.reader.got ++ v) ∨
  (x.reader.got = [] ∧ x.stop = x.start + 1 ∧ ∃ v, committed.drop x.start = control 'D' :: v)

/-- `taken` counts the bytes that have been taken from the buffer, `delivered` are those that have been copied out. -/
structure Sys where
  cons : Cons
  lines : Lines
  taken : Nat
  delivered : List Byte
  readings : List Reading
  completed : List Completed

inductive Act
  | intr (c : Byte)
  | read (n : Int) (works : Nat → Bool)
  /-- The reader in place `k` wakes up. -/
  | resume (k : Nat)
  /-- The reader in place `k` has been killed while it slept. -/
  | kill (k : Nat)

namespace Sys

/-- The read `x` runs until it returns or sleeps. The others are `before` and `after`. -/
def advance (s : Sys) (x : Reading) (before after : List Reading) : Sys :=
  let (cons, reader, done) := consoleread x.works x.reader.target x.reader.n x.reader.got s.cons
  let taken := s.taken + (cons.r - s.cons.r).toNat
  { s with
    cons := cons
    taken := taken
    delivered := s.delivered ++ reader.got.drop x.reader.got.length
    readings := before ++ (if done then [] else [{ x with reader := reader }]) ++ after
    completed := if done then s.completed ++ [⟨reader, x.start, taken, x.alone⟩] else s.completed }

def step (s : Sys) : Act → Option (Except Stop Sys)
  | .intr c =>
      match consoleintr none c s.cons with
      | .ok (cons, _) => some (.ok { s with cons := cons, lines := s.lines.type s.taken c })
      | .error e => some (.error e)
  | .read n works =>
      let x : Reading := ⟨⟨n.toNat, n.toNat, []⟩, works, s.taken, s.readings.isEmpty⟩
      some (.ok (s.advance x (s.readings.map fun y => { y with alone := false }) []))
  | .resume k => s.readings[k]?.map fun x => .ok (s.advance x (s.readings.take k) (s.readings.drop (k + 1)))
  | .kill k =>
      if k < s.readings.length ∧ s.cons.r = s.cons.w then some (.ok { s with readings := s.readings.eraseIdx k }) else none

/-- The characters that are not commands to the kernel; each destination works. -/
def ok (_ : Sys) : Act → Prop
  | .intr c => c ≠ control 'P' ∧ c ≠ control 'X' ∧ c ≠ control 'C'
  | .read _ works => ∀ i, works i = true
  | _ => True

/-- After `consoleinit`. The indices are anything that is equal. -/
def init (buf : Nat → Byte) (r : BitVec 32) : Sys := ⟨⟨buf, r, r, r, []⟩, ⟨[], []⟩, 0, [], [], []⟩

end Sys

end Xv6.Console
