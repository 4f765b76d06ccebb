import Xv6.Log.System
import Xv6.Lib.Writes

/-!
# Crashes

A crash keeps the disk and nothing else. It falls between two writes of single blocks, so the disk
it leaves is the disk before with the first `k` writes applied. After a crash the machine boots
with an empty cache and runs `recover_from_log`, which may crash as well.
-/

namespace Xv6.Log

open Lib

/-- The writes to the device that `m` makes from `s`, in order. -/
def writesOf (m : K Unit) (s : Sys) : List (Nat × Block) :=
  match m s with
  | .ok _ t => t.writes.drop s.writes.length
  | .error _ t => t.writes.drop s.writes.length

/-- The disk when `m` crashes after its first `k` writes. -/
def crashDisk (m : K Unit) (s : Sys) (k : Nat) : Nat → Block :=
  applyWrites s.disk ((writesOf m s).take k)

/-- The machine after a reboot with disk `d`. -/
def reboot (d : Nat → Block) (start : Nat) : Sys := binit d rootDev start

/-- The disk after recoveries that crash after `ks[0]`, `ks[1]`, … of their own writes. -/
def crashedRecoveries (p start : Nat) (d : Nat → Block) (ks : List Nat) : Nat → Block :=
  ks.foldl (fun d k => crashDisk (recoverFromLog p) (reboot d start) k) d

/-- A transaction: its home blocks, the disk before it, and the contents it gives to its blocks. -/
structure Txn where
  start : Nat
  blocks : List Nat
  old : Nat → Block
  new : Nat → Block
  length_le : blocks.length ≤ logBlocks
  nodup : blocks.Nodup
  out : ∀ b ∈ blocks, ¬ InLog start b
  lt : ∀ b ∈ blocks, b < 2 ^ 32

namespace Txn

variable (T : Txn)

/-- The blocks outside the log and the transaction are as before it. -/
def Rest (d : Nat → Block) : Prop := ∀ b, ¬ InLog T.start b → b ∉ T.blocks → d b = T.old b

/-- The header is empty and no home block has changed. -/
def Before (d : Nat → Block) : Prop :=
  load 4 (d T.start) 0 = 0 ∧ (∀ b ∈ T.blocks, d b = T.old b) ∧ T.Rest d

/-- The header names the home blocks and the log holds their new contents. -/
def Logged (d : Nat → Block) : Prop :=
  getHead (d T.start) = T.blocks ∧
    (∀ k < T.blocks.length, d (T.start + k + 1) = T.new (T.blocks.getD k 0)) ∧ T.Rest d

/-- The header is empty and every home block has its new contents. -/
def Done (d : Nat → Block) : Prop :=
  load 4 (d T.start) 0 = 0 ∧ (∀ b ∈ T.blocks, d b = T.new b) ∧ T.Rest d

end Txn

end Xv6.Log
