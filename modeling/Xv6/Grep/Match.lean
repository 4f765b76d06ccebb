import Xv6.Param

/-!
# The matcher of `grep.c`, and what patterns mean

A string is the list of its characters before the terminator.
-/

namespace Xv6.Grep

abbrev Byte := BitVec 8

def ascii (c : Char) : Byte := BitVec.ofNat 8 c.toNat

/-! ## The matcher -/

/-- `matchstar(c, re, text)`, where `matchhere` is the call for `re`. -/
def matchstar (matchhere : List Byte → Bool) (c : Byte) : List Byte → Bool
  | [] => matchhere []
  | t :: text => matchhere (t :: text) || ((t == c || c == ascii '.') && matchstar matchhere c text)

def matchhere : List Byte → List Byte → Bool
  | [], _ => true
  | [c], text =>
      if c = ascii '$' then text.isEmpty
      else
        match text with
        | [] => false
        | t :: text => (c == ascii '.' || c == t) && matchhere [] text
  | c :: d :: re, text =>
      if d = ascii '*' then matchstar (matchhere re) c text
      else
        match text with
        | [] => false
        | t :: text => (c == ascii '.' || c == t) && matchhere (d :: re) text

/-- The loop of `match`. -/
def matchAnywhere (re : List Byte) : List Byte → Bool
  | [] => matchhere re []
  | t :: text => matchhere re (t :: text) || matchAnywhere re text

/-- `match(re, text)`. -/
def grepMatch (re text : List Byte) : Bool :=
  match re with
  | [] => matchAnywhere [] text
  | c :: re => if c = ascii '^' then matchhere re text else matchAnywhere (c :: re) text

/-! ## Patterns -/

inductive Item
  | one (c : Byte)
  | star (c : Byte)
  deriving DecidableEq

/-- The items of a pattern behind its `^`, and whether it ends in a `$`. -/
def readItems : List Byte → List Item × Bool
  | [] => ([], false)
  | [c] => if c = ascii '$' then ([], true) else ([.one c], false)
  | c :: d :: re =>
      if d = ascii '*' then (.star c :: (readItems re).1, (readItems re).2)
      else (.one c :: (readItems (d :: re)).1, (readItems (d :: re)).2)

/-- The character `t` is one that `c` stands for. -/
def Fits (c t : Byte) : Prop := c = ascii '.' ∨ c = t

/-- The whole of a text matches the items. -/
inductive Matches : List Item → List Byte → Prop
  | nil : Matches [] []
  | one {c t items text} (hc : Fits c t) (h : Matches items text) : Matches (.one c :: items) (t :: text)
  | star {c run items text} (hc : ∀ t ∈ run, Fits c t) (h : Matches items text) : Matches (.star c :: items) (run ++ text)

/-- A part of the text matches; at its start if the pattern has a `^`, and at its end if it has a `$`. -/
def Accepts (re text : List Byte) : Prop :=
  ∃ before part after, text = before ++ part ++ after ∧
    (re.head? = some (ascii '^') → before = []) ∧
    Matches (readItems (if re.head? = some (ascii '^') then re.tail else re)).1 part ∧
    ((readItems (if re.head? = some (ascii '^') then re.tail else re)).2 = true → after = [])

end Xv6.Grep
