/-!
# Punycode

A label with characters beyond ASCII is written in ASCII: its ASCII characters first, then,
after a dash, where the others go. They are inserted in the order of their numbers, and the
distance from one insertion to the next is a number of base 36 whose digits have
thresholds. The thresholds follow a bias that adapts to the distances seen so far.
-/

namespace SchemaAtlas.Punycode

def isAscii (c : Char) : Bool := c.toNat < 128

/-- The letters stand for 0 to 25, the digits for 26 to 35. -/
def digit (d : Nat) : Char := if d < 26 then Char.ofNat (97 + d) else Char.ofNat (22 + d)

def value? (c : Char) : Option Nat :=
  if 'a' ≤ c ∧ c ≤ 'z' then some (c.toNat - 97)
  else if 'A' ≤ c ∧ c ≤ 'Z' then some (c.toNat - 65)
  else if '0' ≤ c ∧ c ≤ '9' then some (c.toNat - 22)
  else none

/-- The threshold of the digit at place `k`, counted in steps of 36. -/
def threshold (k bias : Nat) : Nat := min 26 (max 1 (k - bias))

def scaleDown (delta k : Nat) : Nat × Nat :=
  if 455 < delta then scaleDown (delta / 35) (k + 36) else (delta, k)
termination_by delta
decreasing_by exact Nat.div_lt_self (by omega) (by omega)

/-- The bias after a distance, when there are `count` characters. -/
def adapt (delta count : Nat) (first : Bool) : Nat :=
  let delta := if first then delta / 700 else delta / 2
  let (delta, k) := scaleDown (delta + delta / count) 0
  k + 36 * delta / (delta + 38)

/-- The digits of a distance from place `k` on. -/
def distance (bias k q : Nat) : List Char :=
  let t := threshold k bias
  if q < t then [digit q]
  else digit (t + (q - t) % (36 - t)) :: distance bias (k + 36) ((q - t) / (36 - t))
termination_by q
decreasing_by
  have : 1 ≤ threshold k bias := by simp only [threshold]; omega
  exact Nat.lt_of_le_of_lt (Nat.div_le_self _ _) (by omega)

structure Progress where
  written : List Char
  delta : Nat
  bias : Nat
  handled : Nat

/-- Passes a character while those of number `code` are inserted. -/
def pass (basic code : Nat) (p : Progress) (c : Char) : Progress :=
  if c.toNat < code then { p with delta := p.delta + 1 }
  else if c.toNat = code then
    { written := p.written ++ distance p.bias 36 p.delta, delta := 0
      bias := adapt p.delta (p.handled + 1) (p.handled = basic), handled := p.handled + 1 }
  else p

/-- Inserts the characters of the given numbers, which increase from `next` on. -/
def insertions (cs : List Char) (basic next : Nat) (p : Progress) : List Nat → List Char
  | [] => p.written
  | code :: codes =>
    let p := { p with delta := p.delta + (code - next) * (p.handled + 1) }
    let p := cs.foldl (pass basic code) p
    insertions cs basic (code + 1) { p with delta := p.delta + 1 } codes

def encode (cs : List Char) : List Char :=
  let basic := cs.filter isAscii
  let codes := (((cs.filter (! isAscii ·)).map Char.toNat).mergeSort (· ≤ ·)).eraseDups
  basic ++ (if basic.isEmpty then [] else ['-']) ++
    insertions cs basic.length 128 ⟨[], 0, 72, basic.length⟩ codes

/-- A distance from its digits, added to `i`, with the characters that it leaves. -/
def readDistance (bias k weight i : Nat) : List Char → Option (Nat × List Char)
  | [] => none
  | c :: rest =>
    match value? c with
    | none => none
    | some d =>
      let t := threshold k bias
      if d < t then some (i + d * weight, rest)
      else readDistance bias (k + 36) (weight * (36 - t)) (i + d * weight) rest

/-- Inserts characters as the distances say; each step consumes a digit. -/
def readInsertions : Nat → List Char → Nat → Nat → Nat → List Char → Option (List Char)
  | _, found, _, _, _, [] => some found
  | 0, _, _, _, _, _ => none
  | steps + 1, found, i, code, bias, cs =>
    match readDistance bias 36 1 i cs with
    | none => none
    | some (j, rest) =>
      let count := found.length + 1
      let code := code + j / count
      if !code.isValidChar then none
      else
        let at_ := j % count
        let found := found.take at_ ++ Char.ofNat code :: found.drop at_
        readInsertions steps found (at_ + 1) code (adapt (j - i) count (i = 0)) rest

def decode (cs : List Char) : Option (List Char) :=
  let digits := (cs.reverse.takeWhile (· != '-')).reverse
  let basic := cs.take (cs.length - digits.length - 1)
  if !basic.all isAscii then none
  else readInsertions digits.length basic 0 128 72 digits

end SchemaAtlas.Punycode
