import Lthread.Lib.Bytes
import Lthread.Lib.Occur

/-! `klib/kstring.c`: `kstr_replace_all` and `kstr_parse_u`. A string of the C library is the
list of its bytes before the NUL. The host is little-endian: the switch of the library is
written for i386 and x86_64. -/

namespace Lthr

/-- `kstring_t`: the block is longer than `m` if a caller has lent it. -/
structure Kstring where
  s : Option (List UInt8)
  l : ℕ
  m : ℕ
  deriving DecidableEq, Repr

namespace Kstring

inductive Fault
  | overflow
  | outside
  | null
  | rounds
  deriving DecidableEq, Repr

def Ok (ks : Kstring) : Prop :=
  match ks.s with
  | none => ks.m = 0
  | some b => ks.m ≤ b.length

def load (buf : List UInt8) (i : ℕ) : Except Fault UInt8 :=
  match buf[i]? with
  | some b => .ok b
  | none => .error .outside

def store (buf : List UInt8) (off : ℕ) (src : List UInt8) : Except Fault (List UInt8) :=
  match blit buf off src with
  | some buf => .ok buf
  | none => .error .outside

def toInt (n : ℕ) : ℤ := Int.bmod n (2 ^ 32)

/-- The conversion of a sum of a `size_t` and an `int` to `size_t`. -/
def toSize (v : ℤ) : ℕ := (v % 2 ^ 64).toNat

def inInt (v : ℤ) : Except Fault ℤ := if -(2 ^ 31) ≤ v ∧ v < 2 ^ 31 then .ok v else .error .overflow

def kroundup32 (x : ℕ) : ℕ :=
  let x := x - 1
  let x := x ||| x >>> 1
  let x := x ||| x >>> 2
  let x := x ||| x >>> 4
  let x := x ||| x >>> 8
  let x := x ||| x >>> 16
  x + 1

def ksResize (malloc : ℕ → Option (List UInt8)) (ks : Kstring) (size : ℕ) : Kstring × ℤ :=
  if ks.m < size then
    let m := kroundup32 size
    match realloc malloc (ks.s.getD []) m with
    | some b => ({ ks with s := some b, m := m }, 0)
    | none => ({ ks with m := m }, -1)
  else (ks, 0)

/-! `kstr_replace_all` -/

def countLoop (rep : List UInt8) : ℕ → List UInt8 → ℕ → Except Fault ℕ
  | 0, _, _ => .error .rounds
  | rounds + 1, ins, count =>
    match strstr rep ins with
    | none => .ok count
    | some tmp => countLoop rep rounds (ins.drop (tmp + rep.length)) (count + 1)

def copyLoop (rep with_ : List UInt8) : ℕ → List UInt8 → ℕ → List UInt8 → Except Fault (List UInt8)
  | 0, buf, tmp, orig => store buf tmp (orig ++ [0])
  | count + 1, buf, tmp, orig =>
    match strstr rep orig with
    | none => .error .null
    | some lenFront => do
      let buf ← store buf tmp (orig.take lenFront)
      let buf ← store buf (tmp + lenFront) (with_ ++ [0])
      copyLoop rep with_ count buf (tmp + lenFront + with_.length) (orig.drop (lenFront + rep.length))

/-- The rest of `kstr_replace_all`, when there are `count` occurrences and the result is
`more` bytes longer than `orig`. What `ks_resize` returns is not looked at. -/
def replaceInto (malloc : ℕ → Option (List UInt8)) (orig rep with_ : List UInt8) (dest : Kstring) (count : ℕ) (more : ℤ) :
    Except Fault (Kstring × ℤ) :=
  let dest := (dest.ksResize malloc (toSize (orig.length + more + 1))).1
  let dest := { dest with l := toSize (orig.length + more) }
  match dest.s with
  | none => .ok (dest, 0)
  | some result => do
    let buf ← copyLoop rep with_ count result 0 orig
    .ok ({ dest with s := some buf }, 1)

/-- `kstr_replace_all`, with the number of rounds that the loop which counts is given. -/
def kstrReplaceAll (malloc : ℕ → Option (List UInt8)) (rounds : ℕ) (orig rep with_ : List UInt8) (dest : Kstring) :
    Except Fault (Kstring × ℤ) := do
  let count ← countLoop rep rounds orig 0
  let more ← inInt ((toInt with_.length - toInt rep.length) * count)
  replaceInto malloc orig rep with_ dest count more

/-! `kstr_parse_u` -/

def isSpace (b : UInt8) : Bool := decide (b = 32 ∨ 9 ≤ b ∧ b ≤ 13)

def hexDigit (b : UInt8) : Option ℕ :=
  if 48 ≤ b ∧ b ≤ 57 then some (b.toNat - 48)
  else if 65 ≤ b ∧ b ≤ 70 then some (b.toNat - 55)
  else if 97 ≤ b ∧ b ≤ 102 then some (b.toNat - 87)
  else none

def isHex (b : UInt8) : Bool := (hexDigit b).isSome

def hexValue (ds : List UInt8) : ℕ := ds.foldl (fun v d => v * 16 + (hexDigit d).getD 0) 0

def signOf : List UInt8 → ℕ × Bool
  | b :: _ => if b = 45 then (1, true) else if b = 43 then (1, false) else (0, false)
  | [] => (0, false)

def hexMark : List UInt8 → ℕ
  | z :: x :: d :: _ => if z = 48 ∧ (x = 120 ∨ x = 88) ∧ isHex d = true then 2 else 0
  | _ => 0

def signed (minus : Bool) (n : ℕ) : ℤ := if minus then -n else n

def clampLong (v : ℤ) : ℤ := max (-(2 ^ 63)) (min (2 ^ 63 - 1) v)

/-- `strtol(s, &end, 16)`: its value, and how many bytes stand before `end`. -/
def strtol16 (s : List UInt8) : ℤ × ℕ :=
  let blanks := (s.takeWhile isSpace).length
  let sign := signOf (s.drop blanks)
  let mark := hexMark (s.drop (blanks + sign.1))
  let digits := (s.drop (blanks + sign.1 + mark)).takeWhile isHex
  if digits = [] then (0, 0)
  else (clampLong (signed sign.2 (hexValue digits)), blanks + sign.1 + mark + digits.length)

/-- The bytes of a `uint16_t` to which a `long` has been assigned. -/
def le16 (v : ℤ) : List UInt8 :=
  let v16 := (v % 65536).toNat
  [UInt8.ofNat (v16 % 256), UInt8.ofNat (v16 / 256)]

def parseULoop : ℕ → List UInt8 → ℕ → ℤ → Except Fault (List UInt8 × ℤ)
  | 0, _, _, _ => .error .rounds
  | rounds + 1, buf, i, len =>
    if (i : ℤ) ≤ len - 6 then do
      let c ← load buf i
      let u ← load buf (i + 1)
      if c = 92 ∧ u = 117 ∧ (strtol16 (buf.drop (i + 2))).2 = 4 then do
        let buf ← store buf i (le16 (strtol16 (buf.drop (i + 2))).1)
        let buf ← store buf (i + 2) ((buf.drop (i + 6)).take (len - i - 6).toNat)
        let buf ← store buf (len - 4).toNat [0]
        parseULoop rounds buf (i + 2) (len - 4)
      else parseULoop rounds buf (i + 1) len
    else .ok (buf, len)

def kstrParseU (ks : Kstring) : Except Fault Kstring :=
  match ks.s with
  | none => .error .null
  | some buf => do
    let (buf, len) ← parseULoop (ks.l + 1) buf 0 (toInt ks.l)
    if len < 0 then .error .outside
    else do
      let buf ← store buf len.toNat [0]
      .ok { ks with s := some buf, l := len.toNat }

end Kstring
end Lthr
