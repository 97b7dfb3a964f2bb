import Mathlib.Tactic

/-! `dns/cdns.c`: how the list of resolvers is read from `resolv.conf`. A string of the C
library is the list of its bytes before the NUL. -/

namespace Lthr.Resolv

inductive Fault
  | assert
  -- a NULL token is handed to `printf` and `inet_pton`
  | null
  -- the rounds given to a loop, or the results given to `read`, have run out
  | rounds
  deriving DecidableEq, Repr

def ascii (s : String) : List UInt8 := s.toList.map fun c => UInt8.ofNat c.toNat

abbrev Addr := List UInt8

def isDigit (b : UInt8) : Bool := decide (48 ≤ b ∧ b ≤ 57)

/-- One to three digits, without a leading zero, of a number below 256. -/
def octet (ds : List UInt8) : Option UInt8 :=
  let value := ds.foldl (fun v d => v * 10 + (d.toNat - 48)) 0
  if ds ≠ [] ∧ ds.length ≤ 3 ∧ ds.all isDigit = true ∧ (ds.head? = some 48 → ds.length = 1) ∧ value < 256 then
    some (UInt8.ofNat value)
  else none

/-- `inet_pton(AF_INET, ...)`: dotted IPv4 text, and nothing else. -/
def inetPton (s : List UInt8) : Option Addr :=
  match s.splitOn 46 with
  | [a, b, c, d] => do
    let a ← octet a
    let b ← octet b
    let c ← octet c
    let d ← octet d
    some [a, b, c, d]
  | _ => none

def addResolver (resolvers : List Addr) (resolver : List UInt8) : List Addr :=
  resolvers ++ [(inetPton resolver).getD [0, 0, 0, 0]]

def isDelim (b : UInt8) : Bool := decide (b = 32 ∨ b = 9)

/-- `strtok_r`: the next token, and the text that its state points to. -/
def strtokR (s : List UInt8) : Option (List UInt8 × List UInt8) :=
  match s.dropWhile isDelim with
  | [] => none
  | c :: r => some ((c :: r).takeWhile (!isDelim ·), ((c :: r).dropWhile (!isDelim ·)).drop 1)

def skipTokens : ℕ → List UInt8 → Except Fault Unit
  | 0, _ => .error .rounds
  | rounds + 1, s =>
    match strtokR s with
    | none => .ok ()
    | some (_, rest) => skipTokens rounds rest

def resolvConfParseLine (resolvers : List Addr) (start : List UInt8) : Except Fault (List Addr) :=
  match strtokR start with
  | none => .ok resolvers
  | some (firstToken, state) =>
    if firstToken = ascii "nameserver" then
      match strtokR state with
      | none => .error .null
      | some (token, _) => .ok (addResolver resolvers token)
    else if firstToken = ascii "domain" then .ok resolvers
    else if firstToken = ascii "search" ∨ firstToken = ascii "options" then do
      skipTokens (state.length + 1) state
      .ok resolvers
    else .ok resolvers

def parseLines : ℕ → List UInt8 → List Addr → Except Fault (List Addr)
  | 0, _, _ => .error .rounds
  | rounds + 1, start, resolvers =>
    match start.dropWhile (· ≠ 10) with
    | [] => resolvConfParseLine resolvers start
    | _ :: next => do
      let resolvers ← resolvConfParseLine resolvers (start.takeWhile (· ≠ 10))
      parseLines rounds next resolvers

/-- The loop around `read`: what has been read, or nothing if a `read` has failed. `none` in
the list of results is -1. -/
def readLoop (size : ℕ) : List (Option (List UInt8)) → List UInt8 → Except Fault (Option (List UInt8))
  | [], _ => .error .rounds
  | none :: _, _ => .ok none
  | some chunk :: reads, resolv =>
    if chunk = [] then .ok (some resolv)
    else if (resolv ++ chunk).length = size then .ok (some (resolv ++ chunk))
    else if (resolv ++ chunk).length < size then readLoop size reads (resolv ++ chunk)
    else .error .assert

structure File where
  opened : Bool
  size : Option ℕ
  allocated : Bool
  reads : List (Option (List UInt8))

/-- `dns_resolv_parse`, with the list it starts from: what it returns, and the list it leaves. -/
def dnsResolvParse (file : File) (resolvers : List Addr) : Except Fault (ℤ × List Addr) :=
  if file.opened = false then .ok (1, resolvers)
  else
    match file.size with
    | none => .ok (2, resolvers)
    | some size =>
      if size = 0 then .ok (3, resolvers)
      else if 65535 < size then .ok (4, resolvers)
      else if file.allocated = false then .ok (5, resolvers)
      else do
        match ← readLoop size file.reads [] with
        | none => .ok (6, resolvers)
        | some resolv =>
          let text := resolv.takeWhile (· ≠ 0)
          let resolvers ← parseLines (text.length + 1) text resolvers
          .ok (0, resolvers)

end Lthr.Resolv
