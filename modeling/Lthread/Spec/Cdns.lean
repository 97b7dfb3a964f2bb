import Mathlib.Tactic

/-! `dns/cdns.c`: what `dns_lookup` does with the datagram it receives, and its loop over
the resolvers. The datagram is the list of the bytes received; an access at or past its
end is a fault, and so no walk goes on after one. The structs are packed: `DNSQuery` has
12 bytes, `DNSQuestion` 4, `DNSAnswer` 10. -/

namespace Lthr.Cdns

abbrev Datagram := List UInt8

inductive Fault
  -- a byte past the end of the datagram is read or written
  | outside (offset : ℕ)
  | rounds
  deriving DecidableEq, Repr

def byte (d : Datagram) (offset : ℕ) : Except Fault UInt8 :=
  match d[offset]? with
  | some b => .ok b
  | none => .error (.outside offset)

def swap (d : Datagram) (i j : ℕ) : Except Fault Datagram := do
  let a ← byte d i
  let b ← byte d j
  .ok ((d.set i b).set j a)

def swab (d : Datagram) (offset : ℕ) : ℕ → Except Fault Datagram
  | 0 => .ok d
  | words + 1 => do
    let d ← swap d offset (offset + 1)
    swab d (offset + 2) words

def load16 (bigEndian : Bool) (d : Datagram) (offset : ℕ) : Except Fault ℕ := do
  let a ← byte d offset
  let b ← byte d (offset + 1)
  .ok (if bigEndian then a.toNat * 256 + b.toNat else b.toNat * 256 + a.toNat)

def load32 (bigEndian : Bool) (d : Datagram) (offset : ℕ) : Except Fault ℕ := do
  let hi ← load16 bigEndian d offset
  let lo ← load16 bigEndian d (offset + 2)
  .ok (if bigEndian then hi * 65536 + lo else lo * 65536 + hi)

def querySize : ℕ := 12

def parseDnsNameLoop (d : Datagram) : ℕ → ℕ → Bool → ℕ → Except Fault ℕ
  | 0, _, _, _ => .error .rounds
  | rounds + 1, offset, followed, len => do
    let b ← byte d offset
    if b = 0 then .ok len
    else if followed = false ∧ b &&& 0xC0 = 0xC0 then
      parseDnsNameLoop d rounds (querySize + (b &&& 0x3F).toNat) true (len + 1)
    else
      parseDnsNameLoop d rounds (offset + (b.toNat + 1)) followed
        (if followed then len else len + (b.toNat + 1))

/-- `parse_dns_name`. Before and after it follows a pointer the offset only grows, so
twice the length of the datagram is enough rounds. -/
def parseDnsName (d : Datagram) (offset : ℕ) : Except Fault ℕ :=
  parseDnsNameLoop d (2 * d.length + 3) offset false 1

def skipQuestions (d : Datagram) : ℕ → ℕ → Except Fault ℕ
  | 0, offset => .ok offset
  | n + 1, offset => do
    let len ← parseDnsName d offset
    skipQuestions d n (offset + (len + 4))

/-- The fields of a `DNSAnswer` are put into the byte order of the host. -/
def swapAnswer (bigEndian : Bool) (d : Datagram) (offset : ℕ) : Except Fault Datagram :=
  if bigEndian then .ok d
  else do
    let d ← swap d offset (offset + 1)
    let d ← swap d (offset + 2) (offset + 3)
    let d ← swap d (offset + 8) (offset + 9)
    let d ← swap d (offset + 4) (offset + 7)
    swap d (offset + 5) (offset + 6)

structure Answer where
  type : ℕ
  cls : ℕ
  rdlength : ℕ
  deriving DecidableEq, Repr

/-- `TYPE` is `DNS_TYPE_A`, `CLASS` is `DNS_CLASS_IN`, and there are four bytes of data. -/
def Answer.isAddress (a : Answer) : Bool := decide (a.type = 1 ∧ a.cls = 1 ∧ a.rdlength = 4)

def readAnswer (bigEndian : Bool) (d : Datagram) (offset : ℕ) : Except Fault (Datagram × Answer) := do
  let d ← swapAnswer bigEndian d offset
  let type ← load16 bigEndian d offset
  let cls ← load16 bigEndian d (offset + 2)
  let rdlength ← load16 bigEndian d (offset + 8)
  .ok (d, ⟨type, cls, rdlength⟩)

/-- The loop over the answers, with `n` of them still to come: the value it leaves in
`i`, and in `ipv4`. -/
def walkAnswers (bigEndian : Bool) : ℕ → ℕ → Datagram → ℕ → Except Fault (ℕ × ℕ)
  | 0, i, _, _ => .ok (i, 0)
  | n + 1, i, d, offset => do
    let len ← parseDnsName d offset
    let (d, answer) ← readAnswer bigEndian d (offset + len)
    if answer.isAddress then do
      let ipv4 ← load32 bigEndian d (offset + len + 10)
      .ok (i, ipv4)
    else walkAnswers bigEndian n (i + 1) d (offset + len + 10 + answer.rdlength)

inductive Reply
  | flagError
  | walked (i ipv4 : ℕ)
  deriving DecidableEq, Repr

/-- `DNS_FLAG_QR` is set and `DNS_FLAG_RCODE_MASK` gives `DNS_FLAG_RCODE_OK`. -/
def flagsOk (flags : ℕ) : Bool := flags.testBit 15 && decide (flags % 16 = 0)

def swapQuery (bigEndian : Bool) (d : Datagram) : Except Fault Datagram :=
  if bigEndian then .ok d else swab d 0 6

def readResponse (bigEndian : Bool) (d : Datagram) : Except Fault Reply := do
  let d ← swapQuery bigEndian d
  let flags ← load16 bigEndian d 2
  if flagsOk flags then do
    let qdcount ← load16 bigEndian d 4
    let offset ← skipQuestions d qdcount querySize
    let ancount ← load16 bigEndian d 6
    let (i, ipv4) ← walkAnswers bigEndian ancount 0 d offset
    .ok (.walked i ipv4)
  else .ok .flagError

inductive Exchange
  | socketError
  | sendError
  | noResponse
  | response (d : Datagram)

/-- The loop of `dns_lookup`, where `n` resolvers are configured and exchange number `k` goes
as `net k`. Its result is the numbers of the resolvers it has tried, with the address it
has found. The loops over a response count with the variable of this loop. -/
def lookupLoop (bigEndian : Bool) (n : ℕ) (net : ℕ → Exchange) :
    ℕ → ℕ → List ℕ → Except Fault (List ℕ × ℕ)
  | 0, _, _ => .error .rounds
  | rounds + 1, i, queried =>
    if i < n then
      match net queried.length with
      | .socketError => .ok (queried ++ [i], 0)
      | .sendError | .noResponse => lookupLoop bigEndian n net rounds (i + 1) (queried ++ [i])
      | .response d => do
        match ← readResponse bigEndian d with
        | .flagError => lookupLoop bigEndian n net rounds (i + 1) (queried ++ [i])
        | .walked i' ipv4 =>
          if ipv4 ≠ 0 then .ok (queried ++ [i], ipv4)
          else lookupLoop bigEndian n net rounds (i' + 1) (queried ++ [i])
    else .ok (queried, 0)

def dnsLookup (bigEndian : Bool) (resolvers : List UInt32) (net : ℕ → Exchange) (rounds : ℕ) :
    Except Fault (List ℕ × ℕ) :=
  lookupLoop bigEndian resolvers.length net rounds 0 []

end Lthr.Cdns
