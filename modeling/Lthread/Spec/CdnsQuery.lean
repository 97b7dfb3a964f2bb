import Lthread.Lib.Bytes
import Lthread.Spec.Cdns
import Lthread.Spec.Resolv

/-! `dns/cdns.c`: the query that `dns_lookup` makes of a host name. `mux/tcp_conn.c`: the
host name that `tcp_dial_ipv4` hands to it. -/

namespace Lthr.Cdns

def store (d : Datagram) (offset : ℕ) (b : UInt8) : Except Fault Datagram :=
  if offset < d.length then .ok (d.set offset b) else .error (.outside offset)

def store16 (bigEndian : Bool) (d : Datagram) (offset v : ℕ) : Except Fault Datagram := do
  let hi := UInt8.ofNat (v / 256)
  let lo := UInt8.ofNat v
  let d ← store d offset (if bigEndian then hi else lo)
  store d (offset + 1) (if bigEndian then lo else hi)

def memcpy (d : Datagram) (offset : ℕ) (src : List UInt8) : Except Fault Datagram :=
  match blit d offset src with
  | some d => .ok d
  | none => .error (.outside d.length)

/-- The loop of `dns_lookup` over the host name, from `ptr` on. A byte takes the length
modulo 256. -/
def encodeLoop : ℕ → Datagram → ℕ → ℕ → Except Fault Datagram
  | 0, _, _, _ => .error .rounds
  | rounds + 1, d, ptr, len => do
    let first ← byte d ptr
    if first = 0 then .ok d
    else do
      let b ← byte d (ptr + len)
      if b = 46 ∨ b = 0 then do
        let d ← store d (ptr - 1) (UInt8.ofNat len)
        encodeLoop rounds d (ptr + (len + 1)) 0
      else encodeLoop rounds d ptr (len + 1)

def queryFlags : ℕ := 0x0100

/-- `sbuf` of `dns_lookup`, as it is handed to `lthread_send`. The loop over the name has one
round for each byte of the host and two more. -/
def encodeQuery (bigEndian : Bool) (rand : ℕ) (host : List UInt8) : Except Fault Datagram := do
  let hostLen := host.length
  let d := List.replicate (querySize + hostLen + 2 + 4) 0
  let d ← store16 bigEndian d 0 (rand % 65535)
  let d ← store16 bigEndian d 2 queryFlags
  let d ← store16 bigEndian d 4 1
  let d ← memcpy d (querySize + 1) host
  let d ← store d (querySize + 1 + hostLen) 0
  let d ← encodeLoop (hostLen + 2) d (querySize + 1) 0
  let question := querySize + hostLen + 2
  let d ← store16 bigEndian d question 1
  let d ← store16 bigEndian d (question + 2) 1
  if bigEndian then .ok d
  else do
    let d ← swab d 0 6
    swab d question 2

/-- How far `tcp_dial_ipv4` comes before it opens its socket. -/
inductive Dial
  | noPort
  | address (ip : Resolv.Addr)
  -- `dns_lookup` has no memory for its buffers, and gives 0
  | noMemory
  | query (d : Datagram)
  deriving DecidableEq, Repr

def tcpDialIpv4 (bigEndian : Bool) (rand : ℕ) (allocated : Bool) (hostPort : List UInt8) : Except Fault Dial :=
  match hostPort.dropWhile (· ≠ 58) with
  | [] => .ok .noPort
  | _ :: _ =>
    let host := hostPort.takeWhile (· ≠ 58)
    match Resolv.inetPton host with
    | some ip => .ok (.address ip)
    | none =>
      if allocated then do
        let d ← encodeQuery bigEndian rand host
        .ok (.query d)
      else .ok .noMemory

end Lthr.Cdns
