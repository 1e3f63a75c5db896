import CommonCc.Base
import CommonCc.Lib.Memory
import CommonCc.Lib.Search

/-!
# Packet completeness

`net_complete_longconn` and `net_complete_http` look at a receive buffer and return
the length of the packet at its start, `0` when it is not complete yet, or `-1`.
-/

namespace CommonCc

def PKT_MAX_LEN : Nat := 33554432

/-- `ntohl` on a little-endian host. -/
def ntohl (n : Nat) : Nat := leValue (u32Bytes n).reverse

def net_complete_longconn (data : Memory UInt8) (data_len : Nat) : Int :=
  if data_len < 4 then 0
  else
    let total_len := ntohl (leValue (data.read 0 4))
    if PKT_MAX_LEN < total_len then -1
    else if data_len < total_len then 0
    else toInt total_len

/-- `strstr` on the string at the start of a buffer.  Without an occurrence before
the first NUL, or before the end when there is no NUL, the scan leaves the buffer. -/
def strstr (data : Memory UInt8) (pat : Bytes) : Except Fault (Option Nat) :=
  let s := (data.read 0 data.size).takeWhile (· ≠ 0)
  match search pat s with
  | some p => .ok (some p)
  | none => if s.length < data.size then .ok none else .error .outOfBounds

def CRLFCRLF : Bytes := [13, 10, 13, 10]

def CONTENT_LENGTH : Bytes :=
  ascii ['C', 'o', 'n', 't', 'e', 'n', 't', '-', 'L', 'e', 'n', 'g', 't', 'h', ':']

def net_complete_http (data : Memory UInt8) (data_len : Nat) : Except Fault Int :=
  if data_len < 14 then .ok 0
  else
    match strstr data CRLFCRLF with
    | .error e => .error e
    | .ok (some p) =>
        match strstr data CONTENT_LENGTH with
        | .error e => .error e
        | .ok none => .ok (toInt (p + 4))
        | .ok (some q) =>
            let body := atoi (((data.read 0 data.size).takeWhile (· ≠ 0)).drop (q + 15))
            let pkglen := ((p + 4 + body : Int) % 4294967296).toNat
            .ok (if pkglen ≤ data_len then toInt pkglen else 0)
    | .ok none => .ok (if 10240000 < data_len then -1 else 0)

end CommonCc
