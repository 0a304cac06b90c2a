import Shoreline.RingContent

/-!
# Token scanning on the ring

The look-ahead and number helpers of the connection thread. A reader is the
ring with a history counter of every read-side access that was made while
no received byte was left for it; the helpers never consult the counter.
Characters are signed, as on the machines the server is built for.
-/

namespace Shoreline.NetToken

open CircularMemory RingBuffer RingContent

/-- `WHITESPACE_SEARCH_GARBAGE_THRESHOLD`. -/
def whitespaceSearchGarbageThreshold : ℤ := 32

/-- The value of a `char`. -/
def charValue (c : UInt8) : ℤ := c.toInt8.toInt

/-- `net_is_newline`. -/
def netIsNewline (c : UInt8) : Bool := c=0x0d || c=0x0a

/-- `net_is_whitespace`. -/
def netIsWhitespace (c : UInt8) : Bool := c=0x20 || c=0x0a || c=0x0d || c=0x09

/-- The ring as the parser uses it. -/
structure Reader where
  /-- The ring itself. -/
  ring : Ring
  /-- History: accesses behind the last received byte. -/
  overruns : ℕ

namespace Reader

/-- History after an access that needs `k` unread bytes. -/
def needing (s : Reader) (k : ℕ) : Reader :=
  {s with overruns := s.overruns+if k≤ringAvailable s.ring then 0 else 1}

/-- `ring_peek_one`. -/
def peekOne (s : Reader) : UInt8×Reader := (ringPeekOne s.ring,s.needing 1)

/-- `ring_inc_read`. -/
def incRead (s : Reader) : Reader := {s.needing 1 with ring := ringIncRead s.ring}

/-- `ring_read_one`. -/
def readOne (s : Reader) : UInt8×Reader :=
  let out := ringReadOne s.ring
  (out.1,{s.needing 1 with ring := out.2})

/-- `ring_advance_read`. -/
def advanceRead (s : Reader) (offset : ℤ) : Option Reader :=
  (ringAdvanceRead s.ring offset).map fun ring => {s.needing offset.toNat with ring := ring}

/-- `ring_memcmp` without `next_pos`; it checks the length itself. -/
def memcmp (s : Reader) (ref : List UInt8) : Option (ℤ×Reader) :=
  (ringMemcmp s.ring ref false).map fun out => (out.ret,{s with ring := out.ring})

/-- The reader after `k` received bytes were consumed. -/
def skip (s : Reader) (k : ℕ) : Reader := {s with ring := RingContent.skip s.ring k}

end Reader

/-- The loop of `net_skip_whitespace`; one unit of fuel per round. -/
def netSkipWhitespaceLoop : ℕ → ℤ → Reader → ℤ×Reader
  | 0,cnt,s => (cnt,s)
  | fuel+1,cnt,s =>
    if ringAnyAvailable s.ring then
      let out := s.peekOne
      if netIsWhitespace out.1 then netSkipWhitespaceLoop fuel (cnt+1) out.2.incRead
      else (cnt,out.2)
    else (cnt,s)

/-- `net_skip_whitespace`: number of bytes skipped, or -1 for none. -/
def netSkipWhitespace (s : Reader) : ℤ×Reader :=
  let out := netSkipWhitespaceLoop s.ring.size 0 s
  (if out.1≠0 then out.1 else -1,out.2)

/-- The loop of `net_next_whitespace`; one unit of fuel per round. -/
def netNextWhitespaceLoop : ℕ → ℤ → Reader → ℤ×Reader
  | 0,_,s => (-1,s)
  | fuel+1,offset,s =>
    if ringAnyAvailable s.ring then
      let out := s.readOne
      if netIsWhitespace out.1 then (offset,out.2)
      else if offset≥whitespaceSearchGarbageThreshold then (-EINVAL,out.2)
      else netNextWhitespaceLoop fuel (offset+1) out.2
    else (-1,s)

/-- `net_next_whitespace`: distance to the next whitespace, -1 when none has
been received, `-EINVAL` behind the garbage threshold. The read pointer is
restored. -/
def netNextWhitespace (s : Reader) : ℤ×Reader :=
  let out := netNextWhitespaceLoop s.ring.size 0 s
  (out.1,{out.2 with ring := {out.2.ring with ptrRead := s.ring.ptrRead}})

/-- Rounds of the loop that both number parsers run. -/
def netStrToUint32Loop (base : UInt32) (digit : UInt8 → ℤ) : ℕ → UInt32 → Reader → UInt32×Reader
  | 0,val,s => (val,s)
  | rounds+1,val,s =>
    let out := s.readOne
    netStrToUint32Loop base digit rounds (val*base+UInt32.ofInt (digit out.1)) out.2

/-- The contribution of one decimal character. -/
def decDigit (c : UInt8) : ℤ := charValue c-0x30

/-- The contribution of one hexadecimal character. -/
def hexDigit (c : UInt8) : ℤ :=
  let lower := charValue (c ||| 0x20)
  if lower≥0x61 then lower-0x61+10 else lower-0x30

/-- `net_str_to_uint32_10`. -/
def netStrToUint32_10 (s : Reader) (len : ℤ) : UInt32×Reader :=
  netStrToUint32Loop 10 decDigit len.toNat 0 s

/-- `net_str_to_uint32_16`. -/
def netStrToUint32_16 (s : Reader) (len : ℤ) : UInt32×Reader :=
  netStrToUint32Loop 16 hexDigit len.toNat 0 s

end Shoreline.NetToken
