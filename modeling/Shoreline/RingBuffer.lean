import Shoreline.Errno
import Shoreline.Library.CircularMemory

/-!
# The network ring buffer

The C structure and every operation on it. Pointers are addresses relative
to `data`, so that pointer arithmetic one cell before or behind the block
stays visible; one cell is always left empty to tell a full ring from an
empty one. Assertions that abort the process are `none`.
-/

namespace Shoreline.RingBuffer

open CircularMemory

/-- `struct ring`; uninitialised cells have arbitrary content. -/
structure Ring where
  /-- Number of cells of the block behind `data`. -/
  size : ℕ
  /-- Memory relative to `data`. -/
  data : Memory UInt8
  /-- Next cell to read. -/
  ptrRead : ℤ
  /-- Next cell to write. -/
  ptrWrite : ℤ

/-- `ring_alloc`, given the outcome of its two `malloc` calls. -/
def ringAlloc (node : Bool) (block : Option (Memory UInt8)) (size : ℕ) : Except ℤ Ring :=
  if node then
    match block with
    | none => .error (-ENOMEM)
    | some data => .ok ⟨size,data,0,0⟩
  else .error (-ENOMEM)

/-- `ring_any_available`. -/
def ringAnyAvailable (r : Ring) : Bool := r.ptrRead≠r.ptrWrite

/-- `ring_peek_one`. -/
def ringPeekOne (r : Ring) : UInt8 := r.data r.ptrRead

/-- `ring_peek_prev`: the byte before the read pointer, wrapping backwards. -/
def ringPeekPrev (r : Ring) : UInt8 :=
  if r.ptrRead-1<0 then r.data (r.size-1) else r.data (r.ptrRead-1)

/-- `ring_next`: the cell after `ptr`. -/
def ringNext (r : Ring) (ptr : ℤ) : ℤ := if ptr<r.size-1 then ptr+1 else 0

/-- `ring_inc_read`. -/
def ringIncRead (r : Ring) : Ring := {r with ptrRead := ringNext r r.ptrRead}

/-- `ring_read_one`. -/
def ringReadOne (r : Ring) : UInt8×Ring := (r.data r.ptrRead,ringIncRead r)

/-- `ring_free_space_contig`: free cells that follow the write pointer. -/
def ringFreeSpaceContig (r : Ring) : ℕ :=
  if r.ptrRead>r.ptrWrite then (r.ptrRead-r.ptrWrite-1).toNat
  else (r.size-r.ptrWrite-(if r.ptrRead=0 then 1 else 0)).toNat

/-- The common body of `ring_advance_read` and `ring_advance_write`: both
assertions, then the pointer arithmetic. -/
def ringAdvance (r : Ring) (ptr offset : ℤ) : Option ℤ :=
  if 0≤offset ∧ offset≤r.size then
    if offset≠0 then
      if ptr+offset<r.size then some (ringNext r (ptr+offset-1))
      else some (offset-r.size+ptr)
    else some ptr
  else none

/-- `ring_advance_read`. -/
def ringAdvanceRead (r : Ring) (offset : ℤ) : Option Ring :=
  (ringAdvance r r.ptrRead offset).map fun ptr => {r with ptrRead := ptr}

/-- `ring_advance_write`. -/
def ringAdvanceWrite (r : Ring) (offset : ℤ) : Option Ring :=
  (ringAdvance r r.ptrWrite offset).map fun ptr => {r with ptrWrite := ptr}

/-- `ring_available`: number of unread bytes. -/
def ringAvailable (r : Ring) : ℕ :=
  if r.ptrWrite≥r.ptrRead then (r.ptrWrite-r.ptrRead).toNat
  else (r.size-(r.ptrRead-r.ptrWrite)).toNat

/-- `ring_available_contig`: unread bytes before the end of the block. -/
def ringAvailableContig (r : Ring) : ℕ :=
  if r.ptrWrite≥r.ptrRead then (r.ptrWrite-r.ptrRead).toNat
  else (r.size-r.ptrRead).toNat

/-- `ring_free_space`: number of bytes that still fit. -/
def ringFreeSpace (r : Ring) : ℕ :=
  if r.ptrRead>r.ptrWrite then (r.ptrRead-r.ptrWrite-1).toNat
  else (r.size-(r.ptrWrite-r.ptrRead)-1).toNat

/-- Result of `ring_memcmp`: the code, the position stored through
`next_pos` and the ring. -/
structure MemcmpReport where
  /-- Negative: not enough data; zero: match; positive: no match. -/
  ret : ℤ
  /-- Value written through a non-NULL `next_pos`, on a match. -/
  nextPos : Option ℤ
  /-- The ring after the call. -/
  ring : Ring

/-- `ring_memcmp` on the bytes of `ref`; `wantPos` says whether `next_pos`
is non-NULL, in which case nothing is consumed. -/
def ringMemcmp (r : Ring) (ref : List UInt8) (wantPos : Bool) : Option MemcmpReport :=
  let len := ref.length
  if ringAvailable r<len then some ⟨-EINVAL,none,r⟩
  else
    let availContig := ringAvailableContig r
    if availContig≥len then
      if load r.data r.ptrRead len≠ref then some ⟨1,none,r⟩
      else if wantPos then some ⟨0,some (ringNext r (r.ptrRead+len-1)),r⟩
      else (ringAdvanceRead r len).map fun r' => ⟨0,none,r'⟩
    else if load r.data r.ptrRead availContig≠ref.take availContig ∨
        load r.data 0 (len-availContig)≠ref.drop availContig then some ⟨1,none,r⟩
    else if wantPos then some ⟨0,some (len-availContig),r⟩
    else (ringAdvanceRead r len).map fun r' => ⟨0,none,r'⟩

/-- Result of the block operations: the code, the bytes copied out and the
ring. -/
structure CopyReport where
  /-- Zero, or a negated error number. -/
  ret : ℤ
  /-- Bytes written to the caller's buffer. -/
  bytes : List UInt8
  /-- The ring after the call. -/
  ring : Ring

/-- `ring_peek`: copy bytes out without consuming them. -/
def ringPeek (r : Ring) (len : ℕ) : CopyReport :=
  if ringAvailable r<len then ⟨-EINVAL,[],r⟩
  else
    let availContig := ringAvailableContig r
    if availContig≥len then ⟨0,load r.data r.ptrRead len,r⟩
    else ⟨0,load r.data r.ptrRead availContig++load r.data 0 (len-availContig),r⟩

/-- `ring_read`: copy bytes out and consume them. -/
def ringRead (r : Ring) (len : ℕ) : CopyReport :=
  if ringAvailable r<len then ⟨-EINVAL,[],r⟩
  else
    let availContig := ringAvailableContig r
    if availContig≥len then
      ⟨0,load r.data r.ptrRead len,{r with ptrRead := ringNext r (r.ptrRead+len-1)}⟩
    else
      ⟨0,load r.data r.ptrRead availContig++load r.data 0 (len-availContig),
        {r with ptrRead := len-availContig}⟩

/-- `ring_write`: append bytes, or refuse them all. -/
def ringWrite (r : Ring) (bytes : List UInt8) : CopyReport :=
  let len := bytes.length
  if ringFreeSpace r<len then ⟨-EINVAL,[],r⟩
  else
    let freeContig := ringFreeSpaceContig r
    if freeContig≥len then
      ⟨0,[],{r with data := store r.data r.ptrWrite bytes
                    ptrWrite := ringNext r (r.ptrWrite+len-1)}⟩
    else
      ⟨0,[],{r with data := store (store r.data r.ptrWrite (bytes.take freeContig)) 0
                      (bytes.drop freeContig)
                    ptrWrite := len-freeContig}⟩

/-- Bytes stored by somebody else at the write pointer, as `read` does from
a socket, then acknowledged by `ring_advance_write`. -/
def ringReceive (r : Ring) (bytes : List UInt8) : Option Ring :=
  ringAdvanceWrite {r with data := store r.data r.ptrWrite bytes} bytes.length

end Shoreline.RingBuffer
