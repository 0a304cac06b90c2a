import Shoreline.RingBuffer

/-!
# Representation invariant and unread content of the ring

A valid ring keeps both pointers inside its block. Its content is the
circular window from the read to the write pointer; every operation is
described by what it does to that list, for every size and position.
-/

namespace Shoreline.RingContent

open CircularMemory RingBuffer

/-- The representation invariant: both pointers point into the block. -/
structure RingInv (r : Ring) : Prop where
  /-- The read pointer is not before the block. -/
  read_nonneg : 0≤r.ptrRead
  /-- The read pointer is not behind the block. -/
  read_lt : r.ptrRead<r.size
  /-- The write pointer is not before the block. -/
  write_nonneg : 0≤r.ptrWrite
  /-- The write pointer is not behind the block. -/
  write_lt : r.ptrWrite<r.size

/-- The unread bytes in order. -/
def content (r : Ring) : List UInt8 := window r.data r.size r.ptrRead (ringAvailable r)

/-- The ring after `k` unread bytes were consumed. -/
def skip (r : Ring) (k : ℕ) : Ring := {r with ptrRead := cell r.size r.ptrRead k}

@[simp] theorem skip_size (r : Ring) (k : ℕ) : (skip r k).size=r.size := rfl

@[simp] theorem skip_data (r : Ring) (k : ℕ) : (skip r k).data=r.data := rfl

@[simp] theorem skip_ptrWrite (r : Ring) (k : ℕ) : (skip r k).ptrWrite=r.ptrWrite := rfl

@[simp] theorem content_length (r : Ring) : (content r).length=ringAvailable r :=
  window_length _ _ _ _

variable {r : Ring}

/-- A fresh ring of at least one cell is valid and empty. -/
theorem ringAlloc_spec {size : ℕ} (hsize : 0<size) {node : Bool} {block : Option (Memory UInt8)}
    (h : ringAlloc node block size=.ok r) : RingInv r ∧ r.size=size ∧ content r=[] := by
  have hs : (0 : ℤ)<size := by exact_mod_cast hsize
  unfold ringAlloc at h
  split at h
  · split at h
    · cases h
    · cases h
      exact ⟨⟨le_refl _,hs,le_refl _,hs⟩,rfl,rfl⟩
  · cases h

/-- At least one cell stays empty. -/
theorem available_lt (hr : RingInv r) : ringAvailable r<r.size := by
  obtain ⟨h1,h2,h3,h4⟩ := hr
  unfold ringAvailable
  split <;> omega

/-- The two size queries account for every cell but the reserved one. -/
theorem available_add_freeSpace (hr : RingInv r) :
    ringAvailable r+ringFreeSpace r=r.size-1 := by
  obtain ⟨h1,h2,h3,h4⟩ := hr
  unfold ringAvailable ringFreeSpace
  split <;> split <;> omega

/-- The contiguous free space never exceeds the free space. -/
theorem freeSpaceContig_le (hr : RingInv r) : ringFreeSpaceContig r≤ringFreeSpace r := by
  obtain ⟨h1,h2,h3,h4⟩ := hr
  unfold ringFreeSpaceContig ringFreeSpace
  split_ifs <;> omega

/-- Some contiguous space is left unless the ring is full. -/
theorem freeSpaceContig_pos (hr : RingInv r) (h : 0<ringFreeSpace r) :
    0<ringFreeSpaceContig r := by
  obtain ⟨h1,h2,h3,h4⟩ := hr
  unfold ringFreeSpace at h
  unfold ringFreeSpaceContig
  split_ifs at h ⊢ <;> omega

/-- The write pointer is the cell just behind the unread bytes. -/
theorem ptrWrite_eq_cell (hr : RingInv r) :
    r.ptrWrite=cell r.size r.ptrRead (ringAvailable r) := by
  obtain ⟨h1,h2,h3,h4⟩ := hr
  unfold cell ringAvailable
  split <;> split <;> omega

/-- The number of unread bytes is determined by the write pointer. -/
theorem available_eq_of_ptrWrite (hn : r.ptrRead<r.size) {k : ℕ}
    (hk : k<r.size) (h : r.ptrWrite=cell r.size r.ptrRead k) : ringAvailable r=k := by
  unfold cell at h
  unfold ringAvailable
  split at h <;> split <;> omega

/-- There is an unread byte exactly when the content is non-empty. -/
theorem anyAvailable_iff (hr : RingInv r) : ringAnyAvailable r=true ↔ 0<ringAvailable r := by
  obtain ⟨h1,h2,h3,h4⟩ := hr
  simp only [ringAnyAvailable,decide_eq_true_eq,ne_eq]
  unfold ringAvailable
  split <;> omega

/-- Consuming no byte changes nothing. -/
theorem skip_zero (hr : RingInv r) : skip r 0=r := by
  simp only [skip,cell_zero hr.read_lt]

/-- Consuming received bytes keeps the ring valid. -/
theorem skip_inv (hr : RingInv r) {k : ℕ} (hk : k≤ringAvailable r) : RingInv (skip r k) := by
  have ha := available_lt hr
  have hc := cell_bounds hr.read_nonneg hr.read_lt (by omega : k≤r.size)
  exact ⟨hc.1,hc.2,hr.write_nonneg,hr.write_lt⟩

/-- Consumption composes. -/
theorem skip_skip (hr : RingInv r) {i j : ℕ} (h : i+j≤ringAvailable r) :
    skip (skip r i) j=skip r (i+j) := by
  have ha := available_lt hr
  simp only [skip,cell_cell hr.read_lt (by omega : i+j≤r.size)]

/-- Consumed bytes are no longer counted. -/
theorem available_skip (hr : RingInv r) {k : ℕ} (hk : k≤ringAvailable r) :
    ringAvailable (skip r k)=ringAvailable r-k := by
  have ha := available_lt hr
  have hi := skip_inv hr hk
  refine available_eq_of_ptrWrite hi.read_lt
    (by simp only [skip_size]; omega) ?_
  have hc := cell_cell hr.read_lt (by omega : k+(ringAvailable r-k)≤r.size)
  rw [Nat.add_sub_cancel' hk,←ptrWrite_eq_cell hr] at hc
  exact hc.symm

/-- Consuming bytes drops them from the content. -/
theorem content_skip (hr : RingInv r) {k : ℕ} (hk : k≤ringAvailable r) :
    content (skip r k)=(content r).drop k := by
  have ha := available_lt hr
  rw [content,available_skip hr hk,content,window_drop hr.read_lt hk (by omega)]
  rfl

/-- The first unread byte is the one behind the read pointer. -/
theorem content_head (hr : RingInv r) (h : 0<ringAvailable r) :
    content r=ringPeekOne r::(content r).drop 1 := by
  have hlen : 0<(content r).length := by rw [content_length]; exact h
  have hhead : (content r)[0]=ringPeekOne r := by
    simp only [content,getElem_window,cell_zero hr.read_lt,ringPeekOne]
  have hcons := List.drop_eq_getElem_cons hlen
  rwa [List.drop_zero,hhead] at hcons

/-- `ring_next` behind a block that fits before the end is the cell after
it, also for the empty block at the start of the memory. -/
theorem ringNext_block {ptr : ℤ} {len : ℕ} (h : ptr+len≤r.size) :
    ringNext r (ptr+len-1)=cell r.size ptr len := by
  unfold ringNext cell
  split <;> split <;> omega

/-- `ring_inc_read` consumes one byte. -/
theorem ringIncRead_eq (hr : RingInv r) : ringIncRead r=skip r 1 := by
  have hn := ringNext_block (by have := hr.read_lt; omega : r.ptrRead+(1 : ℕ)≤r.size)
  rw [Nat.cast_one,add_sub_cancel_right] at hn
  rw [ringIncRead,hn,skip]

/-- `ring_read_one` returns and consumes the first byte. -/
theorem ringReadOne_eq (hr : RingInv r) : ringReadOne r=(ringPeekOne r,skip r 1) := by
  rw [ringReadOne,ringIncRead_eq hr,ringPeekOne]

/-- Behind a consumed byte, `ring_peek_prev` sees that byte, wrapping
backwards where necessary. -/
theorem ringPeekPrev_skip_one (hr : RingInv r) : ringPeekPrev (skip r 1)=ringPeekOne r := by
  obtain ⟨h1,h2,h3,h4⟩ := hr
  unfold ringPeekPrev ringPeekOne
  simp only [skip,cell]
  push_cast
  split_ifs <;> first | omega | (congr 1; omega)

/-- The common advance moves a pointer along the window, whenever the
offset is at most one turn; both assertions hold then. -/
theorem ringAdvance_eq {ptr : ℤ} {k : ℕ} (hn : ptr<r.size) (hk : k≤r.size) :
    ringAdvance r ptr k=some (cell r.size ptr k) := by
  unfold ringAdvance
  rw [if_pos ⟨by omega,by exact_mod_cast hk⟩]
  by_cases h0 : (k : ℤ)≠0
  · rw [if_pos h0]
    split
    · rename_i h
      rw [ringNext_block (by omega)]
    · rename_i h
      rw [cell,if_neg h]
      congr 1
      omega
  · have hz : k=0 := by omega
    rw [if_neg h0,hz,cell_zero hn]

/-- `ring_advance_read` consumes the given number of unread bytes. -/
theorem ringAdvanceRead_eq (hr : RingInv r) {k : ℕ} (hk : k≤ringAvailable r) :
    ringAdvanceRead r k=some (skip r k) := by
  have ha := available_lt hr
  rw [ringAdvanceRead,ringAdvance_eq hr.read_lt (by omega : k≤r.size),Option.map_some,skip]

/-- How the unread bytes lie: the contiguous ones fit before the end, and
if there are others the contiguous ones reach it. -/
theorem availableContig_spec (hr : RingInv r) :
    ringAvailableContig r≤ringAvailable r ∧
      r.ptrRead+ringAvailableContig r≤r.size ∧
      (ringAvailableContig r<ringAvailable r → r.ptrRead+ringAvailableContig r=r.size) := by
  obtain ⟨h1,h2,h3,h4⟩ := hr
  unfold ringAvailableContig ringAvailable
  split_ifs <;> omega

/-- Copying a contiguous block reads the front of the content. -/
theorem load_front (hr : RingInv r) {len : ℕ} (h : len≤ringAvailableContig r) :
    load r.data r.ptrRead len=(content r).take len := by
  have hs := availableContig_spec hr
  rw [content,window_take (by omega),window_eq_load (by omega)]

/-- Copying a wrapped block in two pieces reads the front of the content. -/
theorem load_front_wrapped (hr : RingInv r) {len : ℕ} (hc : ringAvailableContig r<len)
    (h : len≤ringAvailable r) :
    load r.data r.ptrRead (ringAvailableContig r)++load r.data 0 (len-ringAvailableContig r)=
      (content r).take len := by
  have hs := availableContig_spec hr
  have hlen : len=ringAvailableContig r+(len-ringAvailableContig r) := by omega
  have hw := @window_eq_load_append _ r.data _ _ (len-ringAvailableContig r) _ (hs.2.2 (by omega))
  rw [←hlen] at hw
  rw [content,window_take h,hw]

/-- Behind a wrapped block the read pointer is counted from the start. -/
theorem cell_wrapped (hr : RingInv r) {len : ℕ} (hc : ringAvailableContig r<len)
    (h : len≤ringAvailable r) :
    cell r.size r.ptrRead len=len-ringAvailableContig r := by
  have hs := availableContig_spec hr
  unfold cell
  split <;> omega

/-- `ring_peek` copies the front of the content, or nothing. -/
theorem ringPeek_eq (hr : RingInv r) (len : ℕ) :
    ringPeek r len=if len≤ringAvailable r then ⟨0,(content r).take len,r⟩ else ⟨-EINVAL,[],r⟩ := by
  unfold ringPeek
  by_cases h : len≤ringAvailable r
  · rw [if_neg (by omega),if_pos h]
    dsimp only
    split
    · rw [load_front hr (by omega)]
    · rw [load_front_wrapped hr (by omega) h]
  · rw [if_pos (by omega),if_neg h]

/-- `ring_read` copies and consumes the front of the content, or nothing. -/
theorem ringRead_eq (hr : RingInv r) (len : ℕ) :
    ringRead r len=
      if len≤ringAvailable r then ⟨0,(content r).take len,skip r len⟩ else ⟨-EINVAL,[],r⟩ := by
  have hs := availableContig_spec hr
  unfold ringRead
  by_cases h : len≤ringAvailable r
  · rw [if_neg (by omega),if_pos h]
    dsimp only
    split
    · rw [load_front hr (by omega),ringNext_block (by omega),skip]
    · rw [load_front_wrapped hr (by omega) h,skip,cell_wrapped hr (by omega) h]
  · rw [if_pos (by omega),if_neg h]

/-- A comparison in two pieces is the comparison of the whole. -/
theorem split_ne_iff {first rest ref : List UInt8} (h : first.length≤ref.length) :
    (first≠ref.take first.length ∨ rest≠ref.drop first.length) ↔ first++rest≠ref := by
  rw [ne_eq,ne_eq,←not_and_or,not_iff_not]
  constructor
  · rintro ⟨hf,hr⟩
    conv_lhs => rw [hf,hr]
    exact List.take_append_drop _ _
  · rintro rfl
    exact ⟨List.take_left.symm,List.drop_left.symm⟩

/-- `ring_memcmp` compares the front of the content with the reference; on
a match it consumes it, or reports the position just behind it. -/
theorem ringMemcmp_eq (hr : RingInv r) (ref : List UInt8) (wantPos : Bool) :
    ringMemcmp r ref wantPos=
      if ringAvailable r<ref.length then some ⟨-EINVAL,none,r⟩
      else if (content r).take ref.length=ref then
        if wantPos then some ⟨0,some (skip r ref.length).ptrRead,r⟩
        else some ⟨0,none,skip r ref.length⟩
      else some ⟨1,none,r⟩ := by
  have hs := availableContig_spec hr
  unfold ringMemcmp
  by_cases h : ringAvailable r<ref.length
  · rw [if_pos h,if_pos h]
  · rw [if_neg h,if_neg h,ringAdvanceRead_eq hr (by omega)]
    simp only [Option.map_some]
    by_cases hc : ringAvailableContig r≥ref.length
    · rw [if_pos hc,load_front hr hc,ringNext_block (by omega)]
      simp only [ne_eq,ite_not,skip]
    · have hsplit := @split_ne_iff (load r.data r.ptrRead (ringAvailableContig r))
        (load r.data 0 (ref.length-ringAvailableContig r)) ref (by rw [load_length]; omega)
      rw [load_length,load_front_wrapped hr (by omega) (by omega)] at hsplit
      rw [if_neg hc]
      simp only [hsplit,ne_eq,ite_not,skip,cell_wrapped hr (by omega : _<ref.length) (by omega)]

/-- The second ring is the first with the given bytes appended; sizes, the
read side and the memory around the block are untouched. -/
structure Appends (r r' : Ring) (bytes : List UInt8) : Prop where
  /-- The block is the same. -/
  size : r'.size=r.size
  /-- The reader does not move. -/
  ptrRead : r'.ptrRead=r.ptrRead
  /-- Both pointers stay in the block. -/
  inv : RingInv r'
  /-- Exactly the new bytes follow the old content. -/
  content : content r'=content r++bytes
  /-- No cell outside the block is written. -/
  outside : ∀ a, (a<0 ∨ r.size≤a) → r'.data a=r.data a

/-- Filling the window behind the write pointer and moving the pointer
behind it appends the bytes. -/
theorem appends_of_stores (hr : RingInv r) {mem : Memory UInt8} {bytes : List UInt8}
    (hlen : bytes.length≤ringFreeSpace r) (h : Stores r.data mem r.size r.ptrWrite bytes) :
    Appends r {r with data := mem, ptrWrite := cell r.size r.ptrWrite bytes.length} bytes := by
  have ha := available_lt hr
  have hf := available_add_freeSpace hr
  have hw := ptrWrite_eq_cell hr
  have hb := cell_bounds hr.write_nonneg hr.write_lt (by omega : bytes.length≤r.size)
  have hnew : ringAvailable {r with data := mem, ptrWrite := cell r.size r.ptrWrite bytes.length}=
      ringAvailable r+bytes.length := by
    have hlt : ringAvailable r+bytes.length<r.size := by omega
    refine @available_eq_of_ptrWrite
      {r with data := mem, ptrWrite := cell r.size r.ptrWrite bytes.length} hr.read_lt _ hlt ?_
    rw [←cell_cell hr.read_lt (by omega : ringAvailable r+bytes.length≤r.size),←hw]
  refine ⟨rfl,rfl,⟨hr.read_nonneg,hr.read_lt,hb.1,hb.2⟩,?_,fun a hout => ?_⟩
  · rw [RingContent.content,hnew,RingContent.content]
    rw [hw] at h
    exact window_append_of_stores hr.read_lt
      (show ringAvailable r+bytes.length≤r.size by omega) h
  · refine h.outside a fun i hi he => ?_
    have hc := cell_bounds hr.write_nonneg hr.write_lt (by omega : i≤r.size)
    omega

/-- `ring_write` appends all bytes, or refuses them all. -/
theorem ringWrite_spec (hr : RingInv r) (bytes : List UInt8) :
    if bytes.length≤ringFreeSpace r then
      (ringWrite r bytes).ret=0 ∧ Appends r (ringWrite r bytes).ring bytes
    else ringWrite r bytes=⟨-EINVAL,[],r⟩ := by
  have hf := available_add_freeSpace hr
  obtain ⟨h1,h2,h3,h4⟩ := id hr
  by_cases h : bytes.length≤ringFreeSpace r
  · rw [if_pos h]
    unfold ringWrite
    rw [if_neg (by omega)]
    dsimp only
    by_cases hc : ringFreeSpaceContig r≥bytes.length
    · have hfit : r.ptrWrite+bytes.length≤r.size := by
        unfold ringFreeSpaceContig at hc
        split_ifs at hc <;> omega
      rw [if_pos hc,ringNext_block hfit]
      exact ⟨rfl,appends_of_stores hr h (stores_contiguous r.data hfit)⟩
    · have hend : r.ptrWrite+ringFreeSpaceContig r=r.size := by
        unfold ringFreeSpace at h
        unfold ringFreeSpaceContig at hc ⊢
        split_ifs at h hc ⊢ <;> omega
      have hptr : (bytes.length-ringFreeSpaceContig r : ℤ)=cell r.size r.ptrWrite bytes.length := by
        unfold cell
        split <;> omega
      rw [if_neg hc,hptr]
      exact ⟨rfl,appends_of_stores hr h
        (stores_wrapped r.data hend (by omega) (by omega))⟩
  · rw [if_neg h]
    unfold ringWrite
    rw [if_pos (by omega)]

/-- Bytes received in place and acknowledged are appended, and the
assertions of `ring_advance_write` hold. -/
theorem ringReceive_spec (hr : RingInv r) {bytes : List UInt8}
    (h : bytes.length≤ringFreeSpaceContig r) :
    ∃ r', ringReceive r bytes=some r' ∧ Appends r r' bytes := by
  have hf := available_add_freeSpace hr
  have hle := freeSpaceContig_le hr
  have hfit : r.ptrWrite+bytes.length≤r.size := by
    obtain ⟨h1,h2,h3,h4⟩ := hr
    unfold ringFreeSpaceContig at h
    split_ifs at h <;> omega
  refine ⟨_,?_,appends_of_stores hr (by omega) (stores_contiguous r.data hfit)⟩
  have ha := @ringAdvance_eq {r with data := store r.data r.ptrWrite bytes} r.ptrWrite bytes.length
    hr.write_lt (by dsimp only; omega)
  rw [ringReceive,ringAdvanceWrite,ha,Option.map_some]

end Shoreline.RingContent
