import Shoreline.Library.BoundedQueue
import Shoreline.Library.StateMachine
import Shoreline.RingContent

/-!
# The ring is a bounded first-in first-out queue of bytes

Sequences of ring operations, issued under the contracts their callers
keep, answer exactly as a queue bounded by one cell less than the ring, and
stay inside the block. Direct writes by `read` are part of the sequences.
-/

namespace Shoreline.RingQueue

open CircularMemory RingBuffer RingContent StateMachine

/-- One call into the ring module, or one direct write at the write pointer. -/
inductive RingOp where
  | write (bytes : List UInt8)
  | read (len : ℕ)
  | peek (len : ℕ)
  | memcmp (ref : List UInt8) (wantPos : Bool)
  | readOne
  | incRead
  | advanceRead (offset : ℕ)
  | receive (bytes : List UInt8)
  deriving DecidableEq

/-- What a caller sees of one operation. -/
structure Reply where
  /-- Return code; zero for operations that return none. -/
  ret : ℤ
  /-- Bytes handed out. -/
  bytes : List UInt8
  /-- Unread bytes behind the position stored through `next_pos`, if that is
  inside the block. -/
  next : Option (List UInt8)
  deriving DecidableEq

/-- The contracts: single-byte reads need a byte, an advance stays within
the unread bytes and a direct write within the contiguous free space. -/
def RingPre (r : Ring) : RingOp → Prop
  | .readOne => ringAnyAvailable r=true
  | .incRead => ringAnyAvailable r=true
  | .advanceRead offset => offset≤ringAvailable r
  | .receive bytes => bytes.length≤ringFreeSpaceContig r
  | _ => True

instance (r : Ring) : ∀ op, Decidable (RingPre r op)
  | .readOne => inferInstanceAs (Decidable (_=true))
  | .incRead => inferInstanceAs (Decidable (_=true))
  | .advanceRead _ => inferInstanceAs (Decidable (_≤_))
  | .receive _ => inferInstanceAs (Decidable (_≤_))
  | .write _ => inferInstanceAs (Decidable True)
  | .read _ => inferInstanceAs (Decidable True)
  | .peek _ => inferInstanceAs (Decidable True)
  | .memcmp _ _ => inferInstanceAs (Decidable True)

/-- Perform one operation on the ring; `none` is a failed assertion. -/
def ringStep : Step RingOp Reply Ring
  | r,.write bytes =>
    let out := ringWrite r bytes
    some (⟨out.ret,[],none⟩,out.ring)
  | r,.read len =>
    let out := ringRead r len
    some (⟨out.ret,out.bytes,none⟩,out.ring)
  | r,.peek len =>
    let out := ringPeek r len
    some (⟨out.ret,out.bytes,none⟩,out.ring)
  | r,.memcmp ref wantPos =>
    (ringMemcmp r ref wantPos).map fun out =>
      (⟨out.ret,[],(out.nextPos.filter fun ptr : ℤ => 0≤ptr ∧ ptr<out.ring.size).map fun ptr =>
        content {out.ring with ptrRead := ptr}⟩,out.ring)
  | r,.readOne =>
    let out := ringReadOne r
    some (⟨0,[out.1],none⟩,out.2)
  | r,.incRead => some (⟨0,[],none⟩,ringIncRead r)
  | r,.advanceRead offset => (ringAdvanceRead r offset).map fun r' => (⟨0,[],none⟩,r')
  | r,.receive bytes => (ringReceive r bytes).map fun r' => (⟨0,[],none⟩,r')

/-- The same operation on the abstract queue. -/
def queueStep (bound : ℕ) : Step RingOp Reply (BoundedQueue UInt8 bound)
  | q,.write bytes =>
    match q.push bytes with
    | some q' => some (⟨0,[],none⟩,q')
    | none => some (⟨-EINVAL,[],none⟩,q)
  | q,.read len =>
    if len≤q.items.length then some (⟨0,q.items.take len,none⟩,q.drop len)
    else some (⟨-EINVAL,[],none⟩,q)
  | q,.peek len =>
    if len≤q.items.length then some (⟨0,q.items.take len,none⟩,q)
    else some (⟨-EINVAL,[],none⟩,q)
  | q,.memcmp ref wantPos =>
    if q.items.length<ref.length then some (⟨-EINVAL,[],none⟩,q)
    else if q.items.take ref.length=ref then
      if wantPos then some (⟨0,[],some (q.items.drop ref.length)⟩,q)
      else some (⟨0,[],none⟩,q.drop ref.length)
    else some (⟨1,[],none⟩,q)
  | q,.readOne => some (⟨0,q.items.take 1,none⟩,q.drop 1)
  | q,.incRead => some (⟨0,[],none⟩,q.drop 1)
  | q,.advanceRead offset => some (⟨0,[],none⟩,q.drop offset)
  | q,.receive bytes => (q.push bytes).map fun q' => (⟨0,[],none⟩,q')

/-- A ring of `n` cells holds a queue: both pointers are inside, the unread
bytes are the queued ones, both size queries count them, and the memory
around the block is as it was. -/
structure Represents (n : ℕ) (mem : Memory UInt8) (r : Ring) (q : BoundedQueue UInt8 (n-1)) :
    Prop where
  /-- Both pointers are inside the block. -/
  inv : RingInv r
  /-- The block has `n` cells. -/
  size : r.size=n
  /-- The content is the queue. -/
  content : content r=q.items
  /-- `ring_available` is its length. -/
  available : ringAvailable r=q.items.length
  /-- `ring_free_space` is what the bound leaves. -/
  freeSpace : ringAvailable r+ringFreeSpace r=n-1
  /-- No cell outside the block was written. -/
  outside : ∀ a, (a<0 ∨ n≤a) → r.data a=mem a

variable {n : ℕ} {mem : Memory UInt8} {r : Ring} {q : BoundedQueue UInt8 (n-1)}

/-- A valid ring represents its content. -/
theorem represents_of_content (hr : RingInv r) (hn : r.size=n) (hc : content r=q.items)
    (hout : ∀ a, (a<0 ∨ n≤a) → r.data a=mem a) : Represents n mem r q where
  inv := hr
  size := hn
  content := hc
  available := by rw [←hc,content_length]
  freeSpace := by rw [available_add_freeSpace hr,hn]
  outside := hout

/-- Consuming received bytes drops them from the queue. -/
theorem represents_skip (h : Represents n mem r q) {k : ℕ} (hk : k≤q.items.length) :
    Represents n mem (skip r k) (q.drop k) := by
  rw [←h.available] at hk
  refine represents_of_content (skip_inv h.inv hk) h.size ?_ h.outside
  rw [content_skip h.inv hk,h.content,BoundedQueue.drop_items]

/-- Appending bytes within the free space is a successful push. -/
theorem represents_push (h : Represents n mem r q) {r' : Ring} {bytes : List UInt8}
    (hlen : bytes.length≤ringFreeSpace r) (happ : Appends r r' bytes) :
    ∃ q', q.push bytes=some q' ∧ Represents n mem r' q' := by
  have ha := h.available
  have hf := h.freeSpace
  have hfit : (q.items++bytes).length≤n-1 := by rw [List.length_append]; omega
  refine ⟨_,BoundedQueue.push_of_le hfit,?_⟩
  refine represents_of_content happ.inv (happ.size.trans h.size) ?_ fun a hout => ?_
  · rw [happ.content,h.content]
  · rw [happ.outside a (by rw [h.size]; exact hout),h.outside a hout]

/-- The comparison answers as the queue does: a match consumes its bytes or
reports the position behind them, and nothing else changes the ring. -/
theorem memcmp_refines (h : Represents n mem r q) (ref : List UInt8) (wantPos : Bool) :
    ∃ reply r' q', ringStep r (.memcmp ref wantPos)=some (reply,r') ∧
      queueStep (n-1) q (.memcmp ref wantPos)=some (reply,q') ∧ Represents n mem r' q' := by
  have hcmp := ringMemcmp_eq h.inv ref wantPos
  rw [h.content,h.available] at hcmp
  simp only [ringStep,queueStep,hcmp]
  by_cases hlen : q.items.length<ref.length
  · simp only [if_pos hlen,Option.map_some]
    exact ⟨_,_,_,rfl,rfl,h⟩
  · have hs := represents_skip h (by omega : ref.length≤q.items.length)
    by_cases hm : q.items.take ref.length=ref
    · cases wantPos with
      | true =>
        -- the position reported is the read pointer of the consumed ring
        have hnext : content {r with ptrRead := (skip r ref.length).ptrRead}=
            q.items.drop ref.length := hs.content
        have hin : decide (0≤(skip r ref.length).ptrRead ∧ (skip r ref.length).ptrRead<r.size)=
            true := decide_eq_true ⟨hs.inv.read_nonneg,hs.inv.read_lt⟩
        simp only [if_neg hlen,if_pos hm,if_true,Option.map_some,Option.filter_some,hin,hnext]
        exact ⟨_,_,_,rfl,rfl,h⟩
      | false =>
        simp only [if_neg hlen,if_pos hm,Bool.false_eq_true,if_false,Option.map_some]
        exact ⟨_,_,_,rfl,rfl,hs⟩
    · simp only [if_neg hlen,if_neg hm,Option.map_some]
      exact ⟨_,_,_,rfl,rfl,h⟩

/-- Every operation issued under its contract answers as the queue does
and leaves a ring that represents the new queue. -/
theorem ringStep_refines {op : RingOp} (h : Represents n mem r q) (hpre : RingPre r op) :
    ∃ reply r' q', ringStep r op=some (reply,r') ∧ queueStep (n-1) q op=some (reply,q') ∧
      Represents n mem r' q' := by
  have ha := h.available
  have hf := h.freeSpace
  cases op with
  | write bytes =>
    have hw := ringWrite_spec h.inv bytes
    by_cases hlen : bytes.length≤ringFreeSpace r
    · rw [if_pos hlen] at hw
      obtain ⟨q',hq,hrep⟩ := represents_push h hlen hw.2
      simp only [ringStep,queueStep,hq,hw.1]
      exact ⟨_,_,_,rfl,rfl,hrep⟩
    · rw [if_neg hlen] at hw
      have hq : q.push bytes=none :=
        BoundedQueue.push_of_lt (by rw [List.length_append]; omega)
      simp only [ringStep,queueStep,hq,hw]
      exact ⟨_,_,_,rfl,rfl,h⟩
  | read len =>
    have hread := ringRead_eq h.inv len
    rw [h.content,ha] at hread
    simp only [ringStep,queueStep,hread]
    by_cases hlen : len≤q.items.length
    · simp only [if_pos hlen]
      exact ⟨_,_,_,rfl,rfl,represents_skip h hlen⟩
    · simp only [if_neg hlen]
      exact ⟨_,_,_,rfl,rfl,h⟩
  | peek len =>
    have hpeek := ringPeek_eq h.inv len
    rw [h.content,ha] at hpeek
    simp only [ringStep,queueStep,hpeek]
    by_cases hlen : len≤q.items.length
    · simp only [if_pos hlen]
      exact ⟨_,_,_,rfl,rfl,h⟩
    · simp only [if_neg hlen]
      exact ⟨_,_,_,rfl,rfl,h⟩
  | memcmp ref wantPos => exact memcmp_refines h ref wantPos
  | readOne =>
    have hpos := (anyAvailable_iff h.inv).mp hpre
    have hhead : q.items.take 1=[ringPeekOne r] := by
      rw [←h.content,content_head h.inv hpos]
      rfl
    simp only [ringStep,queueStep,ringReadOne_eq h.inv,hhead]
    exact ⟨_,_,_,rfl,rfl,represents_skip h (by omega)⟩
  | incRead =>
    have hpos := (anyAvailable_iff h.inv).mp hpre
    simp only [ringStep,queueStep,ringIncRead_eq h.inv]
    exact ⟨_,_,_,rfl,rfl,represents_skip h (by omega)⟩
  | advanceRead offset =>
    have hk : offset≤ringAvailable r := hpre
    simp only [ringStep,queueStep,ringAdvanceRead_eq h.inv hk,Option.map_some]
    exact ⟨_,_,_,rfl,rfl,represents_skip h (by omega)⟩
  | receive bytes =>
    have hlen : bytes.length≤ringFreeSpaceContig r := hpre
    obtain ⟨r',hr',happ⟩ := ringReceive_spec h.inv hlen
    obtain ⟨q',hq,hrep⟩ := represents_push h (hlen.trans (freeSpaceContig_le h.inv)) happ
    simp only [ringStep,queueStep,hr',hq,Option.map_some]
    exact ⟨_,_,_,rfl,rfl,hrep⟩

/-- An operation that reports failure or a mismatch leaves the ring alone. -/
theorem ringStep_failed (hr : RingInv r) {op : RingOp} {reply : Reply} {r' : Ring}
    (h : ringStep r op=some (reply,r')) (hret : reply.ret≠0) : r'=r := by
  cases op with
  | write bytes =>
    have hw := ringWrite_spec hr bytes
    simp only [ringStep,Option.some.injEq,Prod.mk.injEq] at h
    obtain ⟨rfl,rfl⟩ := h
    by_cases hlen : bytes.length≤ringFreeSpace r
    · rw [if_pos hlen] at hw
      exact absurd hw.1 hret
    · rw [if_neg hlen] at hw
      rw [hw]
  | read len =>
    simp only [ringStep,ringRead_eq hr,Option.some.injEq,Prod.mk.injEq] at h
    obtain ⟨rfl,rfl⟩ := h
    split
    · rename_i hlen
      rw [if_pos hlen] at hret
      exact absurd rfl hret
    · rfl
  | peek len =>
    simp only [ringStep,ringPeek_eq hr,Option.some.injEq,Prod.mk.injEq] at h
    obtain ⟨-,rfl⟩ := h
    split <;> rfl
  | memcmp ref wantPos =>
    simp only [ringStep,ringMemcmp_eq hr,Option.map_eq_some_iff] at h
    obtain ⟨out,hout,he⟩ := h
    cases he
    split at hout
    · cases hout
      rfl
    · split at hout
      · split at hout <;> cases hout <;> exact absurd rfl hret
      · cases hout
        rfl
  | readOne => cases h; exact absurd rfl hret
  | incRead => cases h; exact absurd rfl hret
  | advanceRead offset =>
    simp only [ringStep,Option.map_eq_some_iff] at h
    obtain ⟨_,_,he⟩ := h
    cases he
    exact absurd rfl hret
  | receive bytes =>
    simp only [ringStep,Option.map_eq_some_iff] at h
    obtain ⟨_,_,he⟩ := h
    cases he
    exact absurd rfl hret

/-- Every sequence of operations, from any ring of at least one cell and
any pointer positions, answers as the bounded queue does, and every operation
in it that fails or does not match leaves the ring alone; in particular no
assertion fails and both pointers stay inside the block. -/
theorem ring_refines_queue (hn : 1≤n) (hr : RingInv r) (hsize : r.size=n) (ops : List RingOp)
    (hadm : Admitted RingPre ringStep r ops) :
    (∃ (start final : BoundedQueue UInt8 (n-1)) (replies : List Reply) (r' : Ring),
      start.items=content r ∧
      run ringStep r ops=some (replies,r') ∧
      run (queueStep (n-1)) start ops=some (replies,final) ∧
      Represents n r.data r' final) ∧
    ∀ before op after replies s reply s', ops=before++op::after →
      run ringStep r before=some (replies,s) → ringStep s op=some (reply,s') → reply.ret≠0 →
      s'=s := by
  have ha := available_lt hr
  have hfits : (content r).length≤n-1 := by rw [content_length]; omega
  have hstart : Represents n r.data r ⟨content r,hfits⟩ :=
    represents_of_content hr hsize rfl fun _ _ => rfl
  have hstep : ∀ s q op, Represents n r.data s q → RingPre s op →
      ∃ reply s' q', ringStep s op=some (reply,s') ∧ queueStep (n-1) q op=some (reply,q') ∧
        Represents n r.data s' q' := fun _ _ _ hrel hpre => ringStep_refines hrel hpre
  refine ⟨?_,fun before op after replies s reply s' hops hrun hs hret => ?_⟩
  · obtain ⟨replies,r',final,hrun,hspec,hend⟩ := run_refines hstep hstart hadm
    exact ⟨_,final,replies,r',rfl,hrun,hspec,hend⟩
  · rw [hops] at hadm
    obtain ⟨_,t,_,hrun',_,hend⟩ := run_refines hstep hstart hadm.append_left
    rw [hrun] at hrun'
    cases hrun'
    exact ringStep_failed hend.inv hs hret

/-- A ring of four cells that is empty at its last cell. -/
def smallRing : Ring := ⟨4,fun _ => 0,3,3⟩

/-- A write that wraps around, one that does not fit, a comparison without a
match, a direct read, and a comparison that consumes. -/
def smallOps : List RingOp :=
  [.write [1,2],.write [3,4],.memcmp [1,3] false,.receive [5],.memcmp [1,2] false,.readOne]

/-- They are answered as the queue answers them. -/
theorem ring_refines_queue_small :
    (∃ (start final : BoundedQueue UInt8 3) (replies : List Reply) (r' : Ring),
      start.items=content smallRing ∧
      run ringStep smallRing smallOps=some (replies,r') ∧
      run (queueStep 3) start smallOps=some (replies,final) ∧
      Represents 4 smallRing.data r' final) := by
  have hadm : Admitted RingPre ringStep smallRing smallOps := by decide
  exact (ring_refines_queue (show 1≤4 by omega) ⟨by decide,by decide,by decide,by decide⟩ rfl
    smallOps hadm).1

end Shoreline.RingQueue
