import Shoreline.CommandLoop

/-!
# The command loop ends and stays behind the received data

Every completed round consumes at least one received byte, so a ring with
`k` unread bytes allows at most `k` rounds. The read pointer moves along the
unread bytes only, every access finds a byte there, and no assertion of the
ring can fail.
-/

namespace Shoreline.LoopBounds

open IncrementalReader RingBuffer RingContent NetToken NetConnection TokenScan CommandScan
open CommandGrammar CommandLoop Framebuffer

/-- The second connection is the first with `k` unread bytes consumed in
order; no access went behind the received bytes or looked back too far. -/
structure Consumes (conn conn' : Conn) (k : ℕ) : Prop where
  /-- Only unread bytes are consumed. -/
  bound : k≤ringAvailable conn.reader.ring
  /-- The read pointer moved over exactly these bytes. -/
  ring : conn'.reader.ring=skip conn.reader.ring k
  /-- Every access found a received byte. -/
  overruns : conn'.reader.overruns=conn.reader.overruns
  /-- Every look back found a byte of the current command. -/
  strayPeeks : conn'.strayPeeks=conn.strayPeeks

/-- A number of completed rounds of the command loop. -/
inductive Rounds (env : NetEnv) : ℕ → Conn → Conn → Prop where
  | here (conn : Conn) : Rounds env 0 conn conn
  | next {n : ℕ} {conn mid conn' : Conn} (hany : ringAnyAvailable conn.reader.ring=true)
      (hround : netIteration env conn=(.done,mid)) (htail : Rounds env n mid conn') :
      Rounds env (n+1) conn conn'

/-- A consumer of nothing. -/
theorem consumes_zero {conn : Conn} (hr : RingInv conn.reader.ring) : Consumes conn conn 0 :=
  ⟨by omega,(skip_zero hr).symm,rfl,rfl⟩

/-- A valid ring stays valid. -/
theorem Consumes.inv {conn conn' : Conn} {k : ℕ} (hr : RingInv conn.reader.ring)
    (h : Consumes conn conn' k) : RingInv conn'.reader.ring := by
  rw [h.ring]
  exact skip_inv hr h.bound

/-- Consumption in two steps. -/
theorem Consumes.trans {conn mid conn' : Conn} {i j : ℕ} (hr : RingInv conn.reader.ring)
    (h : Consumes conn mid i) (h' : Consumes mid conn' j) : Consumes conn conn' (i+j) := by
  have hb := h'.bound
  have hi := h.bound
  rw [h.ring,available_skip hr hi] at hb
  refine ⟨by omega,?_,h'.overruns.trans h.overruns,h'.strayPeeks.trans h.strayPeeks⟩
  rw [h'.ring,h.ring,skip_skip hr (by omega)]

/-- One round, completed or not, consumes unread bytes; a completed one at
least one of them. -/
theorem netIteration_consumes (env : NetEnv) {conn : Conn} (hr : RingInv conn.reader.ring)
    (hany : ringAnyAvailable conn.reader.ring=true) :
    ∃ k, Consumes conn (netIteration env conn).2 k ∧
      (netIteration env conn).1≠.aborted .ringAdvance ∧
      ((netIteration env conn).1=.done → 0<k) := by
  have hne : content conn.reader.ring≠[] := by
    intro h
    have ha := (anyAvailable_iff hr).mp hany
    rw [←content_length,h] at ha
    exact absurd ha (lt_irrefl 0)
  cases hscan : scan env.build (content conn.reader.ring) with
  | wait =>
    rw [netIteration_wait env hr hscan]
    exact ⟨0,consumes_zero hr,(fun h => by cases h),fun h => by cases h⟩
  | reject =>
    rw [netIteration_reject env hr hscan]
    exact ⟨0,consumes_zero hr,(fun h => by cases h),fun h => by cases h⟩
  | item c n =>
    obtain ⟨hused,m,hm,_,hit,hdone⟩ := netIteration_item env hr hscan
    have hlt := rest_shorter hne hscan
    rw [List.length_drop,content_length] at hlt
    rw [hit]
    refine ⟨m,⟨hm,rfl,rfl,rfl⟩,fun h => ?_,fun h => ?_⟩
    · dsimp only at h
      by_cases hd : (exec env conn.session c).1=.done
      · rw [hd] at h
        cases h
      · refine (leave_stopped env conn.session c hd).ne_ringAdvance ?_
        rw [h]
        rfl
    · have hk := hdone h
      omega

/-- Completed rounds consume at least one unread byte each. -/
theorem Rounds.consumes {env : NetEnv} {n : ℕ} {conn conn' : Conn} (h : Rounds env n conn conn')
    (hr : RingInv conn.reader.ring) : ∃ k, n≤k ∧ Consumes conn conn' k := by
  induction h with
  | here conn => exact ⟨0,le_refl _,consumes_zero hr⟩
  | next hany hround _ ih =>
    obtain ⟨i,hi,_,hpos⟩ := netIteration_consumes env hr hany
    rw [hround] at hi hpos
    have h0 := hpos rfl
    obtain ⟨j,hj,hcons⟩ := ih (hi.inv hr)
    exact ⟨i+j,by omega,hi.trans hr hcons⟩

/-- The command loop as a whole consumes unread bytes, within its bound. -/
theorem netCommandLoop_consumes (env : NetEnv) {conn : Conn} (hr : RingInv conn.reader.ring)
    {fuel : ℕ} (hfuel : ringAvailable conn.reader.ring≤fuel) :
    (netCommandLoop env fuel conn).ending≠.exhausted ∧
      (netCommandLoop env fuel conn).ending≠.aborted .ringAdvance ∧
      (netCommandLoop env fuel conn).rounds≤ringAvailable conn.reader.ring ∧
      ∃ k, Consumes conn (netCommandLoop env fuel conn).conn k := by
  have hdr := netCommandLoop_drains env hr hfuel
  cases hres : drainAll env conn.session (content conn.reader.ring) with
  | waiting session pending =>
    rw [hres] at hdr
    obtain ⟨k,hk,_,hend,hconn,hrounds⟩ := hdr
    rw [hend,hconn]
    exact ⟨(fun h => by cases h),(fun h => by cases h),hrounds,k,hk,rfl,rfl,rfl⟩
  | closed why session =>
    rw [hres] at hdr
    obtain ⟨k,hk,_,hstop,hconn,hrounds⟩ := hdr
    rw [hconn]
    exact ⟨hstop.ne_exhausted,hstop.ne_ringAdvance,hrounds,k,hk,rfl,rfl,rfl⟩
  | exhausted =>
    rw [hres] at hdr
    exact hdr.elim

/-- Termination and data bounds of the command loop, from every valid ring:
the loop ends within one round for every unread byte; the state before and
after every round lies along the unread bytes; and every fitting read can be
acknowledged. -/
theorem commandLoop_bounded (env : NetEnv) {conn : Conn} (hr : RingInv conn.reader.ring) :
    (∀ fuel, ringAvailable conn.reader.ring≤fuel →
      (netCommandLoop env fuel conn).ending≠.exhausted ∧
      (netCommandLoop env fuel conn).ending≠.aborted .ringAdvance ∧
      (netCommandLoop env fuel conn).rounds≤ringAvailable conn.reader.ring ∧
      ∃ k, Consumes conn (netCommandLoop env fuel conn).conn k) ∧
    (∀ n mid, Rounds env n conn mid → (∃ k, n≤k ∧ Consumes conn mid k) ∧
      (ringAnyAvailable mid.reader.ring=true →
        (∃ k, Consumes mid (netIteration env mid).2 k) ∧
        (netIteration env mid).1≠.aborted .ringAdvance)) ∧
    (∀ bytes : List UInt8, bytes.length≤ringFreeSpaceContig conn.reader.ring →
      ∃ conn', netAcknowledge env conn bytes=some conn' ∧ RingInv conn'.reader.ring) := by
  refine ⟨fun fuel hfuel => netCommandLoop_consumes env hr hfuel,fun n mid h => ?_,
    fun bytes h => ?_⟩
  · obtain ⟨k,hk,hcons⟩ := h.consumes hr
    refine ⟨⟨k,hk,hcons⟩,fun hany => ?_⟩
    obtain ⟨j,hj,hne,_⟩ := netIteration_consumes env (hcons.inv hr) hany
    exact ⟨⟨j,hj⟩,hne⟩
  · obtain ⟨conn',hconn,hrec⟩ := netAcknowledge_received env hr h
    exact ⟨conn',hconn,hrec.appends.inv⟩

/-- A full ring of five cells whose content wraps around: at most four rounds,
and only over unread bytes. -/
theorem commandLoop_bounded_wrapped :
    let conn := freshConn ⟨5,fun _ => 0x20,3,2⟩ (freshSession (blankFb 4 4))
    (netCommandLoop (plainEnv 4 4) 4 conn).rounds≤4 ∧
      ∃ k, Consumes conn (netCommandLoop (plainEnv 4 4) 4 conn).conn k :=
  ((@commandLoop_bounded (plainEnv 4 4) (freshConn ⟨5,fun _ => 0x20,3,2⟩
    (freshSession (blankFb 4 4))) ⟨by decide,by decide,by decide,by decide⟩).1 4 (by decide)).2.2

end Shoreline.LoopBounds
