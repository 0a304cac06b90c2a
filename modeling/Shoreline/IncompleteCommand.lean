import Shoreline.CommandLoop

/-!
# Incomplete commands

A round of the command loop goes back to `read` exactly if the unread bytes
do not begin with a complete command. By then it has skipped whitespace,
looked ahead and parsed numbers, depending on how far the command had come;
nothing of it is left, so that the next round meets the command as this one
did.
-/

namespace Shoreline.IncompleteCommand

open IncrementalReader RingBuffer RingContent NetToken NetConnection CommandScan CommandLoop

/-- A round of the command loop left everything as it was. -/
structure Untouched (conn conn' : Conn) : Prop where
  /-- The read pointer is back where the command begins. -/
  ptrRead : conn'.reader.ring.ptrRead=conn.reader.ring.ptrRead
  /-- The write pointer was not moved. -/
  ptrWrite : conn'.reader.ring.ptrWrite=conn.reader.ring.ptrWrite
  /-- All cells of the ring are the same. -/
  data : conn'.reader.ring.data=conn.reader.ring.data
  /-- The same bytes are unread. -/
  content : content conn'.reader.ring=content conn.reader.ring
  /-- `thread->offset` is the same. -/
  offset : conn'.session.offsetX=conn.session.offsetX ∧ conn'.session.offsetY=conn.session.offsetY
  /-- No pixel was drawn or counted. -/
  fb : conn'.session.fb=conn.session.fb
  /-- Nothing was sent. -/
  sent : conn'.session.sent=conn.session.sent
  /-- Nothing happened on the connection. -/
  events : conn'.session.events=conn.session.events

/-- Only a round without a complete command goes back to reading. -/
theorem recv_iff (env : NetEnv) {conn : Conn} (hr : RingInv conn.reader.ring) :
    (netIteration env conn).1=.recv ↔ scan env.build (content conn.reader.ring)=.wait := by
  cases hscan : scan env.build (content conn.reader.ring) with
  | wait => exact iff_of_true (congrArg Prod.fst (netIteration_wait env hr hscan)) rfl
  | reject =>
    rw [netIteration_reject env hr hscan]
    constructor <;> intro h <;> cases h
  | item c n =>
    rw [netIteration_exact env hr hscan]
    refine iff_of_false (fun h => ?_) (fun h => by cases h)
    -- executing a command ends in no way that goes back to reading
    rcases exec_end env conn.session c with hdone | ⟨err,herr⟩ | ⟨site,_,hsite⟩
    · rw [hdone] at h
      cases h
    · rw [herr] at h
      cases h
    · rw [hsite] at h
      cases h

/-- Such a round gives the connection back. -/
theorem conn_of_recv (env : NetEnv) {conn : Conn} (hr : RingInv conn.reader.ring)
    (h : (netIteration env conn).1=.recv) : netIteration env conn=(.recv,conn) :=
  netIteration_wait env hr ((recv_iff env hr).mp h)

/-- An incomplete command leaves no trace: when a round goes back to reading,
the ring, the offset, the framebuffer and what was sent are as they were, and
whatever is received next is handled as if the round had not been run. -/
theorem incomplete_untouched (env : NetEnv) {conn : Conn} (hr : RingInv conn.reader.ring)
    (h : (netIteration env conn).1=.recv) :
    Untouched conn (netIteration env conn).2 ∧
      ∀ bytes, netReceive env (netIteration env conn).2 bytes=netReceive env conn bytes := by
  rw [conn_of_recv env hr h]
  exact ⟨⟨rfl,rfl,rfl,rfl,⟨rfl,rfl⟩,rfl,rfl,rfl⟩,fun _ => rfl⟩

/-- `PX 1`, waiting for the end of the number. -/
theorem incomplete_untouched_px :
    let conn := holdingConn [0x50,0x58,0x20,0x31] 8 (freshSession (blankFb 4 4))
    Untouched conn (netIteration (plainEnv 4 4) conn).2 ∧
      ∀ bytes, netReceive (plainEnv 4 4) (netIteration (plainEnv 4 4) conn).2 bytes=
        netReceive (plainEnv 4 4) conn bytes :=
  incomplete_untouched (plainEnv 4 4) (holdingConn_spec _ _ _).1 (by decide +kernel)

/-- A round keeps the ring valid. -/
theorem netIteration_inv (env : NetEnv) {conn : Conn} (hr : RingInv conn.reader.ring) :
    RingInv (netIteration env conn).2.reader.ring := by
  cases hscan : scan env.build (content conn.reader.ring) with
  | wait =>
    rw [netIteration_wait env hr hscan]
    exact hr
  | reject =>
    rw [netIteration_reject env hr hscan]
    exact hr
  | item c n =>
    obtain ⟨_,m,hm,_,hit,_⟩ := netIteration_item env hr hscan
    rw [hit]
    exact skip_inv hr hm

/-- A round that leaves the loop for `read` without being done is one in front
of an incomplete command. -/
theorem recv_of_reading (env : NetEnv) {conn : Conn} (hr : RingInv conn.reader.ring)
    (hdone : (netIteration env conn).1≠.done) (h : (netIteration env conn).1.leave=.reading) :
    (netIteration env conn).1=.recv := by
  cases hscan : scan env.build (content conn.reader.ring) with
  | wait => exact (recv_iff env hr).mpr hscan
  | reject =>
    rw [netIteration_reject env hr hscan] at h
    cases h
  | item c n =>
    rw [netIteration_exact env hr hscan] at h hdone
    exact absurd h (leave_stopped env conn.session c hdone).ne_reading

/-- The command loop is left at once when nothing is unread. -/
theorem netCommandLoop_nil (env : NetEnv) {conn : Conn} (hr : RingInv conn.reader.ring)
    (hany : ringAnyAvailable conn.reader.ring≠true) (fuel : ℕ) :
    content (netCommandLoop env fuel conn).conn.reader.ring=[] := by
  have hzero := Nat.eq_zero_of_not_pos (mt (anyAvailable_iff hr).mpr hany)
  have hloop : netCommandLoop env fuel conn=⟨.reading,conn,0⟩ := by
    cases fuel <;> rw [netCommandLoop,if_neg hany]
  rw [hloop]
  exact List.eq_nil_of_length_eq_zero (by rw [content_length,hzero])

/-- The command loop rests in a state that a further round would not change. -/
theorem netCommandLoop_rests (env : NetEnv) {conn : Conn} (hr : RingInv conn.reader.ring)
    {fuel : ℕ} (h : (netCommandLoop env fuel conn).ending=.reading) :
    content (netCommandLoop env fuel conn).conn.reader.ring=[] ∨
      netIteration env (netCommandLoop env fuel conn).conn=
        (.recv,(netCommandLoop env fuel conn).conn) := by
  induction fuel generalizing conn with
  | zero =>
    by_cases hany : ringAnyAvailable conn.reader.ring=true
    · rw [netCommandLoop,if_pos hany] at h
      cases h
    · exact Or.inl (netCommandLoop_nil env hr hany 0)
  | succ fuel ih =>
    by_cases hany : ringAnyAvailable conn.reader.ring=true
    · rw [netCommandLoop,if_pos hany] at h ⊢
      dsimp only at h ⊢
      by_cases hdone : (netIteration env conn).1=.done
      · rw [if_pos hdone] at h ⊢
        exact ih (netIteration_inv env hr) h
      · rw [if_neg hdone] at h ⊢
        have hrecv := recv_of_reading env hr hdone h
        rw [conn_of_recv env hr hrecv]
        exact Or.inr (conn_of_recv env hr hrecv)
    · exact Or.inl (netCommandLoop_nil env hr hany (fuel+1))

end Shoreline.IncompleteCommand
