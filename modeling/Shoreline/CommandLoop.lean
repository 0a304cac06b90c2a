import Shoreline.CommandGrammar

/-!
# The command loop drains the unread bytes

One round of the loop is one step of the drain of the command language, and
with one round of fuel for every unread byte the loop runs to its end. The
receive loop feeds the drain with what it reads. The histories of accesses
behind the received bytes stay as they were.
-/

namespace Shoreline.CommandLoop

open IncrementalReader RingBuffer RingContent NetToken NetConnection TokenScan CommandScan
open CommandGrammar Framebuffer

/-- A connection after its first `k` unread bytes, with another session. -/
def after (conn : Conn) (k : ℕ) (session : Session) : Conn :=
  {conn with reader := conn.reader.skip k, session := session}

/-- Executing a command gets done, fails to send, or runs into an assertion
about pixels. -/
theorem exec_end (env : NetEnv) (session : Session) (c : Command) :
    (exec env session c).1=.done ∨ (∃ err, (exec env session c).1=.sendFailed err) ∨
      ∃ site, site≠.ringAdvance ∧ (exec env session c).1=.aborted site := by
  cases c with
  | unknown => exact Or.inl rfl
  | get x y =>
    dsimp only [exec,netGetPixel]
    split
    · split
      · exact Or.inr (Or.inr ⟨_,by decide,rfl⟩)
      · split
        · exact Or.inr (Or.inl ⟨_,rfl⟩)
        · exact Or.inl rfl
    · exact Or.inl rfl
  | set x y digits =>
    dsimp only [exec,netDraw]
    split
    · split
      · exact Or.inr (Or.inr ⟨_,by decide,rfl⟩)
      · split
        · exact Or.inr (Or.inr ⟨_,by decide,rfl⟩)
        · exact Or.inl rfl
    · exact Or.inl rfl
  | size =>
    dsimp only [exec]
    split
    · exact Or.inr (Or.inl ⟨_,rfl⟩)
    · exact Or.inl rfl
  | offset x y => exact Or.inl rfl

/-- The bytes behind a command and its whitespace. -/
theorem rest_eq_drop (build : Build) (bytes : List UInt8) (n : ℕ) :
    (grammar build).rest bytes n=bytes.drop (n+blanks (bytes.drop n)) := by
  rw [←List.drop_drop,drop_blanks]
  rfl

/-- Behind a command and its whitespace there are fewer bytes. -/
theorem rest_shorter {build : Build} {bytes : List UInt8} (hne : bytes≠[]) {c : Command} {n : ℕ}
    (h : scan build bytes=.item c n) :
    (bytes.drop (n+blanks (bytes.drop n))).length<bytes.length := by
  have hscan : (grammar build).scan bytes=.item c n := h
  have hlt := Grammar.rest_length_lt hne hscan
  rwa [rest_eq_drop] at hlt

/-- Whitespace partly consumed together with a command is not counted again. -/
theorem blanks_drop {bytes : List UInt8} {n m : ℕ} (hn : n ≤ m)
    (hm : m≤n+blanks (bytes.drop n)) : m+blanks (bytes.drop m)=n+blanks (bytes.drop n) := by
  have hb : (bytes.drop m).takeWhile netIsWhitespace=
      ((bytes.drop n).takeWhile netIsWhitespace).drop (m-n) := by
    have hsplit := @List.takeWhile_append_dropWhile _ netIsWhitespace (bytes.drop n)
    have hle : m-n≤((bytes.drop n).takeWhile netIsWhitespace).length := by
      unfold blanks at hm
      omega
    calc
      (bytes.drop m).takeWhile netIsWhitespace=
          ((bytes.drop n).drop (m-n)).takeWhile netIsWhitespace := by
        rw [List.drop_drop,Nat.add_sub_cancel' hn]
      _=(((bytes.drop n).takeWhile netIsWhitespace).drop (m-n)++
          (bytes.drop n).dropWhile netIsWhitespace).takeWhile netIsWhitespace := by
        rw [←List.drop_append_of_le_length hle,hsplit]
      _=((bytes.drop n).takeWhile netIsWhitespace).drop (m-n) := by
        rw [List.takeWhile_append_of_pos fun a ha =>
          List.mem_takeWhile_imp (List.mem_of_mem_drop ha)]
        have hnil : ((bytes.drop n).dropWhile netIsWhitespace).takeWhile netIsWhitespace=[] := by
          cases hd : (bytes.drop n).dropWhile netIsWhitespace with
          | nil => rfl
          | cons a tail =>
            have hhead := @List.head_dropWhile_not _ netIsWhitespace (bytes.drop n)
              (by rw [hd]; exact List.cons_ne_nil a tail)
            simp only [hd,List.head_cons] at hhead
            exact List.takeWhile_cons_of_neg (by rw [hhead]; exact Bool.false_ne_true)
        rw [hnil,List.append_nil]
  unfold blanks at hm ⊢
  rw [hb,List.length_drop]
  omega

/-- Bytes consumed by a round of the command loop that recognises a command:
one that gets done consumes the whitespace behind it. -/
def taken (bytes : List UInt8) (c : Command) (n : ℕ) (ending : CommandEnd) : ℕ :=
  if ending=.done then n+blanks (bytes.drop n) else spent bytes c n

/-- A round consumes at least the command, at most the whitespace behind it. -/
theorem taken_bounds (bytes : List UInt8) (c : Command) (n : ℕ) (ending : CommandEnd) :
    n≤taken bytes c n ending ∧ taken bytes c n ending≤n+blanks (bytes.drop n) := by
  unfold taken
  split
  · exact ⟨Nat.le_add_right _ _,le_refl _⟩
  · exact spent_bounds bytes c n

/-- A command and the whitespace behind it are inside the input. -/
theorem scan_blanks_le {build : Build} {bytes : List UInt8} {c : Command} {n : ℕ}
    (h : scan build bytes=.item c n) : n+blanks (bytes.drop n)≤bytes.length := by
  have hused := scan_used_le h
  have hblanks := blanks_le (bytes.drop n)
  rw [List.length_drop] at hblanks
  omega

/-- One round of the command loop is one scan of the unread bytes. -/
theorem netIteration_eq (env : NetEnv) {conn : Conn} (hr : RingInv conn.reader.ring) :
    match scan env.build (content conn.reader.ring) with
    | .wait => netIteration env conn=(.recv,conn)
    | .reject => netIteration env conn=(.misbehaving,conn)
    | .item c n =>
      n+blanks ((content conn.reader.ring).drop n)≤ringAvailable conn.reader.ring ∧
      ∃ m≤ringAvailable conn.reader.ring, n ≤ m ∧
        netIteration env conn=((exec env conn.session c).1,after conn m (exec env conn.session c).2) ∧
        ((exec env conn.session c).1=.done →
          m=n+blanks ((content conn.reader.ring).drop n)) := by
  have hf := netCommand_follows env hr
  cases hscan : scan env.build (content conn.reader.ring) with
  | wait =>
    rw [hscan] at hf
    unfold netIteration
    rcases hf with ⟨ptr,hf⟩ | hf
    · rw [hf]
      rfl
    · rw [hf]
  | reject =>
    rw [hscan] at hf
    unfold netIteration
    rw [show netCommand env conn=_ from hf]
  | item c n =>
    rw [hscan] at hf
    obtain ⟨m,hn,hm,hle,hf⟩ := hf
    have hb := blanks_drop hn hm
    have hused : n+blanks ((content conn.reader.ring).drop n)≤ringAvailable conn.reader.ring := by
      have hbl := blanks_le ((content conn.reader.ring).drop n)
      have hu := scan_used_le hscan
      rw [List.length_drop,content_length] at hbl
      rw [content_length] at hu
      omega
    refine ⟨hused,?_⟩
    have hsm : RingInv (conn.reader.skip m).ring := skip_inv hr hle
    unfold netIteration
    rw [hf]
    rcases exec_end env conn.session c with hdone | ⟨err,herr⟩ | ⟨site,hne,hsite⟩
    · refine ⟨_,hused,by omega,?_,fun _ => rfl⟩
      rw [hdone]
      dsimp only
      rw [netSkipWhitespace_eq hsm,content_reader_skip hr hle]
      dsimp only
      rw [reader_skip_skip hr (by omega),hb]
      rfl
    · rw [herr]
      exact ⟨m,hle,hn,rfl,fun h => by cases h⟩
    · rw [hsite]
      exact ⟨m,hle,hn,rfl,fun h => by cases h⟩

/-- A round in front of an incomplete command goes back to reading. -/
theorem netIteration_wait (env : NetEnv) {conn : Conn} (hr : RingInv conn.reader.ring)
    (hscan : scan env.build (content conn.reader.ring)=.wait) :
    netIteration env conn=(.recv,conn) := by
  have hit := netIteration_eq env hr
  rw [hscan] at hit
  exact hit

/-- A round in front of something else ends the connection. -/
theorem netIteration_reject (env : NetEnv) {conn : Conn} (hr : RingInv conn.reader.ring)
    (hscan : scan env.build (content conn.reader.ring)=.reject) :
    netIteration env conn=(.misbehaving,conn) := by
  have hit := netIteration_eq env hr
  rw [hscan] at hit
  exact hit

/-- A round in front of a command executes it. -/
theorem netIteration_item (env : NetEnv) {conn : Conn} (hr : RingInv conn.reader.ring)
    {c : Command} {n : ℕ} (hscan : scan env.build (content conn.reader.ring)=.item c n) :
    n+blanks ((content conn.reader.ring).drop n)≤ringAvailable conn.reader.ring ∧
      ∃ m≤ringAvailable conn.reader.ring, n ≤ m ∧
        netIteration env conn=((exec env conn.session c).1,
          after conn m (exec env conn.session c).2) ∧
        ((exec env conn.session c).1=.done →
          m=n+blanks ((content conn.reader.ring).drop n)) := by
  have hit := netIteration_eq env hr
  rw [hscan] at hit
  exact hit

/-- The same with the exact number of bytes. -/
theorem netIteration_exact (env : NetEnv) {conn : Conn} (hr : RingInv conn.reader.ring)
    {c : Command} {n : ℕ} (hscan : scan env.build (content conn.reader.ring)=.item c n) :
    netIteration env conn=((exec env conn.session c).1,
      after conn (taken (content conn.reader.ring) c n (exec env conn.session c).1)
        (exec env conn.session c).2) := by
  obtain ⟨_,m,_,_,hit,hm⟩ := netIteration_item env hr hscan
  by_cases hdone : (exec env conn.session c).1=.done
  · rw [hit,hm hdone,taken,if_pos hdone]
  · -- a round that does not get done stops behind its command
    have hf := netCommand_followsExactly env hr
    rw [hscan] at hf
    rw [netIteration,hf.2,taken,if_neg hdone]
    rcases exec_end env conn.session c with hc | ⟨err,herr⟩ | ⟨site,_,hsite⟩
    · exact absurd hc hdone
    · rw [herr]
      rfl
    · rw [hsite]
      rfl

/-- How the command loop ends when the drain is closed. -/
def endOf : Option CommandEnd → LoopEnd
  | none => .misbehaving
  | some why => why.leave

/-- The ends of a receive loop that something received brought about. -/
structure Stopped (ending : LoopEnd) : Prop where
  /-- It does not go back to reading. -/
  ne_reading : ending≠.reading
  /-- It had enough fuel. -/
  ne_exhausted : ending≠.exhausted
  /-- No assertion of the ring failed. -/
  ne_ringAdvance : ending≠.aborted .ringAdvance

/-- A command that does not get done stops the receive loop. -/
theorem leave_stopped (env : NetEnv) (session : Session) (c : Command)
    (h : (exec env session c).1≠.done) : Stopped (exec env session c).1.leave := by
  rcases exec_end env session c with hdone | ⟨err,herr⟩ | ⟨site,hne,hsite⟩
  · exact absurd hdone h
  · rw [herr]
    exact ⟨(fun h => by cases h),(fun h => by cases h),fun h => by cases h⟩
  · rw [hsite]
    exact ⟨(fun h => by cases h),(fun h => by cases h),fun h => hne (LoopEnd.aborted.inj h)⟩

/-- The outcome of a command loop that did what the drain of the unread bytes
does, in at most as many rounds as there were bytes. -/
def Drains (conn : Conn) (out : LoopReport) : Result UInt8 Session CommandEnd → Prop
  | .waiting session pending => ∃ k≤ringAvailable conn.reader.ring,
      (content conn.reader.ring).drop k=pending ∧ out.ending=.reading ∧
      out.conn=after conn k session ∧ out.rounds≤ringAvailable conn.reader.ring
  | .closed why session => ∃ k≤ringAvailable conn.reader.ring,
      out.ending=endOf why ∧ Stopped out.ending ∧ out.conn=after conn k session ∧
      out.rounds≤ringAvailable conn.reader.ring
  | .exhausted => False

/-- Connections that consume bytes in two steps consume them all. -/
theorem after_after {conn : Conn} (hr : RingInv conn.reader.ring) {i j : ℕ}
    (h : i+j≤ringAvailable conn.reader.ring) (session session' : Session) :
    after (after conn i session) j session'=after conn (i+j) session' := by
  dsimp only [after]
  rw [reader_skip_skip hr h]

/-- Consuming nothing with the same session changes nothing. -/
theorem after_zero {conn : Conn} (hr : RingInv conn.reader.ring) :
    after conn 0 conn.session=conn := by
  rw [after,reader_skip_zero hr]

/-- The drain of the language under the effects on a session. -/
abbrev drainAll (env : NetEnv) (session : Session) (bytes : List UInt8) :
    Result UInt8 Session CommandEnd :=
  (grammar env.build).drainAll (consumer env) session bytes

/-- Without unread bytes the command loop is not entered. -/
theorem drains_nil (env : NetEnv) {conn : Conn} (hr : RingInv conn.reader.ring)
    (h : content conn.reader.ring=[]) (fuel : ℕ) :
    Drains conn (netCommandLoop env fuel conn)
      (drainAll env conn.session (content conn.reader.ring)) := by
  have hloop : netCommandLoop env fuel conn=⟨.reading,conn,0⟩ := by
    cases fuel <;> rw [netCommandLoop,anyAvailable_nil hr h,if_neg Bool.false_ne_true]
  rw [hloop,h]
  exact ⟨0,by omega,by rw [h]; rfl,rfl,(after_zero hr).symm,by dsimp only; omega⟩

/-- What drains the bytes behind a command drains them all, one round later. -/
theorem drains_after {conn : Conn} (hr : RingInv conn.reader.ring) {m : ℕ}
    (hpos : 0 < m) (hm : m≤ringAvailable conn.reader.ring) {session : Session} {out : LoopReport}
    {result : Result UInt8 Session CommandEnd} (h : Drains (after conn m session) out result) :
    Drains conn {out with rounds := out.rounds+1} result := by
  have ha : ringAvailable (after conn m session).reader.ring=ringAvailable conn.reader.ring-m :=
    available_skip hr hm
  have hc : content (after conn m session).reader.ring=(content conn.reader.ring).drop m :=
    content_skip hr hm
  cases result with
  | waiting session' pending =>
    obtain ⟨k,hk,hpend,hend,hconn,hrounds⟩ := h
    rw [hc,List.drop_drop] at hpend
    exact ⟨m+k,by omega,hpend,hend,hconn.trans (after_after hr (by omega) _ _),
      by dsimp only; omega⟩
  | closed why session' =>
    obtain ⟨k,hk,hend,hstop,hconn,hrounds⟩ := h
    exact ⟨m+k,by omega,hend,hstop,hconn.trans (after_after hr (by omega) _ _),
      by dsimp only; omega⟩
  | exhausted => exact h

/-- With a round of fuel for every unread byte, the command loop drains them. -/
theorem netCommandLoop_drains (env : NetEnv) {conn : Conn} (hr : RingInv conn.reader.ring)
    {fuel : ℕ} (hfuel : ringAvailable conn.reader.ring≤fuel) :
    Drains conn (netCommandLoop env fuel conn)
      (drainAll env conn.session (content conn.reader.ring)) := by
  induction fuel generalizing conn with
  | zero =>
    have ha : ringAvailable conn.reader.ring=0 := by omega
    have hnil : content conn.reader.ring=[] := List.eq_nil_of_length_eq_zero (by rw [content_length,ha])
    exact drains_nil env hr hnil 0
  | succ fuel ih =>
    by_cases hnil : content conn.reader.ring=[]
    · exact drains_nil env hr hnil (fuel+1)
    · have hpos : 0<ringAvailable conn.reader.ring := by
        rw [←content_length]
        exact List.length_pos_iff.mpr hnil
      rw [netCommandLoop,anyAvailable_of_ne_nil hr hnil,if_pos rfl]
      cases hscan : scan env.build (content conn.reader.ring) with
      | wait =>
        rw [netIteration_wait env hr hscan,drainAll,Grammar.drainAll_wait hnil hscan]
        exact ⟨0,by omega,rfl,rfl,(after_zero hr).symm,hpos⟩
      | reject =>
        rw [netIteration_reject env hr hscan,drainAll,Grammar.drainAll_reject hnil hscan]
        exact ⟨0,by omega,rfl,⟨(fun h => by cases h),(fun h => by cases h),fun h => by cases h⟩,
          (after_zero hr).symm,hpos⟩
      | item c n =>
        obtain ⟨hused,m,hm,_,hit,hdone⟩ := netIteration_item env hr hscan
        rw [hit,drainAll,Grammar.drainAll_item hnil hscan]
        dsimp only [consumer]
        by_cases hd : (exec env conn.session c).1=.done
        · -- the command and its whitespace are gone, and the rest is drained
          have hlt := rest_shorter hnil hscan
          rw [List.length_drop,content_length] at hlt
          have hk := hdone hd
          have hrm : RingInv (after conn m (exec env conn.session c).2).reader.ring := skip_inv hr hm
          have ham : ringAvailable (after conn m (exec env conn.session c).2).reader.ring=
              ringAvailable conn.reader.ring-m := available_skip hr hm
          have hcm : content (after conn m (exec env conn.session c).2).reader.ring=
              (content conn.reader.ring).drop m := content_skip hr hm
          have hrec := ih hrm (by omega)
          rw [if_pos hd,if_pos hd,rest_eq_drop,←hk]
          rw [hcm] at hrec
          exact drains_after hr (by omega) hm hrec
        · rw [if_neg hd,if_neg hd]
          exact ⟨m,hm,rfl,leave_stopped env conn.session c hd,rfl,hpos⟩

/-- The second connection is the first with a received block in its ring. -/
structure Received (conn conn' : Conn) (bytes : List UInt8) : Prop where
  /-- The block is appended to the unread bytes. -/
  appends : Appends conn.reader.ring conn'.reader.ring bytes
  /-- No access behind the received bytes. -/
  overruns : conn'.reader.overruns=conn.reader.overruns
  /-- No look back. -/
  strayPeeks : conn'.strayPeeks=conn.strayPeeks
  /-- No effect. -/
  session : conn'.session=conn.session

/-- A fitting block is taken over without an assertion failing. -/
theorem netAcknowledge_received (env : NetEnv) {conn : Conn} (hr : RingInv conn.reader.ring)
    {bytes : List UInt8} (h : bytes.length≤ringFreeSpaceContig conn.reader.ring) :
    ∃ conn', netAcknowledge env conn bytes=some conn' ∧ Received conn conn' bytes := by
  obtain ⟨ring,hring,happ⟩ := ringReceive_spec hr h
  unfold netAcknowledge
  rw [hring]
  exact ⟨_,rfl,happ,rfl,rfl,rfl⟩

/-- A fitting block is received, and the command loop drains the unread bytes
with it. -/
theorem netReceive_drains (env : NetEnv) {conn : Conn} (hr : RingInv conn.reader.ring)
    {bytes : List UInt8} (h : bytes.length≤ringFreeSpaceContig conn.reader.ring) :
    ∃ conn', Received conn conn' bytes ∧
      Drains conn' (netReceive env conn bytes)
        (drainAll env conn.session (content conn.reader.ring++bytes)) := by
  obtain ⟨conn',hconn,hrec⟩ := netAcknowledge_received env hr h
  refine ⟨conn',hrec,?_⟩
  unfold netReceive
  rw [hconn,←hrec.appends.content,←hrec.session]
  exact netCommandLoop_drains env hrec.appends.inv (le_refl _)

/-- The outcome of a receive loop that fed the drain with what it read. -/
def Feeds (conn : Conn) (out : LoopEnd×Conn) : Result UInt8 Session CommandEnd → Prop
  | .waiting session pending => out.1=.reading ∧ out.2.session=session ∧
      RingInv out.2.reader.ring ∧ content out.2.reader.ring=pending ∧
      out.2.reader.ring.size=conn.reader.ring.size ∧
      out.2.reader.overruns=conn.reader.overruns ∧ out.2.strayPeeks=conn.strayPeeks
  | .closed why session => out.1=endOf why ∧ out.2.session=session ∧ Stopped out.1 ∧
      out.2.reader.overruns=conn.reader.overruns ∧ out.2.strayPeeks=conn.strayPeeks
  | .exhausted => False

/-- One fitting read feeds the drain. -/
theorem netReceive_feeds (env : NetEnv) {conn : Conn} (hr : RingInv conn.reader.ring)
    {bytes : List UInt8} (h : bytes.length≤ringFreeSpaceContig conn.reader.ring) :
    Feeds conn ((netReceive env conn bytes).ending,(netReceive env conn bytes).conn)
        (drainAll env conn.session (content conn.reader.ring++bytes)) ∧
      ((netReceive env conn bytes).ending=.reading ↔
        ∃ session pending, drainAll env conn.session (content conn.reader.ring++bytes)=
          .waiting session pending) := by
  obtain ⟨conn',hrec,hdr⟩ := netReceive_drains env hr h
  cases hres : drainAll env conn.session (content conn.reader.ring++bytes) with
  | waiting session pending =>
    rw [hres] at hdr
    obtain ⟨k,hk,hpend,hend,hconn,_⟩ := hdr
    have hc := content_reader_skip hrec.appends.inv hk
    rw [hconn]
    exact ⟨⟨hend,rfl,skip_inv hrec.appends.inv hk,hc.trans hpend,hrec.appends.size,hrec.overruns,
      hrec.strayPeeks⟩,fun _ => ⟨_,_,rfl⟩,fun _ => hend⟩
  | closed why session =>
    rw [hres] at hdr
    obtain ⟨k,_,hend,hstop,hconn,_⟩ := hdr
    rw [hconn]
    exact ⟨⟨hend,rfl,hstop,hrec.overruns,hrec.strayPeeks⟩,fun h => absurd h hstop.ne_reading,
      fun ⟨_,_,h⟩ => by cases h⟩
  | exhausted =>
    rw [hres] at hdr
    exact hdr.elim

/-- Histories and sizes are inherited along the receive loop. -/
theorem Feeds.of_eq {conn conn' : Conn} {out : LoopEnd×Conn}
    {res : Result UInt8 Session CommandEnd} (h : Feeds conn' out res)
    (hsize : conn'.reader.ring.size=conn.reader.ring.size)
    (hover : conn'.reader.overruns=conn.reader.overruns)
    (hstray : conn'.strayPeeks=conn.strayPeeks) : Feeds conn out res := by
  cases res with
  | waiting session pending =>
    obtain ⟨h1,h2,h3,h4,h5,h6,h7⟩ := h
    exact ⟨h1,h2,h3,h4,h5.trans hsize,h6.trans hover,h7.trans hstray⟩
  | closed why session =>
    obtain ⟨h1,h2,h3,h4,h5⟩ := h
    exact ⟨h1,h2,h3,h4.trans hover,h5.trans hstray⟩
  | exhausted => exact h

/-- The receive loop over fitting reads feeds the drain with them. -/
theorem netReceiveLoop_feeds (env : NetEnv) {conn : Conn} (hr : RingInv conn.reader.ring)
    {reads : List (List UInt8)} (hfit : ReadsFit env conn reads) :
    Feeds conn (netReceiveLoop env conn (reads.map .data))
      (reads.foldl ((grammar env.build).feed (consumer env))
        (.waiting conn.session (content conn.reader.ring))) := by
  induction reads generalizing conn with
  | nil => exact ⟨rfl,rfl,hr,rfl,rfl,rfl,rfl⟩
  | cons bytes reads ih =>
    obtain ⟨hpos,hlen,hrest⟩ := hfit
    obtain ⟨hfeed,hiff⟩ := netReceive_feeds env hr hlen
    rw [List.map_cons,netReceiveLoop,List.foldl_cons,Grammar.feed]
    change Feeds _ _ (reads.foldl _ (drainAll env conn.session (content conn.reader.ring++bytes)))
    cases hres : drainAll env conn.session (content conn.reader.ring++bytes) with
    | waiting session pending =>
      rw [hres] at hfeed
      obtain ⟨hend,hsess,hinv,hcont,hsize,hover,hstray⟩ := hfeed
      dsimp only at hend hsess hinv hcont hsize hover hstray ⊢
      rw [if_pos hend,←hsess,←hcont]
      exact (ih hinv (hrest hend)).of_eq hsize hover hstray
    | closed why session =>
      rw [hres] at hfeed hiff
      have hstop : (netReceive env conn bytes).ending≠.reading := fun h => by
        obtain ⟨_,_,he⟩ := hiff.mp h
        cases he
      rw [if_neg hstop,Grammar.foldl_feed_closed]
      exact hfeed
    | exhausted =>
      rw [hres] at hfeed
      exact hfeed.elim

/-- The session of a receive loop is the state of the drain that it fed. -/
theorem state_of_feeds {conn : Conn} {out : LoopEnd×Conn} {res : Result UInt8 Session CommandEnd}
    (h : Feeds conn out res) : res.state?=some out.2.session := by
  cases res with
  | waiting session pending => rw [h.2.1]; rfl
  | closed why session => rw [h.2.1]; rfl
  | exhausted => exact h.elim

/-- A connection with a valid empty ring that has room for the stream. -/
structure Ready (conn : Conn) (session : Session) (stream : List UInt8) : Prop where
  /-- The ring is valid. -/
  inv : RingInv conn.reader.ring
  /-- Nothing is unread. -/
  empty : content conn.reader.ring=[]
  /-- The ring is larger than the stream. -/
  room : stream.length<conn.reader.ring.size
  /-- Offset, framebuffer and history. -/
  session : conn.session=session

/-- A new ring of the given size. -/
def newRing (size : ℕ) : Ring := ⟨size,fun _ => 0,0,0⟩

/-- A new ring larger than the stream is ready for it. -/
theorem ready_newRing (session : Session) {stream : List UInt8} {size : ℕ}
    (h : stream.length<size) : Ready (freshConn (newRing size) session) session stream := by
  have hs : (0 : ℤ)<size := by omega
  exact ⟨⟨le_refl _,hs,le_refl _,hs⟩,rfl,h,rfl⟩

/-- The unread bytes do not wrap around, and neither will the given number of
further ones. -/
structure Unwrapped (conn : Conn) (room : ℕ) : Prop where
  /-- The ring is valid. -/
  inv : RingInv conn.reader.ring
  /-- The reader is behind the writer. -/
  read_le : conn.reader.ring.ptrRead≤conn.reader.ring.ptrWrite
  /-- The writer does not reach the end. -/
  room : conn.reader.ring.ptrWrite+room<conn.reader.ring.size

/-- A drained connection has only consumed bytes. -/
theorem Drains.conn_eq {conn : Conn} {out : LoopReport} {result : Result UInt8 Session CommandEnd}
    (h : Drains conn out result) :
    ∃ k session, k≤ringAvailable conn.reader.ring ∧ out.conn=after conn k session := by
  cases result with
  | waiting session pending =>
    obtain ⟨k,hk,_,_,hconn,_⟩ := h
    exact ⟨k,session,hk,hconn⟩
  | closed why session =>
    obtain ⟨k,hk,_,_,hconn,_⟩ := h
    exact ⟨k,session,hk,hconn⟩
  | exhausted => exact h.elim

/-- There the unread bytes and the free space follow each other. -/
theorem Unwrapped.available {conn : Conn} {room : ℕ} (h : Unwrapped conn room) :
    (ringAvailable conn.reader.ring : ℤ)=
      conn.reader.ring.ptrWrite-conn.reader.ring.ptrRead := by
  have hle := h.read_le
  unfold ringAvailable
  rw [if_pos (by omega)]
  omega

/-- The room is contiguous. -/
theorem Unwrapped.room_le {conn : Conn} {room : ℕ} (h : Unwrapped conn room) :
    room≤ringFreeSpaceContig conn.reader.ring := by
  obtain ⟨⟨h1,h2,h3,h4⟩,hle,hroom⟩ := h
  unfold ringFreeSpaceContig
  split_ifs <;> omega

/-- Consuming bytes does not use the room. -/
theorem Unwrapped.skip {conn : Conn} {room : ℕ} (h : Unwrapped conn room) {k : ℕ}
    (hk : k≤ringAvailable conn.reader.ring) (session : Session) :
    Unwrapped (after conn k session) room := by
  have hav := h.available
  have hroom := h.room
  have hptr : (after conn k session).reader.ring.ptrRead=conn.reader.ring.ptrRead+k := by
    show CircularMemory.cell conn.reader.ring.size conn.reader.ring.ptrRead k=_
    rw [CircularMemory.cell,if_pos (by omega)]
  refine ⟨skip_inv h.inv hk,?_,hroom⟩
  rw [hptr]
  show _≤conn.reader.ring.ptrWrite
  omega

/-- A received block uses its length of the room. -/
theorem Unwrapped.received {conn conn' : Conn} {bytes : List UInt8} {room : ℕ}
    (h : Unwrapped conn (bytes.length+room)) (hrec : Received conn conn' bytes) :
    Unwrapped conn' room := by
  have hold := h.available
  have hle := h.read_le
  have hroom := h.room
  push_cast at hroom
  have hav : ringAvailable conn'.reader.ring=ringAvailable conn.reader.ring+bytes.length := by
    rw [←content_length,hrec.appends.content,List.length_append,content_length]
  have hwrite : conn'.reader.ring.ptrWrite=conn.reader.ring.ptrWrite+bytes.length := by
    rw [ptrWrite_eq_cell hrec.appends.inv,hrec.appends.size,hrec.appends.ptrRead,
      CircularMemory.cell,if_pos (by omega)]
    omega
  refine ⟨hrec.appends.inv,?_,?_⟩
  · rw [hrec.appends.ptrRead,hwrite]
    omega
  · rw [hrec.appends.size,hwrite]
    omega

/-- Reading without wrapping around leaves room for the rest. -/
theorem Unwrapped.netReceive {env : NetEnv} {conn : Conn} {bytes : List UInt8} {room : ℕ}
    (h : Unwrapped conn (bytes.length+room)) :
    bytes.length≤ringFreeSpaceContig conn.reader.ring ∧
      Unwrapped (netReceive env conn bytes).conn room := by
  have hfit : bytes.length≤ringFreeSpaceContig conn.reader.ring :=
    le_trans (Nat.le_add_right _ _) h.room_le
  obtain ⟨conn',hrec,hdr⟩ := netReceive_drains env h.inv hfit
  obtain ⟨k,session,hk,hconn⟩ := hdr.conn_eq
  refine ⟨hfit,?_⟩
  rw [hconn]
  exact (h.received hrec).skip hk session

/-- Reads that do not wrap around fit. -/
theorem Unwrapped.readsFit {env : NetEnv} {conn : Conn} {reads : List (List UInt8)}
    (h : Unwrapped conn reads.flatten.length) (hne : ∀ bytes∈reads,bytes≠[]) :
    ReadsFit env conn reads := by
  induction reads generalizing conn with
  | nil => trivial
  | cons bytes reads ih =>
    rw [List.flatten_cons,List.length_append] at h
    obtain ⟨hfit,hnext⟩ := @Unwrapped.netReceive env conn bytes _ h
    rw [List.forall_mem_cons] at hne
    exact ⟨List.length_pos_iff.mpr hne.1,hfit,fun _ => ih hnext hne.2⟩

/-- Every cut of a stream into non-empty reads fits a new ring larger than it. -/
theorem readsFit_newRing (env : NetEnv) (session : Session) {stream : List UInt8}
    {reads : List (List UInt8)} (hcut : reads.flatten=stream) {size : ℕ}
    (hsize : stream.length<size) (hne : ∀ bytes∈reads,bytes≠[]) :
    ReadsFit env (freshConn (newRing size) session) reads := by
  refine Unwrapped.readsFit ⟨(ready_newRing session hsize).inv,le_refl _,?_⟩ hne
  show (0 : ℤ)+_<(size : ℤ)
  rw [hcut]
  omega

/-- A connection whose ring holds the given unread bytes at its start and has
room for more. -/
def holdingConn (pending : List UInt8) (room : ℕ) (session : Session) : Conn :=
  freshConn ⟨pending.length+room+1,fun a => pending.getD a.toNat 0,0,pending.length⟩ session

/-- Its ring is valid, holds the bytes and has the room. -/
theorem holdingConn_spec (pending : List UInt8) (room : ℕ) (session : Session) :
    RingInv (holdingConn pending room session).reader.ring ∧
      content (holdingConn pending room session).reader.ring=pending ∧
      room≤ringFreeSpaceContig (holdingConn pending room session).reader.ring := by
  have hav : ringAvailable (holdingConn pending room session).reader.ring=pending.length := by
    unfold ringAvailable
    exact if_pos (by show (0 : ℤ)≤pending.length; omega)
  refine ⟨⟨le_refl _,?_,?_,?_⟩,?_,?_⟩
  · show (0 : ℤ)<((pending.length+room+1 : ℕ) : ℤ)
    omega
  · show (0 : ℤ)≤pending.length
    omega
  · show (pending.length : ℤ)<((pending.length+room+1 : ℕ) : ℤ)
    omega
  · rw [content,hav]
    refine List.ext_getElem (CircularMemory.window_length _ _ _ _) fun i hi hi' => ?_
    have hcell : CircularMemory.cell (pending.length+room+1) 0 i=i := by
      rw [CircularMemory.cell,if_pos (by omega),zero_add]
    rw [CircularMemory.getElem_window]
    show pending.getD (CircularMemory.cell (pending.length+room+1) 0 i).toNat 0=_
    rw [hcell,Int.toNat_natCast,List.getD_eq_getElem _ _ hi']
  · have hspace : ringFreeSpaceContig (holdingConn pending room session).reader.ring=
        (((pending.length+room+1 : ℕ) : ℤ)-pending.length-1).toNat :=
      if_neg (show ¬(0 : ℤ)>pending.length by omega)
    rw [hspace]
    omega

end Shoreline.CommandLoop
