import Shoreline.CommandLoop

/-!
# The command loop as a parser of a flat list

The command loop does with the unread bytes of a ring what one parser does
with the same bytes in a list. Sizes of rings and positions in them are not
seen: not by tokens that wrap around, and not by the look back for a newline.
-/

namespace Shoreline.FlatParser

open IncrementalReader RingBuffer RingContent NetToken NetConnection TokenScan CommandScan
open CommandGrammar CommandLoop Framebuffer

/-- What a parse of a list ends with. -/
structure FlatReport where
  /-- Why it was left. -/
  ending : LoopEnd
  /-- Offset, framebuffer and history then. -/
  session : Session
  /-- Bytes consumed. -/
  used : ℕ
  /-- Commands looked at. -/
  rounds : ℕ

/-- Parse a list of bytes, one unit of fuel per command. -/
def flatLoop (env : NetEnv) : ℕ → Session → List UInt8 → FlatReport
  | fuel,session,bytes =>
    if bytes.isEmpty then ⟨.reading,session,0,0⟩
    else
      match fuel with
      | 0 => ⟨.exhausted,session,0,0⟩
      | fuel+1 =>
        match scan env.build bytes with
        | .wait => ⟨.reading,session,0,1⟩
        | .reject => ⟨.misbehaving,session,0,1⟩
        | .item c n =>
          let out := exec env session c
          let used := taken bytes c n out.1
          if out.1=.done then
            let rest := flatLoop env fuel out.2 (bytes.drop used)
            {rest with used := used+rest.used, rounds := rest.rounds+1}
          else ⟨out.1.leave,out.2,used,1⟩

/-- Parse a list of bytes; a command for every byte is enough fuel. -/
def flatParse (env : NetEnv) (session : Session) (bytes : List UInt8) : FlatReport :=
  flatLoop env bytes.length session bytes

/-- The parse of the unread bytes of a connection, as an outcome of the loop. -/
def FlatReport.on (flat : FlatReport) (conn : Conn) : LoopReport :=
  ⟨flat.ending,after conn flat.used flat.session,flat.rounds⟩

variable {env : NetEnv} {session : Session} {bytes : List UInt8}

/-- There is nothing to parse in an empty list. -/
theorem flatLoop_nil (fuel : ℕ) : flatLoop env fuel session []=⟨.reading,session,0,0⟩ := by
  cases fuel <;> rfl

/-- Incomplete input is left alone. -/
theorem flatLoop_wait (hne : bytes≠[]) (h : scan env.build bytes=.wait) (fuel : ℕ) :
    flatLoop env (fuel+1) session bytes=⟨.reading,session,0,1⟩ := by
  rw [flatLoop,List.isEmpty_eq_false_iff.mpr hne]
  simp [h]

/-- So is garbage. -/
theorem flatLoop_reject (hne : bytes≠[]) (h : scan env.build bytes=.reject) (fuel : ℕ) :
    flatLoop env (fuel+1) session bytes=⟨.misbehaving,session,0,1⟩ := by
  rw [flatLoop,List.isEmpty_eq_false_iff.mpr hne]
  simp [h]

/-- A command is executed, then the parse goes on or stops. -/
theorem flatLoop_item (hne : bytes≠[]) {c : Command} {n : ℕ} (h : scan env.build bytes=.item c n)
    (fuel : ℕ) :
    flatLoop env (fuel+1) session bytes=
      if (exec env session c).1=.done then
        let used := taken bytes c n (exec env session c).1
        let rest := flatLoop env fuel (exec env session c).2 (bytes.drop used)
        {rest with used := used+rest.used, rounds := rest.rounds+1}
      else ⟨(exec env session c).1.leave,(exec env session c).2,
        taken bytes c n (exec env session c).1,1⟩ := by
  rw [flatLoop,List.isEmpty_eq_false_iff.mpr hne]
  simp [h]

/-- Behind a command that gets done less is left. -/
theorem drop_taken_lt (hne : bytes≠[]) {c : Command} {n : ℕ} (h : scan env.build bytes=.item c n) :
    (bytes.drop (taken bytes c n .done)).length<bytes.length :=
  rest_shorter hne h

/-- More fuel than bytes changes nothing. -/
theorem flatLoop_fuel {fuel fuel' : ℕ} (h : bytes.length≤fuel) (h' : bytes.length≤fuel') :
    flatLoop env fuel session bytes=flatLoop env fuel' session bytes := by
  induction fuel generalizing fuel' session bytes with
  | zero =>
    have hnil : bytes=[] := List.eq_nil_of_length_eq_zero (by omega)
    rw [hnil,flatLoop_nil,flatLoop_nil]
  | succ fuel ih =>
    by_cases hne : bytes=[]
    · rw [hne,flatLoop_nil,flatLoop_nil]
    · have hpos := List.length_pos_iff.mpr hne
      obtain ⟨fuel',rfl⟩ : ∃ k, fuel'=k+1 := ⟨fuel'-1,by omega⟩
      cases hscan : scan env.build bytes with
      | wait => rw [flatLoop_wait hne hscan,flatLoop_wait hne hscan]
      | reject => rw [flatLoop_reject hne hscan,flatLoop_reject hne hscan]
      | item c n =>
        have hlt := drop_taken_lt hne hscan
        rw [flatLoop_item hne hscan,flatLoop_item hne hscan]
        by_cases hdone : (exec env session c).1=.done
        · have hfuel : (bytes.drop (taken bytes c n .done)).length≤fuel := by omega
          have hfuel' : (bytes.drop (taken bytes c n .done)).length≤fuel' := by omega
          rw [if_pos hdone,if_pos hdone,hdone]
          dsimp only
          rw [ih hfuel hfuel']
        · rw [if_neg hdone,if_neg hdone]

/-- The command loop parses the unread bytes as if they were in a list. -/
theorem netCommandLoop_flat (env : NetEnv) {conn : Conn} (hr : RingInv conn.reader.ring)
    (fuel : ℕ) :
    (flatLoop env fuel conn.session (content conn.reader.ring)).used≤
        ringAvailable conn.reader.ring ∧
      netCommandLoop env fuel conn=
        (flatLoop env fuel conn.session (content conn.reader.ring)).on conn := by
  induction fuel generalizing conn with
  | zero =>
    by_cases hnil : content conn.reader.ring=[]
    · rw [hnil,flatLoop_nil,netCommandLoop,anyAvailable_nil hr hnil,FlatReport.on,after_zero hr]
      exact ⟨Nat.zero_le _,rfl⟩
    · rw [flatLoop,List.isEmpty_eq_false_iff.mpr hnil,netCommandLoop,
        anyAvailable_of_ne_nil hr hnil]
      simp [FlatReport.on,after_zero hr]
  | succ fuel ih =>
    by_cases hnil : content conn.reader.ring=[]
    · rw [hnil,flatLoop_nil,netCommandLoop,anyAvailable_nil hr hnil,FlatReport.on,after_zero hr]
      exact ⟨Nat.zero_le _,rfl⟩
    · have hpos := List.length_pos_iff.mpr hnil
      rw [content_length] at hpos
      rw [netCommandLoop,anyAvailable_of_ne_nil hr hnil,if_pos rfl]
      cases hscan : scan env.build (content conn.reader.ring) with
      | wait =>
        rw [netIteration_wait env hr hscan,flatLoop_wait hnil hscan,FlatReport.on,after_zero hr]
        exact ⟨Nat.zero_le _,rfl⟩
      | reject =>
        rw [netIteration_reject env hr hscan,flatLoop_reject hnil hscan,FlatReport.on,
          after_zero hr]
        exact ⟨Nat.zero_le _,rfl⟩
      | item c n =>
        have hle := (taken_bounds (content conn.reader.ring) c n (exec env conn.session c).1).2
        have hused := scan_blanks_le hscan
        rw [content_length] at hused
        rw [netIteration_exact env hr hscan,flatLoop_item hnil hscan]
        dsimp only
        generalize hm : taken (content conn.reader.ring) c n (exec env conn.session c).1=m at hle ⊢
        by_cases hdone : (exec env conn.session c).1=.done
        · -- the rest is parsed behind the consumed bytes
          obtain ⟨hrest,hloop⟩ := @ih (after conn m (exec env conn.session c).2)
            (skip_inv hr (by omega))
          have hav : ringAvailable (after conn m (exec env conn.session c).2).reader.ring=
              ringAvailable conn.reader.ring-m := available_skip hr (by omega)
          have hcm : content (after conn m (exec env conn.session c).2).reader.ring=
              (content conn.reader.ring).drop m := content_skip hr (by omega)
          rw [hcm,hav] at hrest
          rw [hcm] at hloop
          change (flatLoop env fuel (exec env conn.session c).2 _).used≤_ at hrest
          change _=(flatLoop env fuel (exec env conn.session c).2 _).on _ at hloop
          rw [if_pos hdone,if_pos hdone,hloop]
          refine ⟨by dsimp only; omega,?_⟩
          simp only [FlatReport.on]
          rw [after_after hr (by omega)]
        · rw [if_neg hdone,if_neg hdone]
          exact ⟨by dsimp only; omega,rfl⟩

/-- The command loop over the same unread bytes in two rings, of any sizes and
at any positions, does the same: it ends alike, has the same effects in the
same order and consumes the same bytes, namely what one parser does with them
in a list. -/
theorem commandLoop_positionFree (env : NetEnv) {bytes : List UInt8} {conn conn' : Conn}
    (hr : RingInv conn.reader.ring) (hr' : RingInv conn'.reader.ring)
    (hbytes : content conn.reader.ring=bytes) (hbytes' : content conn'.reader.ring=bytes)
    (hsession : conn'.session=conn.session) {fuel fuel' : ℕ} (hfuel : bytes.length≤fuel)
    (hfuel' : bytes.length≤fuel') :
    (netCommandLoop env fuel conn).ending=(netCommandLoop env fuel' conn').ending ∧
    (netCommandLoop env fuel conn).conn.session=(netCommandLoop env fuel' conn').conn.session ∧
    (flatParse env conn.session bytes).ending≠.exhausted ∧
    (flatParse env conn.session bytes).used≤bytes.length ∧
    content (netCommandLoop env fuel conn).conn.reader.ring=
      bytes.drop (flatParse env conn.session bytes).used ∧
    content (netCommandLoop env fuel' conn').conn.reader.ring=
      bytes.drop (flatParse env conn.session bytes).used ∧
    netCommandLoop env fuel conn=(flatParse env conn.session bytes).on conn ∧
    netCommandLoop env fuel' conn'=(flatParse env conn.session bytes).on conn' := by
  obtain ⟨hused,hloop⟩ := netCommandLoop_flat env hr fuel
  obtain ⟨hused',hloop'⟩ := netCommandLoop_flat env hr' fuel'
  have hlen : bytes.length=ringAvailable conn.reader.ring := by rw [←hbytes,content_length]
  have hlen' : bytes.length=ringAvailable conn'.reader.ring := by rw [←hbytes',content_length]
  have hflat : flatLoop env fuel conn.session bytes=flatParse env conn.session bytes :=
    flatLoop_fuel hfuel (le_refl _)
  have hflat' : flatLoop env fuel' conn.session bytes=flatParse env conn.session bytes :=
    flatLoop_fuel hfuel' (le_refl _)
  rw [hbytes,hflat] at hused hloop
  rw [hsession,hbytes',hflat'] at hused' hloop'
  have hdrains := netCommandLoop_drains env hr (by omega : ringAvailable conn.reader.ring≤fuel)
  rw [hloop] at hdrains
  have hend : (flatParse env conn.session bytes).ending≠.exhausted := by
    cases hres : drainAll env conn.session (content conn.reader.ring) with
    | waiting session pending =>
      rw [hres] at hdrains
      obtain ⟨_,_,_,hreading,_⟩ := hdrains
      intro hc
      rw [FlatReport.on,hc] at hreading
      cases hreading
    | closed why session =>
      rw [hres] at hdrains
      obtain ⟨_,_,_,hstop,_⟩ := hdrains
      exact hstop.ne_exhausted
    | exhausted =>
      rw [hres] at hdrains
      exact hdrains.elim
  have hcontent : content (after conn (flatParse env conn.session bytes).used
      (flatParse env conn.session bytes).session).reader.ring=
        bytes.drop (flatParse env conn.session bytes).used := by
    rw [←hbytes]
    exact content_skip hr (by rw [hbytes]; exact hused)
  have hcontent' : content (after conn' (flatParse env conn.session bytes).used
      (flatParse env conn.session bytes).session).reader.ring=
        bytes.drop (flatParse env conn.session bytes).used := by
    have hskip := content_skip hr' hused'
    rw [hbytes'] at hskip
    exact hskip
  rw [hloop,hloop']
  exact ⟨rfl,rfl,hend,by omega,hcontent,hcontent',rfl,rfl⟩

/-- `SIZE` and a line end, wrapped around the end of a ring of seven cells. -/
def wrappedSize : Ring := ⟨7,fun a => [0x5a,0x45,0x0a,0,0,0x53,0x49].getD a.toNat 0,5,3⟩

/-- The same bytes at the start of a larger ring. -/
def plainSize : Ring := ⟨9,fun a => [0x53,0x49,0x5a,0x45,0x0a].getD a.toNat 0,0,5⟩

/-- Both are answered alike. -/
theorem commandLoop_positionFree_wrapped :
    (netCommandLoop (plainEnv 4 4) 5 (freshConn wrappedSize (freshSession (blankFb 4 4)))).ending=
      (netCommandLoop (plainEnv 4 4) 6 (freshConn plainSize (freshSession (blankFb 4 4)))).ending :=
  (commandLoop_positionFree (plainEnv 4 4)
    (show RingInv (freshConn wrappedSize (freshSession (blankFb 4 4))).reader.ring from
      ⟨by decide,by decide,by decide,by decide⟩)
    (show RingInv (freshConn plainSize (freshSession (blankFb 4 4))).reader.ring from
      ⟨by decide,by decide,by decide,by decide⟩)
    (show _=verbSize++[0x0a] from rfl) rfl rfl (by decide) (by decide)).1

end Shoreline.FlatParser
