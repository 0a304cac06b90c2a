import Shoreline.LoopBounds

/-!
# Which pending bytes more input can move

A command loop that waits can be moved on by suitable further input, except
behind a verb whose argument can no longer be completed: its first byte is
not whitespace, or its token exceeds the garbage threshold. The branch for
unknown commands closes such a client; the argument branches keep waiting.
-/

namespace Shoreline.Progress

open IncrementalReader RingBuffer RingContent NetToken NetConnection TokenScan CommandScan
open CommandGrammar CommandLoop LoopBounds Framebuffer

/-- No further input makes an argument of these bytes: something other than
whitespace is in front, or the token is too long. -/
def ArgumentBroken (bytes : List UInt8) : Prop :=
  (bytes≠[] ∧ blanks bytes=0) ∨ (0<blanks bytes ∧ token (bytes.drop (blanks bytes))=.garbage)

/-- One of both arguments is broken. -/
def ArgumentsBroken (bytes : List UInt8) : Prop :=
  ArgumentBroken bytes ∨ ∃ out, argument bytes=some out ∧ ArgumentBroken (bytes.drop out.2)

/-- The colour of a set is too long. -/
def ColourBroken (bytes : List UInt8) : Prop :=
  ∃ out, arguments bytes=some out ∧
    endsLine ((bytes.drop out.2.2).takeWhile netIsWhitespace)=false ∧
    token ((bytes.drop out.2.2).dropWhile netIsWhitespace)=.garbage

/-- A command with arguments, one of which is broken, is at the front. -/
def Stuck (build : Build) (bytes : List UInt8) : Prop :=
  (verbPx<+:bytes ∧ (ArgumentsBroken (bytes.drop 2) ∨ ColourBroken (bytes.drop 2))) ∨
  (build.featureOffset=true ∧ verbOffset<+:bytes ∧ ArgumentsBroken (bytes.drop 6))

/-- Whitespace in front stays the same when something else follows it. -/
theorem blanks_append_of_drop {front : List UInt8} (back : List UInt8)
    (h : front.drop (blanks front)≠[]) : blanks (front++back)=blanks front := by
  refine blanks_append back ?_
  have hpos := List.length_pos_iff.mpr h
  rw [List.length_drop] at hpos
  omega

/-- A token that is too long is not empty. -/
theorem ne_nil_of_garbage {bytes : List UInt8} (h : token bytes=.garbage) : bytes≠[] := by
  rintro rfl
  cases h

/-- A broken argument is none, now and later. -/
theorem argument_of_broken {front : List UInt8} (h : ArgumentBroken front) (back : List UInt8) :
    argument (front++back)=none := by
  unfold argument
  rcases h with ⟨hne,hz⟩ | ⟨hpos,hg⟩
  · have hb := blanks_append back (by rw [hz]; exact List.length_pos_iff.mpr hne)
    rw [if_pos (hb.trans hz)]
  · have hb := blanks_append_of_drop back (ne_nil_of_garbage hg)
    rw [if_neg (by omega),hb,List.drop_append_of_le_length (blanks_le front),
      token_garbage_append back hg]

/-- Broken arguments are none, now and later. -/
theorem arguments_of_broken {front : List UInt8} (h : ArgumentsBroken front) (back : List UInt8) :
    arguments (front++back)=none := by
  unfold arguments
  rcases h with hx | ⟨⟨x,i⟩,hx,hy⟩
  · rw [argument_of_broken hx back]
  · have hb := (argument_bounds hx).2
    rw [argument_append back hx]
    dsimp only
    rw [List.drop_append_of_le_length (by omega),argument_of_broken hy back]

/-- A stuck command waits, now and later. -/
theorem scan_of_stuck {build : Build} {front : List UInt8} (h : Stuck build front)
    (back : List UInt8) : scan build (front++back)=.wait := by
  rcases h with ⟨hpx,hargs⟩ | ⟨hfeat,hoff,hargs⟩
  · have h2 : 2≤front.length := hpx.length_le
    rw [scan_px (hpx.trans (List.prefix_append front back)),scanPx,
      List.drop_append_of_le_length h2]
    rcases hargs with hargs | ⟨⟨x,y,used⟩,hargs,hline,hg⟩
    · rw [arguments_of_broken hargs back]
    · have hb := (arguments_bounds hargs).2.1
      dsimp only at hline hg
      rw [←drop_blanks] at hg
      have hbl := blanks_append_of_drop back (ne_nil_of_garbage hg)
      rw [arguments_append back hargs]
      dsimp only
      rw [List.drop_append_of_le_length (by omega),scanPxAt,hbl,
        List.take_append_of_le_length (blanks_le _),List.drop_append_of_le_length (blanks_le _),
        take_blanks,hline,if_neg Bool.false_ne_true,token_garbage_append back hg]
  · have h6 : 6≤front.length := hoff.length_le
    rw [scan_offset hfeat (hoff.trans (List.prefix_append front back)),scanOffset,
      List.drop_append_of_le_length h6,arguments_of_broken hargs back]

/-- A token without its end gets one. -/
theorem token_missing_append {bytes : List UInt8} (h : token bytes=.missing) (back : List UInt8) :
    token (bytes++0x20::back)=.closed bytes.length := by
  have hwhole : tokenLength bytes=bytes.length ∧ bytes.length≤32 := by
    unfold token at h
    split_ifs at h with hlong heq
    exact ⟨heq,by omega⟩
  refine token_closed_iff.mpr ⟨?_,hwhole.2,by rw [List.length_append,List.length_cons]; omega⟩
  have hlen := hwhole.1
  unfold tokenLength at hlen ⊢
  rw [List.takeWhile_append,if_pos hlen,List.takeWhile_cons_of_neg (by decide),List.append_nil]

/-- Bytes that are all whitespace, with a digit behind them. -/
theorem argument_of_blank {bytes : List UInt8} (hpos : 0<blanks bytes)
    (h : bytes.drop (blanks bytes)=[]) :
    argument (bytes++[0x30,0x20])=some (decimal [0x30],bytes.length+1) := by
  have hle := List.drop_eq_nil_iff.mp h
  have hb := blanks_le bytes
  have hwhole : blanks (bytes++[0x30,0x20])=bytes.length := by
    unfold blanks at hle hb ⊢
    rw [List.takeWhile_append,if_pos (by omega),List.length_append,
      List.takeWhile_cons_of_neg (by decide),List.length_nil,Nat.add_zero]
  rw [argument_eq_some_iff,hwhole,List.drop_left]
  exact ⟨by omega,1,by decide,rfl,rfl⟩

/-- An argument that is not broken can be completed, with a blank behind it. -/
theorem exists_argument {bytes : List UInt8} (h : ¬ArgumentBroken bytes)
    (hnone : argument bytes=none) :
    ∃ back val used, argument (bytes++back)=some (val,used) ∧ (bytes++back).drop used=[0x20] := by
  by_cases hnil : bytes=[]
  · subst hnil
    exact ⟨[0x20,0x30,0x20],_,2,rfl,rfl⟩
  · have hpos : 0<blanks bytes := by
      by_contra hz
      exact h (Or.inl ⟨hnil,by omega⟩)
    by_cases hrest : bytes.drop (blanks bytes)=[]
    · refine ⟨[0x30,0x20],_,_,argument_of_blank hpos hrest,?_⟩
      rw [List.drop_append,List.drop_of_length_le (by omega),List.nil_append,Nat.add_sub_cancel_left]
      rfl
    · have htoken : token (bytes.drop (blanks bytes))=.missing := by
        cases ht : token (bytes.drop (blanks bytes)) with
        | missing => rfl
        | garbage => exact absurd (Or.inr ⟨hpos,ht⟩) h
        | closed len =>
          rw [argument_eq_some_iff.mpr ⟨hpos,len,ht,rfl,rfl⟩] at hnone
          cases hnone
      have hb := blanks_append_of_drop [0x20] hrest
      have hle := blanks_le bytes
      have hclosed : token ((bytes++[0x20]).drop (blanks (bytes++[0x20])))=
          .closed (bytes.length-blanks bytes) := by
        rw [hb,List.drop_append_of_le_length hle,token_missing_append htoken [],List.length_drop]
      have hused : bytes.length=blanks (bytes++[0x20])+(bytes.length-blanks bytes) := by
        rw [hb]
        omega
      exact ⟨[0x20],_,bytes.length,
        argument_eq_some_iff.mpr ⟨by omega,_,hclosed,rfl,hused⟩,List.drop_left⟩

/-- A blank is the start of an argument. -/
theorem not_broken_blank : ¬ArgumentBroken [0x20] := by
  rintro (⟨_,h⟩ | ⟨_,h⟩)
  · exact absurd h (by decide)
  · exact absurd h (by decide)

/-- Arguments that are not broken can be completed, with a blank behind them. -/
theorem exists_arguments {bytes : List UInt8} (h : ¬ArgumentsBroken bytes)
    (hnone : arguments bytes=none) :
    ∃ back x y used, arguments (bytes++back)=some (x,y,used) ∧
      (bytes++back).drop used=[0x20] := by
  -- the second argument, behind whatever is left of the first
  have hsecond : ∀ {front : List UInt8} {x : UInt32} {i : ℕ}, argument front=some (x,i) →
      ¬ArgumentBroken (front.drop i) → argument (front.drop i)=none →
      ∃ back x y used, arguments (front++back)=some (x,y,used) ∧
        (front++back).drop used=[0x20] := by
    intro front x i hx hy hnone
    obtain ⟨back,y,j,hy,hdrop⟩ := exists_argument hy hnone
    have hb := (argument_bounds hx).2
    rw [←List.drop_append_of_le_length (by omega : i≤front.length)] at hy hdrop
    rw [List.drop_drop] at hdrop
    exact ⟨back,x,y,i+j,arguments_eq_some_iff.mpr ⟨i,j,argument_append back hx,hy,rfl⟩,hdrop⟩
  cases hx : argument bytes with
  | some out =>
    obtain ⟨x,i⟩ := out
    refine hsecond hx (fun hb => h (Or.inr ⟨(x,i),hx,hb⟩)) ?_
    cases hy : argument (bytes.drop i) with
    | none => rfl
    | some out =>
      rw [arguments_eq_some_iff.mpr ⟨i,out.2,hx,hy,rfl⟩] at hnone
      cases hnone
  | none =>
    obtain ⟨back,x,i,hx',hdrop⟩ := exists_argument (fun hb => h (Or.inl hb)) hx
    obtain ⟨back',x',y,used,hargs,hdrop'⟩ := hsecond hx' (by rw [hdrop]; exact not_broken_blank)
      (by rw [hdrop]; rfl)
    rw [List.append_assoc] at hargs hdrop'
    exact ⟨back++back',x',y,used,hargs,hdrop'⟩

/-- A pixel command that waits for its colour can be continued. -/
theorem exists_scanPxAt {x y : UInt32} {n : ℕ} {tail : List UInt8}
    (hwait : scanPxAt x y n tail=.wait)
    (h : ¬(endsLine (tail.takeWhile netIsWhitespace)=false ∧
      token (tail.dropWhile netIsWhitespace)=.garbage)) :
    ∃ back, scanPxAt x y n (tail++back)≠.wait := by
  unfold scanPxAt at hwait
  rw [take_blanks,drop_blanks] at hwait
  split_ifs at hwait with hline
  rw [Bool.not_eq_true] at hline
  have hmissing : token (tail.dropWhile netIsWhitespace)=.missing := by
    cases ht : token (tail.dropWhile netIsWhitespace) with
    | missing => rfl
    | garbage => exact absurd ⟨hline,ht⟩ h
    | closed len =>
      rw [ht] at hwait
      cases hwait
  by_cases hrest : tail.dropWhile netIsWhitespace=[]
  · -- nothing but whitespace: end the line
    have hwhole : (tail++[0x0a]).takeWhile netIsWhitespace=tail++[0x0a] := by
      have hsplit := @List.takeWhile_append_dropWhile _ netIsWhitespace tail
      rw [hrest,List.append_nil] at hsplit
      rw [List.takeWhile_append,hsplit,if_pos rfl]
      rfl
    have hends : endsLine (tail++[0x0a])=true := by
      rw [endsLine,List.getLast?_concat]
      rfl
    refine ⟨[0x0a],?_⟩
    rw [scanPxAt,take_blanks,hwhole,if_pos hends]
    exact fun he => by cases he
  · -- an open colour: close it
    rw [←drop_blanks] at hrest hmissing
    have hb := blanks_append_of_drop [0x20] hrest
    refine ⟨[0x20],?_⟩
    rw [scanPxAt,hb,List.take_append_of_le_length (blanks_le tail),take_blanks,hline,
      if_neg Bool.false_ne_true,List.drop_append_of_le_length (blanks_le tail),
      token_missing_append hmissing []]
    exact fun he => by cases he

/-- A pixel command that waits without being stuck can be continued. -/
theorem exists_scan_px {build : Build} {bytes : List UInt8} (hpx : verbPx<+:bytes)
    (h : ¬(ArgumentsBroken (bytes.drop 2) ∨ ColourBroken (bytes.drop 2)))
    (hwait : scanPx (bytes.drop 2)=.wait) : ∃ back, scan build (bytes++back)≠.wait := by
  have h2 : 2≤bytes.length := hpx.length_le
  have hscan : ∀ back, scan build (bytes++back)=scanPx (bytes.drop 2++back) := fun back => by
    rw [scan_px (hpx.trans (List.prefix_append bytes back)),List.drop_append_of_le_length h2]
  cases hargs : arguments (bytes.drop 2) with
  | none =>
    -- complete the arguments and end the line: a get
    obtain ⟨back,x,y,used,hargs',hdrop⟩ := exists_arguments (fun hb => h (Or.inl hb)) hargs
    have hb := (arguments_bounds hargs').2.1
    refine ⟨back++[0x0a],?_⟩
    rw [hscan,←List.append_assoc,scanPx,arguments_append [0x0a] hargs']
    dsimp only
    rw [List.drop_append_of_le_length (by omega),hdrop]
    exact fun he => by cases he
  | some out =>
    obtain ⟨x,y,used⟩ := out
    have hb := (arguments_bounds hargs).2.1
    rw [scanPx,hargs] at hwait
    obtain ⟨back,hback⟩ := exists_scanPxAt hwait fun hcol => h (Or.inr ⟨(x,y,used),hargs,hcol⟩)
    refine ⟨back,?_⟩
    rw [hscan,scanPx,arguments_append back hargs]
    dsimp only
    rw [List.drop_append_of_le_length (by omega)]
    exact hback

/-- An offset command that waits without being stuck can be continued. -/
theorem exists_scan_offset {build : Build} {bytes : List UInt8} (hfeat : build.featureOffset=true)
    (hoff : verbOffset<+:bytes) (h : ¬ArgumentsBroken (bytes.drop 6))
    (hwait : scanOffset (bytes.drop 6)=.wait) : ∃ back, scan build (bytes++back)≠.wait := by
  have h6 : 6≤bytes.length := hoff.length_le
  have hnone : arguments (bytes.drop 6)=none := by
    unfold scanOffset at hwait
    cases hargs : arguments (bytes.drop 6) with
    | none => rfl
    | some out =>
      rw [hargs] at hwait
      cases hwait
  obtain ⟨back,x,y,used,hargs,_⟩ := exists_arguments h hnone
  refine ⟨back,?_⟩
  rw [scan_offset hfeat (hoff.trans (List.prefix_append bytes back)),scanOffset,
    List.drop_append_of_le_length h6,hargs]
  exact fun he => by cases he

/-- A token that waits for its end can be ended. -/
theorem exists_scan_unknown {build : Build} {bytes : List UInt8} (hpx : ¬verbPx<+:bytes)
    (hsize : ¬(build.featureSize=true ∧ verbSize<+:bytes))
    (hoff : ¬(build.featureOffset=true ∧ verbOffset<+:bytes))
    (hwait : scanUnknown bytes=.wait) : ∃ back, scan build (bytes++back)≠.wait := by
  have hmissing : token bytes=.missing := by
    unfold scanUnknown at hwait
    cases ht : token bytes with
    | missing => rfl
    | garbage =>
      rw [ht] at hwait
      cases hwait
    | closed len =>
      rw [ht] at hwait
      cases hwait
  refine ⟨[0x20],?_⟩
  unfold scan
  rw [if_neg fun hv => hpx (verb_of_append_cons (by decide) hv),
    if_neg fun hv => hsize ⟨hv.1,verb_of_append_cons (by decide) hv.2⟩,
    if_neg fun hv => hoff ⟨hv.1,verb_of_append_cons (by decide) hv.2⟩,scanUnknown,
    token_missing_append hmissing []]
  exact fun he => by cases he

/-- Bytes that wait without being stuck can be continued so that they do not
wait any more. -/
theorem exists_scan {build : Build} {bytes : List UInt8} (h : ¬Stuck build bytes)
    (hwait : scan build bytes=.wait) : ∃ back, scan build (bytes++back)≠.wait := by
  unfold scan at hwait
  split_ifs at hwait with hpx hsize hoff
  · exact exists_scan_px hpx (fun hb => h (Or.inl ⟨hpx,hb⟩)) hwait
  · exact exists_scan_offset hoff.1 hoff.2 (fun hb => h (Or.inr ⟨hoff.1,hoff.2,hb⟩)) hwait
  · exact exists_scan_unknown hpx hsize hoff hwait

/-- Reading these bytes next makes the loop consume pending bytes, or close
the client as misbehaving. -/
def Moves (env : NetEnv) (conn : Conn) (bytes : List UInt8) : Prop :=
  (netReceive env conn bytes).ending=.misbehaving ∨
    ringAvailable (netReceive env conn bytes).conn.reader.ring<
      ringAvailable conn.reader.ring+bytes.length

/-- Some continuation moves every connection that holds these pending bytes
and has room for it. -/
def Curable (env : NetEnv) (session : Session) (pending : List UInt8) : Prop :=
  ∃ back : List UInt8, ∀ conn, RingInv conn.reader.ring → content conn.reader.ring=pending →
    conn.session=session → back.length≤ringFreeSpaceContig conn.reader.ring → Moves env conn back

/-- Whenever the reads leave the receive loop reading with bytes pending, some
continuation moves them. -/
def Unwedged (env : NetEnv) (session : Session) (reads : List (List UInt8)) : Prop :=
  ∀ conn, Ready conn session reads.flatten → ReadsFit env conn reads →
    (netReceiveLoop env conn (reads.map .data)).1=.reading →
    content (netReceiveLoop env conn (reads.map .data)).2.reader.ring≠[] →
      Curable env (netReceiveLoop env conn (reads.map .data)).2.session
        (content (netReceiveLoop env conn (reads.map .data)).2.reader.ring)

/-- The command loop moves bytes that do not wait. -/
theorem netCommandLoop_moves (env : NetEnv) {conn : Conn} (hr : RingInv conn.reader.ring)
    {fuel : ℕ} (hfuel : ringAvailable conn.reader.ring≤fuel) {a : UInt8} {tail : List UInt8}
    (hcont : content conn.reader.ring=a::tail) (ha : netIsWhitespace a=false)
    (hscan : scan env.build (a::tail)≠.wait) :
    (netCommandLoop env fuel conn).ending=.misbehaving ∨
      ringAvailable (netCommandLoop env fuel conn).conn.reader.ring<
        ringAvailable conn.reader.ring := by
  have hpos : 0<ringAvailable conn.reader.ring := by
    rw [←content_length,hcont,List.length_cons]
    omega
  obtain ⟨fuel,rfl⟩ : ∃ k, fuel=k+1 := ⟨fuel-1,by omega⟩
  rw [netCommandLoop,(anyAvailable_iff hr).mpr hpos,if_pos rfl]
  rw [←hcont] at hscan
  cases hs : scan env.build (content conn.reader.ring) with
  | wait => exact absurd hs hscan
  | reject =>
    rw [netIteration_reject env hr hs]
    exact Or.inl rfl
  | item c n =>
    obtain ⟨_,m,hm,hnm,hit,_⟩ := netIteration_item env hr hs
    rw [hcont] at hs
    have hn := scan_progress ha hs
    have ham : ringAvailable (after conn m (exec env conn.session c).2).reader.ring=
        ringAvailable conn.reader.ring-m := available_skip hr hm
    have hrm : RingInv (after conn m (exec env conn.session c).2).reader.ring := skip_inv hr hm
    rw [hit]
    dsimp only
    split
    · obtain ⟨_,_,_,k,hk⟩ := netCommandLoop_consumes env hrm (by omega : _≤fuel)
      refine Or.inr ?_
      dsimp only
      rw [hk.ring,available_skip hrm hk.bound]
      omega
    · refine Or.inr ?_
      dsimp only
      omega

/-- Bytes that are not stuck can be moved. -/
theorem curable_of_not_stuck {env : NetEnv} {session : Session} {pending : List UInt8}
    (hne : pending≠[]) (hwait : scan env.build pending=.wait) (h : ¬Stuck env.build pending) :
    Curable env session pending := by
  obtain ⟨back,hback⟩ := exists_scan h hwait
  refine ⟨back,fun conn hr hcont _ hfit => ?_⟩
  obtain ⟨conn',hconn,hrec⟩ := netAcknowledge_received env hr hfit
  cases pending with
  | nil => exact absurd rfl hne
  | cons a tail =>
    have ha : netIsWhitespace a=false := by
      cases hw : netIsWhitespace a with
      | false => rfl
      | true =>
        rw [scan_whitespace env.build hw] at hwait
        cases hwait
    have hc := hrec.appends.content
    rw [hcont,List.cons_append] at hc
    have hav : ringAvailable conn'.reader.ring=ringAvailable conn.reader.ring+back.length := by
      rw [←content_length,hrec.appends.content,List.length_append,content_length]
    unfold Moves netReceive
    rw [hconn,←hav]
    exact netCommandLoop_moves env hrec.appends.inv (le_refl _) hc ha hback

/-- Stuck bytes cannot be moved. -/
theorem not_curable_of_stuck {env : NetEnv} {session : Session} {pending : List UInt8}
    (h : Stuck env.build pending) : ¬Curable env session pending := by
  rintro ⟨back,hback⟩
  obtain ⟨hr,hcont,hroom⟩ := holdingConn_spec pending back.length session
  have hwait := scan_of_stuck h back
  have hmoves := hback _ hr hcont rfl hroom
  obtain ⟨conn',hrec,hdr⟩ := netReceive_drains env hr hroom
  have hne : pending++back≠[] := by
    intro hnil
    rw [List.append_eq_nil_iff] at hnil
    rcases h with ⟨hpx,_⟩ | ⟨_,hoff,_⟩
    · rw [hnil.1] at hpx
      exact absurd hpx (by decide)
    · rw [hnil.1] at hoff
      exact absurd hoff (by decide)
  have hres : drainAll env (holdingConn pending back.length session).session
      (content (holdingConn pending back.length session).reader.ring++back)=
        .waiting (holdingConn pending back.length session).session (pending++back) := by
    rw [hcont]
    exact Grammar.drainAll_wait hne hwait
  have hav : ringAvailable conn'.reader.ring=
      ringAvailable (holdingConn pending back.length session).reader.ring+back.length := by
    rw [←content_length,hrec.appends.content,List.length_append,content_length]
  rw [hres] at hdr
  obtain ⟨k,hk,hpend,hend,hconn,_⟩ := hdr
  have hk0 : k=0 := by
    have hlen := congrArg List.length hpend
    rw [List.length_drop,hrec.appends.content,hcont,List.length_append] at hlen
    have hfull : ringAvailable conn'.reader.ring=pending.length+back.length := by
      rw [hav,←content_length,hcont]
    omega
  rcases hmoves with hmis | hlt
  · rw [hend] at hmis
    cases hmis
  · rw [hconn,hk0] at hlt
    have he : ringAvailable (after conn' 0
        (holdingConn pending back.length session).session).reader.ring=ringAvailable conn'.reader.ring :=
      available_skip hrec.appends.inv (by omega)
    omega

/-- Reads that leave a stuck command pending wedge the connection. -/
theorem not_unwedged_of_stuck {env : NetEnv} {session session' : Session}
    {reads : List (List UInt8)} {pending : List UInt8} (hne : ∀ bytes∈reads,bytes≠[])
    (hres : reads.foldl ((grammar env.build).feed (consumer env)) (.waiting session [])=
      .waiting session' pending) (hstuck : Stuck env.build pending) :
    ¬Unwedged env session reads := by
  intro hfree
  have hsize : reads.flatten.length<reads.flatten.length+1 := by omega
  have hready := ready_newRing session hsize
  have hfit := readsFit_newRing env session rfl hsize hne
  have hfeed := netReceiveLoop_feeds env hready.inv hfit
  rw [hready.empty,hready.session,hres] at hfeed
  obtain ⟨hend,hsess,_,hcont,_⟩ := hfeed
  have hpend : pending≠[] := by
    rintro rfl
    rcases hstuck with ⟨hpx,_⟩ | ⟨_,hoff,_⟩
    · exact absurd hpx (by decide)
    · exact absurd hoff (by decide)
  have hcur := hfree _ hready hfit hend (by rw [hcont]; exact hpend)
  rw [hsess,hcont] at hcur
  exact not_curable_of_stuck hstuck hcur

/-- The bytes that the reads leave pending can be moved by more input exactly
if they are not a command with a broken argument. -/
theorem unwedged_iff (env : NetEnv) (session : Session) {reads : List (List UInt8)}
    (hne : ∀ bytes∈reads,bytes≠[]) :
    Unwedged env session reads ↔ ∀ session' pending,
      reads.foldl ((grammar env.build).feed (consumer env)) (.waiting session [])=
        .waiting session' pending → ¬Stuck env.build pending := by
  constructor
  · intro hfree session' pending hres hstuck
    exact not_unwedged_of_stuck hne hres hstuck hfree
  · intro hfree conn hready hfit hend hpend
    have hfeed := netReceiveLoop_feeds env hready.inv hfit
    rw [hready.empty,hready.session] at hfeed
    cases hres : reads.foldl ((grammar env.build).feed (consumer env)) (.waiting session []) with
    | waiting session' pending =>
      have hwait := Grammar.scan_of_feeding (Or.inl rfl) hres
      rw [hres] at hfeed
      obtain ⟨_,hsess,_,hcont,_⟩ := hfeed
      rw [hcont] at hpend
      rw [hsess,hcont]
      exact curable_of_not_stuck hpend (hwait.resolve_left hpend) (hfree session' pending hres)
    | closed why session' =>
      rw [hres] at hfeed
      exact absurd hend hfeed.2.2.1.ne_reading
    | exhausted =>
      rw [hres] at hfeed
      exact hfeed.elim

/-- `PX`, then ` 1`: pending, but not stuck. -/
theorem unwedged_open_argument :
    Unwedged (plainEnv 4 4) (freshSession (blankFb 4 4)) [[0x50,0x58],[0x20,0x31]] := by
  refine (unwedged_iff (plainEnv 4 4) (freshSession (blankFb 4 4)) (by decide)).mpr ?_
  intro session' pending hres hstuck
  cases hres
  rcases hstuck with ⟨_,((⟨_,hb⟩ | ⟨_,hb⟩) | ⟨out,hout,_⟩) | ⟨out,hout,_⟩⟩ | ⟨_,hoff,_⟩
  · exact absurd hb (by decide)
  · exact absurd hb (by decide)
  · cases hout
  · cases hout
  · exact absurd hoff (by decide)

/-- `PXx` waits for ever. -/
theorem wedged_verb :
    ¬Unwedged (plainEnv 4 4) (freshSession (blankFb 4 4)) [[0x50,0x58,0x78]] :=
  not_unwedged_of_stuck (by decide) rfl
    (Or.inl ⟨by decide,Or.inl (Or.inl (Or.inl ⟨by decide,by decide⟩))⟩)

end Shoreline.Progress
