import Shoreline.CommandHistory

/-!
# Independence of the segmentation

Two ways of cutting a stream into reads give the same effects unless the
stream has, where a command starts, a pixel command whose arguments are
followed by whitespace with a line end inside it. There a read that stops at
the line end makes the command a get, and one that does not makes it a set.
-/

namespace Shoreline.Segmentation

open IncrementalReader RingBuffer RingContent NetToken NetConnection TokenScan CommandScan
open CommandGrammar CommandLoop CommandHistory Framebuffer

/-- What a client and an observer of the picture see of a connection: how its
receive loop ended, and everything that happened on it in order. -/
def observed (out : LoopEnd×Conn) : LoopEnd×List Event := (out.1,out.2.session.events)

/-- Any two ways of cutting the stream into fitting reads, on any two rings
that have room for it, are observed alike. -/
def SegmentationFree (env : NetEnv) (session : Session) (stream : List UInt8) : Prop :=
  ∀ conn conn', Ready conn session stream → Ready conn' session stream →
    ∀ reads reads' : List (List UInt8), reads.flatten=stream → reads'.flatten=stream →
      ReadsFit env conn reads → ReadsFit env conn' reads' →
        observed (netReceiveLoop env conn (reads.map .data))=
          observed (netReceiveLoop env conn' (reads'.map .data))

/-- A command starts at this position of a stream that is read as a whole. -/
def StartsAt (env : NetEnv) (session : Session) (stream position : List UInt8) : Prop :=
  ∃ session', Grammar.Reaches (grammar env.build) (consumer env) session stream session' position

/-- What a receive loop shows is determined by the drain that it feeds. -/
theorem observed_of_feeds {conn conn' : Conn} {out out' : LoopEnd×Conn}
    {res : Result UInt8 Session CommandEnd} (h : Feeds conn out res) (h' : Feeds conn' out' res) :
    observed out=observed out' := by
  cases res with
  | waiting session pending =>
    rw [observed,observed,h.1,h'.1,h.2.1,h'.2.1]
  | closed why session =>
    rw [observed,observed,h.1,h'.1,h.2.1,h'.2.1]
  | exhausted => exact h.elim

/-- A stream without mixed whitespace is drained as if it arrived at once. -/
theorem reads_drain {env : NetEnv} {session : Session} {stream : List UInt8} {conn : Conn}
    (hready : Ready conn session stream)
    (htidy : ∀ position, StartsAt env session stream position → ¬MixedRun position)
    {reads : List (List UInt8)} (hcut : reads.flatten=stream) (hfit : ReadsFit env conn reads) :
    Feeds conn (netReceiveLoop env conn (reads.map .data)) (drainAll env session stream) := by
  have hfeed := netReceiveLoop_feeds env hready.inv hfit
  have htidy' : Grammar.Tidy (grammar env.build) (consumer env) session reads.flatten := by
    intro t y hty
    rw [hcut] at hty
    exact settled_of_not_mixedRun (htidy y ⟨t,hty⟩)
  have hall := Grammar.foldl_feed Grammar.tidy_guards htidy'
  rw [hready.empty,hready.session,hall,hcut] at hfeed
  exact hfeed

/-- Bytes with a newline in the whitespace in front can be cut behind it. -/
theorem cut_behind_newline {tail : List UInt8}
    (h : (tail.takeWhile netIsWhitespace).any netIsNewline=true) :
    ∃ run back, tail=run++back ∧ (∀ a∈run,netIsWhitespace a=true) ∧ endsLine run=true := by
  obtain ⟨nl,hmem,hnl⟩ := List.any_eq_true.mp h
  obtain ⟨r1,r2,hrun⟩ := List.append_of_mem hmem
  refine ⟨r1++[nl],r2++tail.dropWhile netIsWhitespace,?_,fun a ha => ?_,?_⟩
  · calc
      tail=tail.takeWhile netIsWhitespace++tail.dropWhile netIsWhitespace :=
        List.takeWhile_append_dropWhile.symm
      _=(r1++[nl])++(r2++tail.dropWhile netIsWhitespace) := by
        rw [hrun]
        simp only [List.append_assoc,List.cons_append,List.nil_append]
  · have hin : a∈tail.takeWhile netIsWhitespace := by
      rw [hrun]
      simp only [List.mem_append,List.mem_cons,List.not_mem_nil,or_false] at ha ⊢
      tauto
    exact List.mem_takeWhile_imp hin
  · rw [endsLine,List.getLast?_concat]
    exact hnl

/-- The two readings of a pixel command with mixed whitespace: the bytes up to
its first line end are a get, all bytes are a set or not yet a command. -/
theorem mixedRun_readings (build : Build) {bytes : List UInt8} (h : MixedRun bytes) :
    ∃ front back x y used, bytes=front++back ∧ back≠[] ∧ (∃ a∈front,netIsWhitespace a=false) ∧
      scan build front=.item (.get x y) used ∧
      (scan build bytes=.wait ∨ ∃ digits n, scan build bytes=.item (.set x y digits) n) := by
  obtain ⟨hpx,⟨x,y,used⟩,hargs,hany,hline⟩ := h
  dsimp only at hany hline
  obtain ⟨run,back,hcut,hws,hends⟩ := cut_behind_newline hany
  have hwhole : run.takeWhile netIsWhitespace=run := List.takeWhile_eq_self_iff.mpr hws
  have hrun : 0<run.length := by
    refine List.length_pos_iff.mpr ?_
    rintro rfl
    cases hends
  have hback : back≠[] := by
    rintro rfl
    rw [hcut,List.append_nil,hwhole,hends] at hline
    cases hline
  have hb := (arguments_bounds hargs).2.1
  rw [List.length_drop] at hb
  have hlen : (bytes.take (2+used)).length=2+used := by rw [List.length_take]; omega
  have hsplit : bytes=(bytes.take (2+used)++run)++back := by
    rw [List.append_assoc,←hcut,List.take_append_drop]
  have hdrop : (bytes.take (2+used)++run).drop (2+used)=run := List.drop_left' hlen
  have hflen : (bytes.take (2+used)++run).length=2+used+run.length := by
    rw [List.length_append,hlen]
  generalize bytes.take (2+used)++run=front at hsplit hdrop hflen
  have hpxf : verbPx<+:front := by
    rw [hsplit] at hpx
    exact verb_of_append hpx (show 2≤front.length by omega)
  have hargsf : arguments (front.drop 2)=some (x,y,used) := by
    rw [hsplit,List.drop_append_of_le_length (by omega)] at hargs
    exact arguments_of_append hargs (by rw [List.length_drop]; omega)
  refine ⟨front,back,x,y,2+used,hsplit,hback,⟨0x50,hpxf.subset (by decide),rfl⟩,?_,?_⟩
  · rw [scan_px hpxf,scanPx,hargsf]
    dsimp only
    rw [List.drop_drop,hdrop,scanPxAt,take_blanks,hwhole,if_pos hends]
  · rw [scan_px hpx,scanPx,hargs]
    dsimp only
    rw [List.drop_drop,scanPxAt,take_blanks,hline,if_neg Bool.false_ne_true]
    cases token ((bytes.drop (2+used)).drop (blanks (bytes.drop (2+used)))) with
    | missing => exact Or.inl rfl
    | garbage => exact Or.inl rfl
    | closed len => exact Or.inr ⟨_,_,rfl⟩

/-- Different records at the same place of a history exclude each other. -/
theorem events_clash {before events : List Event} {e e' : Event} (h : before++[e]<+:events)
    (h' : before++[e']<+:events) : e=e' := by
  have hlen : (before++[e]).length=(before++[e']).length := by
    rw [List.length_append,List.length_append,List.length_singleton,List.length_singleton]
  have he := (List.prefix_of_prefix_length_le h h' hlen.le).eq_of_length hlen
  exact List.singleton_inj.mp (List.append_cancel_left he)

/-- Read in two parts, a stream whose segmentation is invisible has the effects
that it has when it is read at once. -/
theorem SegmentationFree.two_reads {env : NetEnv} {session : Session} {front back : List UInt8}
    (hfree : SegmentationFree env session (front++back)) (hfront : front≠[]) (hback : back≠[]) :
    ∃ one two, (drainAll env session (front++back)).state?=some one ∧
      ([back].foldl ((grammar env.build).feed (consumer env))
        (drainAll env session front)).state?=some two ∧
      one.events=two.events := by
  have hready := ready_newRing session (Nat.lt_succ_self (front++back).length)
  have hcut1 : [front++back].flatten=front++back := List.flatten_singleton
  have hcut2 : [front,back].flatten=front++back := by
    simp only [List.flatten_cons,List.flatten_nil,List.append_nil]
  have hfit1 := readsFit_newRing env session hcut1 (Nat.lt_succ_self _) (by
    simp only [List.forall_mem_singleton]
    exact List.append_ne_nil_of_left_ne_nil hfront back)
  have hfit2 := readsFit_newRing env session hcut2 (Nat.lt_succ_self _) (by
    simp only [List.forall_mem_cons]
    exact ⟨hfront,hback,fun _ h => absurd h List.not_mem_nil⟩)
  have hobs := hfree _ _ hready hready [front++back] [front,back] hcut1 hcut2 hfit1 hfit2
  have hone := state_of_feeds (netReceiveLoop_feeds env hready.inv hfit1)
  have htwo := state_of_feeds (netReceiveLoop_feeds env hready.inv hfit2)
  rw [hready.empty,hready.session,List.foldl_cons,List.foldl_nil,Grammar.feed,List.nil_append] at hone
  rw [hready.empty,hready.session,List.foldl_cons,Grammar.feed,List.nil_append] at htwo
  exact ⟨_,_,hone,htwo,congrArg Prod.snd hobs⟩

/-- Mixed whitespace at the start of a command makes the segmentation visible. -/
theorem not_segmentationFree {env : NetEnv} {session : Session} {stream position : List UInt8}
    (hstart : StartsAt env session stream position) (hmixed : MixedRun position) :
    ¬SegmentationFree env session stream := by
  intro hfree
  obtain ⟨t,hreach⟩ := hstart
  obtain ⟨front,back,x,y,used,hsplit,hback,⟨a,ha,hws⟩,hget,hwhole⟩ :=
    mixedRun_readings env.build hmixed
  obtain ⟨u,hu,hcut⟩ := Grammar.drainAll_truncate hreach hsplit ha hws
  have hfront : front≠[] := List.ne_nil_of_mem ha
  have hpos : position≠[] := by
    rw [hsplit]
    exact List.append_ne_nil_of_left_ne_nil hfront back
  have hstream : stream=(u++front)++back := by rw [hu,hsplit,List.append_assoc]
  rw [hstream] at hfree
  obtain ⟨one,two,hone,htwo,hevents⟩ :=
    hfree.two_reads (List.append_ne_nil_of_right_ne_nil u hfront) hback
  rw [←hstream,drainAll,Grammar.drainAll_of_reaches hreach] at hone
  rw [drainAll,hcut] at htwo
  -- cut behind the line end, the command is a get
  obtain ⟨mid,hmid⟩ := Grammar.drainAll_state (grammar env.build) (consumer env) t front
  have hgot := drainAll_item_events env hfront hget hmid
  have htail := feed_events env hmid htwo
  have hget2 := ((netGetPixel_events env _ _ t).trans hgot).trans htail
  rw [←hevents] at hget2
  -- read at once, it is a set or still incomplete
  rcases hwhole with hwait | ⟨digits,n,hset⟩
  · rw [Grammar.drainAll_wait hpos hwait] at hone
    cases hone
    have hlen := hget2.length_le
    rw [List.length_append,List.length_singleton] at hlen
    omega
  · have hset2 := (netDraw_events env _ _ _ t).trans (drainAll_item_events env hpos hset hone)
    cases events_clash hget2 hset2

/-- The segmentation of a stream is invisible exactly if no command of it is a
pixel command whose arguments are followed by whitespace with a line end
inside it. -/
theorem segmentationFree_iff (env : NetEnv) (session : Session) (stream : List UInt8) :
    SegmentationFree env session stream ↔
      ∀ position, StartsAt env session stream position → ¬MixedRun position := by
  constructor
  · intro hfree position hstart hmixed
    exact not_segmentationFree hstart hmixed hfree
  · intro htidy conn conn' hready hready' reads reads' hcut hcut' hfit hfit'
    exact observed_of_feeds (reads_drain hready htidy hcut hfit)
      (reads_drain hready' htidy hcut' hfit')

/-- `PX 0 0`, a line end, a space, `ff0000` and a line end. -/
def mixedStream : List UInt8 :=
  verbPx++[0x20,0x30,0x20,0x30,0x0a,0x20]++[0x66,0x66,0x30,0x30,0x30,0x30,0x0a]

/-- Read at once, the stream is a set; cut behind the first line end, it is a
get and an unknown command. -/
theorem segmentation_visible :
    ¬SegmentationFree (plainEnv 4 4) (freshSession (blankFb 4 4)) mixedStream :=
  not_segmentationFree ⟨_,.here _ _⟩ ⟨by decide,(0,0,4),by decide,by decide,by decide⟩

end Shoreline.Segmentation
