import Shoreline.CommandLoop

/-!
# The history of a connection

Commands only append to the history of a session: first the decision between
a get and a set, then what it does. Draining and feeding therefore keep the
history so far as a prefix.
-/

namespace Shoreline.CommandHistory

open IncrementalReader NetConnection CommandScan CommandGrammar CommandLoop Framebuffer

/-- The history of a session only grows. -/
theorem netReply_events (env : NetEnv) (session : Session) (text : List UInt8) :
    session.events<+:(netReply env session text).2.events := List.prefix_append _ _

/-- A get is recorded before anything else it does. -/
theorem netGetPixel_events (env : NetEnv) (x y : UInt32) (session : Session) :
    session.events++[.gotGet x y]<+:(netGetPixel env x y session).2.events := by
  unfold netGetPixel
  dsimp only
  split
  · split
    · exact List.prefix_refl _
    · split
      · exact List.prefix_append _ _
      · exact List.prefix_append _ _
  · exact List.prefix_refl _

/-- A set is recorded before anything else it does. -/
theorem netDraw_events (env : NetEnv) (x y : UInt32) (pixel : FbPixel) (session : Session) :
    session.events++[.gotSet x y pixel]<+:(netDraw env x y pixel session).2.events := by
  unfold netDraw
  dsimp only
  split
  · split
    · exact List.prefix_refl _
    · split
      · exact List.prefix_refl _
      · exact List.prefix_append _ _
  · exact List.prefix_refl _

/-- No command takes anything out of the history. -/
theorem exec_events (env : NetEnv) (session : Session) (c : Command) :
    session.events<+:(exec env session c).2.events := by
  cases c with
  | unknown => exact List.prefix_refl _
  | get x y => exact (List.prefix_append _ _).trans (netGetPixel_events env _ _ session)
  | set x y digits => exact (List.prefix_append _ _).trans (netDraw_events env _ _ _ session)
  | size =>
    dsimp only [exec]
    split
    · exact netReply_events _ _ _
    · exact netReply_events _ _ _
  | offset x y => exact List.prefix_append _ _

/-- The history of the second session continues that of the first. -/
def Continues (s t : Session) : Prop := s.events<+:t.events

/-- Draining keeps the history as a prefix. -/
theorem drainAll_events (env : NetEnv) {session session' : Session} {bytes : List UInt8}
    (h : (drainAll env session bytes).state?=some session') : session.events<+:session'.events :=
  @Grammar.drainAll_related _ _ _ _ (grammar env.build) (consumer env)
    Continues (fun _ => List.prefix_refl _) (fun _ _ _ hst htu => hst.trans htu)
    (fun s c => exec_events env s c) _ _ _ h

/-- Feeding further reads keeps the history as a prefix. -/
theorem feed_events (env : NetEnv) {res : Result UInt8 Session CommandEnd}
    {session session' : Session} {reads : List (List UInt8)} (hs : res.state?=some session)
    (h : (reads.foldl ((grammar env.build).feed (consumer env)) res).state?=some session') :
    session.events<+:session'.events :=
  @Grammar.foldl_feed_related _ _ _ _ (grammar env.build) (consumer env) Continues
    (fun _ => List.prefix_refl _) (fun _ _ _ hst htu => hst.trans htu)
    (fun s c => exec_events env s c) _ _ _ hs _ h

/-- A command in front of a drain: its effects are there, and stay there. -/
theorem drainAll_item_events (env : NetEnv) {session session' : Session} {bytes : List UInt8}
    {c : Command} {n : ℕ} (hne : bytes≠[]) (hscan : scan env.build bytes=.item c n)
    (h : (drainAll env session bytes).state?=some session') :
    (exec env session c).2.events<+:session'.events := by
  rw [drainAll,Grammar.drainAll_item hne hscan] at h
  dsimp only [consumer] at h
  by_cases hd : (exec env session c).1=.done
  · rw [if_pos hd] at h
    exact drainAll_events env h
  · rw [if_neg hd] at h
    cases h
    exact List.prefix_refl _

end Shoreline.CommandHistory
