import Shoreline.Library.StateMachine
import Shoreline.Library.Versions
import Shoreline.TextOverlay

/-!
# The flicker-free mode of the VNC frontend

The main loop copies its framebuffer pixel by pixel to the one of the frontend, and
every client is served by a thread that draws the texts on the copy first. With the
option a lock is held over the copy, and from the drawing to the end of the display.
Then every display shows the texts on one whole picture of the main loop, the last
one or a later one. Strings that the main loop has the frontend draw with a font of
its own are not covered by the lock; it does that only where it has no renderer.
-/

namespace Shoreline.FlickerFree

open Framebuffer Addressing StateMachine TextOverlay Overwriting Versions

/-- A statistics line, where there is one. -/
abbrev StatLine : Type := Option (List UInt8)

/-- What the threads do not change. -/
structure VncSetup where
  host : Host
  txtrndr : Option FTFace
  description : List UInt8
  /-- `vnc->font`, as what `rfbFillRect` and `rfbDrawString` write for a text at a
  place, one pixel after the other. -/
  font : Option (UInt32 → UInt32 → List UInt8 → List (ℕ×FbPixel))
  /-- `sync_overlay_draw`. -/
  syncOverlayDraw : Bool

/-- `draw_overlays`, with what `stat_line` is formatted to. -/
def VncSetup.draw (setup : VncSetup) (fb : Fb) (line : StatLine) : Fb :=
  drawOverlays setup.host ⟨setup.txtrndr,setup.description,line⟩ fb

/-- Who may hold `draw_lock`. -/
inductive Holder where
  | mainLoop
  | client (c : ℕ)
  deriving DecidableEq

/-- Where the main loop is. -/
inductive UpdatePc where
  /-- Elsewhere. -/
  | looping
  /-- In `vnc_draw_string`, with these pixels left to be written. -/
  | writing (todo : List (ℕ×FbPixel))
  /-- In `fb_copy` of `vnc_update`, with so many pixels copied. -/
  | copying (i : ℕ)

/-- Where the thread of a client is. -/
inductive ClientPc where
  /-- It sends nothing. -/
  | idle
  /-- In `pre_display_cb`, before `draw_overlays`. -/
  | drawing
  /-- Between the hooks: the line that was drawn, and the pixels that were read. -/
  | sending (line : StatLine) (shown : List (ℕ×FbPixel))

/-- What a client was sent in one display. -/
structure Display where
  /-- The line that was drawn for it. -/
  line : StatLine
  /-- The pixels that were read for it. -/
  shown : List (ℕ×FbPixel)

/-- The VNC frontend. -/
structure Vnc where
  /-- `vnc->fb`. -/
  fb : Fb
  /-- `vnc->fb_overlay`. -/
  fbOverlay : Fb
  /-- `vnc->draw_lock`. -/
  drawLock : Option Holder
  mainPc : UpdatePc
  clientPc : ℕ → ClientPc
  /-- History: what was displayed, the last one last. -/
  displays : List Display

/-- One step. -/
inductive VncEvent where
  /-- The main loop draws whatever it draws. -/
  | paint (pixels : ℕ → FbPixel)
  /-- `vnc_draw_string`, which is called where there is no renderer, with a pixel
  written at a time. -/
  | drawString (x y : UInt32) (str : List UInt8)
  | writeString
  | stringDrawn
  /-- `vnc_update`, with a pixel copied at a time. -/
  | update
  | copy
  | updated
  /-- `pre_display_cb` up to the lock, and its drawing. -/
  | preDisplay (c : ℕ)
  | overlay (c : ℕ) (line : StatLine)
  /-- The server reads a pixel. -/
  | send (c k : ℕ)
  /-- `post_display_cb`. -/
  | postDisplay (c : ℕ)

/-- One step; `none` where the event does not happen, and where `fb_copy` fails its
assertion. -/
def vncStep (setup : VncSetup) : Step VncEvent Unit Vnc
  | s,.paint pixels =>
    match s.mainPc with
    | .looping => some ((),{s with fb := {s.fb with pixels := pixels}})
    | _ => none
  | s,.drawString x y str =>
    match s.mainPc,setup.txtrndr with
    | .looping,none =>
      match setup.font with
      | none => some ((),s)
      | some font => some ((),{s with mainPc := .writing (font x y str)})
    | _,_ => none
  | s,.writeString =>
    match s.mainPc with
    | .writing ((k,pixel)::todo) =>
      -- `draw_lock` is not taken
      some ((),{s with
        fbOverlay := {s.fbOverlay with pixels := Function.update s.fbOverlay.pixels k pixel}
        mainPc := .writing todo})
    | _ => none
  | s,.stringDrawn =>
    match s.mainPc with
    | .writing [] => some ((),{s with mainPc := .looping})
    | _ => none
  | s,.update =>
    match s.mainPc with
    | .looping =>
      if (setup.syncOverlayDraw=true → s.drawLock=none) ∧ s.fbOverlay.size=s.fb.size then
        some ((),{s with
          drawLock := if setup.syncOverlayDraw then some .mainLoop else s.drawLock
          mainPc := .copying 0})
      else none
    | _ => none
  | s,.copy =>
    match s.mainPc with
    | .copying i =>
      if i < s.fbOverlay.size.product then
        some ((),{s with
          fbOverlay := {s.fbOverlay with
            pixels := Function.update s.fbOverlay.pixels i (s.fb.pixels i)}
          mainPc := .copying (i+1)})
      else none
    | _ => none
  | s,.updated =>
    match s.mainPc with
    | .copying i =>
      if i < s.fbOverlay.size.product then none
      else some ((),{s with
        drawLock := if setup.syncOverlayDraw then none else s.drawLock
        mainPc := .looping})
    | _ => none
  | s,.preDisplay c =>
    match s.clientPc c with
    | .idle =>
      if setup.syncOverlayDraw then
        if s.drawLock=none then
          some ((),{s with
            drawLock := some (.client c)
            clientPc := Function.update s.clientPc c .drawing})
        else none
      else some ((),{s with clientPc := Function.update s.clientPc c (.sending none [])})
    | _ => none
  | s,.overlay c line =>
    match s.clientPc c with
    | .drawing =>
      some ((),{s with
        fbOverlay := setup.draw s.fbOverlay line
        clientPc := Function.update s.clientPc c (.sending line [])})
    | _ => none
  | s,.send c k =>
    match s.clientPc c with
    | .sending line shown =>
      if k < s.fbOverlay.size.product then
        some ((),{s with
          clientPc := Function.update s.clientPc c
            (.sending line (shown++[(k,s.fbOverlay.pixels k)]))})
      else none
    | _ => none
  | s,.postDisplay c =>
    match s.clientPc c with
    | .sending line shown =>
      some ((),{s with
        drawLock := if setup.syncOverlayDraw then none else s.drawLock
        clientPc := Function.update s.clientPc c .idle
        displays := s.displays++[⟨line,shown⟩]})
    | _ => none

/-- Behind the allocation of the frontend. -/
def allocated (fb fbOverlay : Fb) : Vnc := ⟨fb,fbOverlay,none,.looping,fun _ => .idle,[]⟩

/-- The pictures that `vnc_update` copies. -/
def pictures (s : Vnc) : VncEvent → List (ℕ → FbPixel)
  | .update => [s.fb.pixels]
  | _ => []

variable {setup : VncSetup} {s s' : Vnc} {overlay : Fb} {past : List (ℕ → FbPixel)}
  {since : Moment}

/-- The pixels behind `draw_overlays`, on the framebuffer of the frontend. -/
def drawn (setup : VncSetup) (overlay : Fb) (pixels : ℕ → FbPixel) (line : StatLine) : ℕ → FbPixel :=
  (setup.draw {overlay with pixels := pixels} line).pixels

/-- Nothing else of the framebuffer changes. -/
theorem draw_eq (setup : VncSetup) (overlay : Fb) (pixels : ℕ → FbPixel) (line : StatLine) :
    setup.draw {overlay with pixels := pixels} line=
      {overlay with pixels := drawn setup overlay pixels line} := by
  obtain ⟨f,_,hdrawn⟩ := stamps_drawOverlays setup.host ⟨setup.txtrndr,setup.description,line⟩
    overlay.size
  rw [drawn,VncSetup.draw,hdrawn {overlay with pixels := pixels} rfl]

/-- Fixed places are overwritten. -/
theorem overwrites_drawn (setup : VncSetup) (overlay : Fb) (line : StatLine) :
    Overwrites fun pixels => drawn setup overlay pixels line := by
  obtain ⟨f,hf,hdrawn⟩ := stamps_drawOverlays setup.host ⟨setup.txtrndr,setup.description,line⟩
    overlay.size
  have heq : (fun pixels => drawn setup overlay pixels line)=f := by
    funext pixels
    rw [drawn,VncSetup.draw,hdrawn {overlay with pixels := pixels} rfl]
  rwa [heq]

/-- Lines drawn one after the other. -/
def drawnLines (setup : VncSetup) (overlay : Fb) (picture : ℕ → FbPixel) (lines : List StatLine) :
    ℕ → FbPixel := lines.foldl (drawn setup overlay) picture

/-- The same line drawn again and again is the line drawn once. -/
theorem drawnLines_same (setup : VncSetup) (overlay : Fb) (picture : ℕ → FbPixel)
    {lines : List StatLine} {line : StatLine} (h : ∀ l∈lines,l=line) :
    drawnLines setup overlay picture (lines++[line])=drawn setup overlay picture line := by
  rw [drawnLines,List.foldl_append]
  have hlines : lines.foldl (drawn setup overlay) picture=picture ∨
      lines.foldl (drawn setup overlay) picture=drawn setup overlay picture line := by
    induction lines generalizing picture with
    | nil => exact Or.inl rfl
    | cons l lines ih =>
      obtain ⟨hl,hrest⟩ := List.forall_mem_cons.mp h
      rw [List.foldl_cons,hl]
      right
      rcases ih (drawn setup overlay picture line) hrest with heq | heq
      · exact heq
      · exact heq.trans ((overwrites_drawn setup overlay line).again picture)
  rcases hlines with heq | heq
  · rw [heq]
    rfl
  · rw [heq]
    exact (overwrites_drawn setup overlay line).again picture

/-- The pixels of a display are those of the picture with this number, with the line
of the display drawn behind some other ones. -/
def ShownFrom (setup : VncSetup) (overlay : Fb) (past : List (ℕ → FbPixel)) (display : Display)
    (j : ℕ) : Prop :=
  ∃ picture lines, past[j]?=some picture ∧ ∀ p∈display.shown,p.1 < overlay.size.product ∧
    p.2=drawnLines setup overlay picture (lines++[display.line]) p.1

/-- The framebuffer of the frontend has the last picture, with these lines drawn. -/
def Holds (setup : VncSetup) (overlay : Fb) (past : List (ℕ → FbPixel)) (s : Vnc)
    (lines : List StatLine) : Prop :=
  ∃ picture, past.getLast?=some picture ∧ ∀ k < overlay.size.product,
    s.fbOverlay.pixels k=drawnLines setup overlay picture lines k

/-- The state of the frontend between two steps. -/
structure VncInv (setup : VncSetup) (overlay : Fb) (since : Moment) (s : Vnc)
    (past : List (ℕ → FbPixel)) : Prop where
  frame : s.fbOverlay={overlay with pixels := s.fbOverlay.pixels}
  /-- The frontend draws no strings of its own. -/
  silent : ∀ todo, s.mainPc≠.writing todo
  mainLock : s.drawLock=some .mainLoop ↔ ∃ i, s.mainPc=.copying i
  clientLock : ∀ c, s.drawLock=some (.client c) ↔ s.clientPc c≠.idle
  /-- While the main loop copies, the first pixels are up to date. -/
  copying : ∀ i, s.mainPc=.copying i → past.getLast?=some s.fb.pixels ∧
    ∀ k < i,s.fbOverlay.pixels k=s.fb.pixels k
  /-- Otherwise there is a whole picture. -/
  copied : s.drawLock≠some .mainLoop → ∃ lines, Holds setup overlay past s lines
  /-- What a client reads is there all the time, and its line was drawn last. -/
  sending : ∀ c line shown, s.clientPc c=.sending line shown →
    (∃ lines, Holds setup overlay past s (lines++[line])) ∧
      ∀ p∈shown,p.1 < overlay.size.product ∧ p.2=s.fbOverlay.pixels p.1
  updates : since.updates < past.length
  shown : ∃ seen, Fresh since seen ∧ (∀ j∈seen,j < past.length) ∧
    List.Forall₂ (ShownFrom setup overlay past) s.displays seen

/-- More pictures are copied. -/
theorem ShownFrom.append {display : Display} {j : ℕ} (h : ShownFrom setup overlay past display j)
    (more : List (ℕ → FbPixel)) : ShownFrom setup overlay (past++more) display j := by
  obtain ⟨picture,lines,hget,hshown⟩ := h
  have hlt := (List.getElem?_eq_some_iff.mp hget).choose
  exact ⟨picture,lines,by rwa [List.getElem?_append_left hlt],hshown⟩

/-- Nobody serves a client while the main loop copies. -/
theorem VncInv.idle_of_copying (h : VncInv setup overlay since s past)
    (hlock : s.drawLock=some .mainLoop) (c : ℕ) : s.clientPc c=.idle := by
  by_contra hne
  have hclient := (h.clientLock c).mpr hne
  rw [hlock] at hclient
  cases hclient

/-- The main loop draws. -/
theorem VncInv.paint (h : VncInv setup overlay since s past) (hpc : s.mainPc=.looping)
    (pixels : ℕ → FbPixel) :
    VncInv setup overlay since {s with fb := {s.fb with pixels := pixels}} past where
  frame := h.frame
  silent := h.silent
  mainLock := h.mainLock
  clientLock := h.clientLock
  copying := fun i hi => by
    rw [show s.mainPc=.copying i from hi] at hpc
    cases hpc
  copied := h.copied
  sending := h.sending
  updates := h.updates
  shown := h.shown

/-- The main loop starts to copy. -/
theorem VncInv.update (h : VncInv setup overlay since s past) (hlock : s.drawLock=none) :
    VncInv setup overlay since {s with drawLock := some .mainLoop, mainPc := .copying 0}
      (past++[s.fb.pixels]) := by
  have hidle : ∀ c, s.clientPc c=.idle := by
    intro c
    by_contra hne
    have hclient := (h.clientLock c).mpr hne
    rw [hlock] at hclient
    cases hclient
  obtain ⟨seen,hfresh,hlt,hshown⟩ := h.shown
  exact {
    frame := h.frame
    silent := nofun
    mainLock := ⟨fun _ => ⟨0,rfl⟩,fun _ => rfl⟩
    clientLock := fun c => ⟨nofun,fun hne => absurd (hidle c) hne⟩
    copying := fun i hi => by
      cases hi
      exact ⟨List.getLast?_concat,nofun⟩
    copied := fun hne => absurd rfl hne
    sending := fun c line shown hpc => by
      have hpc' := (hidle c).symm.trans hpc
      cases hpc'
    updates := by
      rw [List.length_append]
      exact h.updates.trans_le (Nat.le_add_right _ _)
    shown := by
      refine ⟨seen,hfresh,fun j hj => ?_,hshown.imp fun _ _ hfrom => hfrom.append _⟩
      rw [List.length_append]
      exact (hlt j hj).trans_le (Nat.le_add_right _ _) }

/-- It copies a pixel. -/
theorem VncInv.copy (h : VncInv setup overlay since s past) {i : ℕ} (hpc : s.mainPc=.copying i) :
    VncInv setup overlay since {s with
      fbOverlay := {s.fbOverlay with
        pixels := Function.update s.fbOverlay.pixels i (s.fb.pixels i)}
      mainPc := .copying (i+1)} past := by
  obtain ⟨hlast,hsame⟩ := h.copying i hpc
  have hlock := h.mainLock.mpr ⟨i,hpc⟩
  exact {
    frame := by
      rw [h.frame]
    silent := nofun
    mainLock := ⟨fun _ => ⟨i+1,rfl⟩,fun _ => hlock⟩
    clientLock := h.clientLock
    copying := fun i' hi' => by
      cases hi'
      refine ⟨hlast,fun k hk => ?_⟩
      dsimp only
      rw [Function.update_apply]
      split
      · rename_i heq
        rw [heq]
      · exact hsame k (by omega)
    copied := fun hne => absurd hlock hne
    sending := fun c line shown hpc' => by
      have hidle := (h.idle_of_copying hlock c).symm.trans hpc'
      cases hidle
    updates := h.updates
    shown := h.shown }

/-- The picture is copied. -/
theorem VncInv.updated (h : VncInv setup overlay since s past) {i : ℕ} (hpc : s.mainPc=.copying i)
    (hi : ¬i < s.fbOverlay.size.product) :
    VncInv setup overlay since {s with drawLock := none, mainPc := .looping} past := by
  obtain ⟨hlast,hsame⟩ := h.copying i hpc
  have hlock := h.mainLock.mpr ⟨i,hpc⟩
  have hsize : s.fbOverlay.size=overlay.size := by rw [h.frame]
  rw [hsize] at hi
  exact {
    frame := h.frame
    silent := nofun
    mainLock := ⟨nofun,nofun⟩
    clientLock := fun c => ⟨nofun,fun hne => absurd (h.idle_of_copying hlock c) hne⟩
    copying := nofun
    copied := fun _ => ⟨[],s.fb.pixels,hlast,fun k hk => hsame k (by omega)⟩
    sending := fun c line shown hpc' => by
      have hidle := (h.idle_of_copying hlock c).symm.trans hpc'
      cases hidle
    updates := h.updates
    shown := h.shown }

/-- A client takes the lock. -/
theorem VncInv.preDisplay (h : VncInv setup overlay since s past) (hlock : s.drawLock=none) (c : ℕ) :
    VncInv setup overlay since {s with
      drawLock := some (.client c)
      clientPc := Function.update s.clientPc c .drawing} past := by
  have hidle : ∀ c, s.clientPc c=.idle := by
    intro c
    by_contra hne
    have hclient := (h.clientLock c).mpr hne
    rw [hlock] at hclient
    cases hclient
  have hnot : s.drawLock≠some .mainLoop := by rw [hlock]; exact nofun
  exact {
    frame := h.frame
    silent := h.silent
    mainLock := ⟨nofun,fun hcopying => absurd (h.mainLock.mpr hcopying) hnot⟩
    clientLock := fun c' => by
      dsimp only
      rw [Function.update_apply,Option.some.injEq,Holder.client.injEq]
      split
      · rename_i heq
        exact ⟨fun _ => nofun,fun _ => heq.symm⟩
      · rename_i hne
        exact ⟨fun heq => absurd heq.symm hne,fun hne' => absurd (hidle c') hne'⟩
    copying := h.copying
    copied := fun _ => h.copied hnot
    sending := fun c' line shown hpc => by
      dsimp only at hpc
      rw [Function.update_apply] at hpc
      split at hpc
      · cases hpc
      · rw [hidle c'] at hpc
        cases hpc
    updates := h.updates
    shown := h.shown }

/-- A client that holds the lock goes on with it. -/
theorem VncInv.serve (h : VncInv setup overlay since s past) {c : ℕ} (hpc : s.clientPc c≠.idle)
    {fbOverlay : Fb} (hframe : fbOverlay={overlay with pixels := fbOverlay.pixels}) {line : StatLine}
    {shown : List (ℕ×FbPixel)}
    (hholds : ∃ lines, Holds setup overlay past {s with fbOverlay := fbOverlay} (lines++[line]))
    (hshown : ∀ p∈shown,p.1 < overlay.size.product ∧ p.2=fbOverlay.pixels p.1) :
    VncInv setup overlay since {s with
      fbOverlay := fbOverlay
      clientPc := Function.update s.clientPc c (.sending line shown)} past := by
  have hlock := (h.clientLock c).mpr hpc
  have hnot : s.drawLock≠some .mainLoop := by rw [hlock]; exact nofun
  exact {
    frame := hframe
    silent := h.silent
    mainLock := h.mainLock
    clientLock := fun c' => by
      dsimp only
      rw [Function.update_apply,h.clientLock c']
      split
      · rename_i heq
        rw [heq]
        exact ⟨fun _ => nofun,fun _ => hpc⟩
      · exact Iff.rfl
    copying := fun i hi => absurd (h.mainLock.mpr ⟨i,hi⟩) hnot
    copied := fun _ => by
      obtain ⟨lines,picture,hlast,hpixels⟩ := hholds
      exact ⟨lines++[line],picture,hlast,hpixels⟩
    sending := fun c' line' shown' hpc' => by
      dsimp only at hpc'
      rw [Function.update_apply] at hpc'
      split at hpc'
      · cases hpc'
        exact ⟨hholds,hshown⟩
      · rename_i hne
        have hother := (h.clientLock c').mpr (by rw [hpc']; exact nofun)
        rw [hlock] at hother
        cases hother
        exact absurd rfl hne
    updates := h.updates
    shown := h.shown }

/-- A client draws the texts. -/
theorem VncInv.drawTexts (h : VncInv setup overlay since s past) {c : ℕ} (hpc : s.clientPc c=.drawing)
    (line : StatLine) : VncInv setup overlay since {s with
      fbOverlay := setup.draw s.fbOverlay line
      clientPc := Function.update s.clientPc c (.sending line [])} past := by
  have hlock := (h.clientLock c).mpr (by rw [hpc]; exact nofun)
  have hdraw : setup.draw s.fbOverlay line=
      {overlay with pixels := drawn setup overlay s.fbOverlay.pixels line} := by
    rw [h.frame,draw_eq]
  obtain ⟨lines,picture,hlast,hpixels⟩ := h.copied (by rw [hlock]; exact nofun)
  refine h.serve (by rw [hpc]; exact nofun) ?_ ⟨lines,picture,hlast,fun k hk => ?_⟩ nofun
  · rw [hdraw]
  · dsimp only
    rw [hdraw,drawnLines,List.foldl_append]
    exact (overwrites_drawn setup overlay line).congr_at (hpixels k hk)

/-- A pixel is read for a client. -/
theorem VncInv.send (h : VncInv setup overlay since s past) {c k : ℕ} {line : StatLine}
    {shown : List (ℕ×FbPixel)} (hpc : s.clientPc c=.sending line shown)
    (hk : k < s.fbOverlay.size.product) :
    VncInv setup overlay since {s with
      clientPc := Function.update s.clientPc c
        (.sending line (shown++[(k,s.fbOverlay.pixels k)]))} past := by
  have hsize : s.fbOverlay.size=overlay.size := by rw [h.frame]
  rw [hsize] at hk
  obtain ⟨hholds,hshown⟩ := h.sending c line shown hpc
  refine h.serve (by rw [hpc]; exact nofun) h.frame hholds fun p hp => ?_
  rcases List.mem_append.mp hp with hp | hp
  · exact hshown p hp
  · rw [List.mem_singleton.mp hp]
    exact ⟨hk,rfl⟩

/-- A display is over. -/
theorem VncInv.postDisplay (h : VncInv setup overlay since s past) {c : ℕ} {line : StatLine}
    {shown : List (ℕ×FbPixel)} (hpc : s.clientPc c=.sending line shown) :
    VncInv setup overlay since {s with
      drawLock := none
      clientPc := Function.update s.clientPc c .idle
      displays := s.displays++[⟨line,shown⟩]} past := by
  have hlock := (h.clientLock c).mpr (by rw [hpc]; exact nofun)
  have hnot : s.drawLock≠some .mainLoop := by rw [hlock]; exact nofun
  have hidle : ∀ c', Function.update s.clientPc c .idle c'=.idle := by
    intro c'
    rw [Function.update_apply]
    split
    · rfl
    · rename_i hne
      by_contra hpc'
      have hother := (h.clientLock c').mpr hpc'
      rw [hlock] at hother
      cases hother
      exact hne rfl
  obtain ⟨⟨lines,picture,hlast,hpixels⟩,hread⟩ := h.sending c line shown hpc
  obtain ⟨seen,hfresh,hlt,hdisplays⟩ := h.shown
  have hpast : 0 < past.length := List.length_pos_iff.mpr fun hnil => by
    rw [hnil] at hlast
    cases hlast
  exact {
    frame := h.frame
    silent := h.silent
    mainLock := ⟨nofun,fun hcopying => absurd (h.mainLock.mpr hcopying) hnot⟩
    clientLock := fun c' => ⟨nofun,fun hne => absurd (hidle c') hne⟩
    copying := fun i hi => absurd (h.mainLock.mpr ⟨i,hi⟩) hnot
    copied := fun _ => h.copied hnot
    sending := fun c' line' shown' hpc' => by
      have hpc'' := (hidle c').symm.trans hpc'
      cases hpc''
    updates := h.updates
    shown := by
      refine ⟨seen++[past.length-1],hfresh.concat (current_last hlt h.updates),?_,?_⟩
      · intro j hj
        rcases List.mem_append.mp hj with hj | hj
        · exact hlt j hj
        · rw [List.mem_singleton.mp hj]
          omega
      · refine List.rel_append hdisplays (List.Forall₂.cons ⟨picture,lines,?_,fun p hp => ?_⟩
          List.Forall₂.nil)
        · rwa [←List.getLast?_eq_getElem?]
        · obtain ⟨hplace,hvalue⟩ := hread p hp
          exact ⟨hplace,hvalue.trans (hpixels p.1 hplace)⟩ }

/-- Every step of the flicker-free mode keeps the state of the frontend. -/
theorem vncInv_step (hsync : setup.syncOverlayDraw=true)
    (hfont : setup.txtrndr≠none ∨ setup.font=none) (s : Vnc) (past : List (ℕ → FbPixel))
    (e : VncEvent) (reply : Unit) (s' : Vnc) (h : VncInv setup overlay since s past)
    (hstep : vncStep setup s e=some (reply,s')) :
    VncInv setup overlay since s' (past++pictures s e) := by
  have hsilent : pictures s e=[] → VncInv setup overlay since s' past →
      VncInv setup overlay since s' (past++pictures s e) := by
    intro hnil hinv
    rwa [hnil,List.append_nil]
  cases e with
  | paint pixels =>
    simp only [vncStep] at hstep
    split at hstep
    · rename_i hpc
      cases hstep
      exact hsilent rfl (h.paint hpc pixels)
    · cases hstep
  | drawString x y str =>
    simp only [vncStep] at hstep
    split at hstep
    · rename_i hrenderer
      rw [hfont.resolve_left fun hsome => hsome hrenderer] at hstep
      cases hstep
      exact hsilent rfl h
    · cases hstep
  | writeString =>
    simp only [vncStep] at hstep
    split at hstep
    · rename_i hpc
      exact absurd hpc (h.silent _)
    · cases hstep
  | stringDrawn =>
    simp only [vncStep] at hstep
    split at hstep
    · rename_i hpc
      exact absurd hpc (h.silent _)
    · cases hstep
  | update =>
    simp only [vncStep] at hstep
    split at hstep
    · split at hstep
      · rename_i hfree
        cases hstep
        exact h.update (hfree.1 hsync)
      · cases hstep
    · cases hstep
  | copy =>
    simp only [vncStep] at hstep
    split at hstep
    · rename_i i hpc
      split at hstep
      · cases hstep
        exact hsilent rfl (h.copy hpc)
      · cases hstep
    · cases hstep
  | updated =>
    simp only [vncStep] at hstep
    split at hstep
    · rename_i i hpc
      split at hstep
      · cases hstep
      · rename_i hi
        cases hstep
        exact hsilent rfl (h.updated hpc hi)
    · cases hstep
  | preDisplay c =>
    simp only [vncStep] at hstep
    split at hstep
    · rw [if_pos hsync] at hstep
      split at hstep
      · rename_i hlock
        cases hstep
        exact hsilent rfl (h.preDisplay hlock c)
      · cases hstep
    · cases hstep
  | overlay c line =>
    simp only [vncStep] at hstep
    split at hstep
    · rename_i hpc
      cases hstep
      exact hsilent rfl (h.drawTexts hpc line)
    · cases hstep
  | send c k =>
    simp only [vncStep] at hstep
    split at hstep
    · rename_i line shown hpc
      split at hstep
      · rename_i hk
        cases hstep
        exact hsilent rfl (h.send hpc hk)
      · cases hstep
    · cases hstep
  | postDisplay c =>
    simp only [vncStep] at hstep
    split at hstep
    · rename_i line shown hpc
      cases hstep
      refine hsilent rfl ?_
      rw [hsync]
      exact h.postDisplay hpc
    · cases hstep

/-- Behind its allocation the frontend has what the memory was filled with. -/
theorem vncInv_allocated (setup : VncSetup) (fb overlay : Fb) :
    VncInv setup overlay ⟨0,0⟩ (allocated fb overlay) [overlay.pixels] where
  frame := rfl
  silent := nofun
  mainLock := ⟨nofun,nofun⟩
  clientLock := fun _ => ⟨nofun,fun hne => absurd rfl hne⟩
  copying := nofun
  copied := fun _ => ⟨[],overlay.pixels,rfl,fun _ _ => rfl⟩
  sending := nofun
  updates := Nat.zero_lt_one
  shown := ⟨[],Fresh.nil,nofun,List.Forall₂.nil⟩

/-- All displays so far are over before this moment. -/
theorem VncInv.now (h : VncInv setup overlay since s past) :
    VncInv setup overlay ⟨s.displays.length,past.length-1⟩ s past := by
  obtain ⟨seen,hfresh,hlt,hshown⟩ := h.shown
  exact {
    frame := h.frame
    silent := h.silent
    mainLock := h.mainLock
    clientLock := h.clientLock
    copying := h.copying
    copied := h.copied
    sending := h.sending
    updates := Nat.sub_lt ((Nat.zero_le _).trans_lt h.updates) Nat.zero_lt_one
    shown := ⟨seen,hfresh.now hshown.length_eq.ge,hlt,hshown⟩ }

/-- Every run keeps the state of the frontend. -/
theorem vncInv_run (hsync : setup.syncOverlayDraw=true)
    (hfont : setup.txtrndr≠none ∨ setup.font=none) {t : Vnc} {events : List VncEvent}
    {replies : List Unit} (h : VncInv setup overlay since s past)
    (hrun : run (vncStep setup) s events=some (replies,t)) :
    VncInv setup overlay since t (past++trace pictures (vncStep setup) s events) :=
  run_trace (fun s past e r s' hinv _ hstep => vncInv_step hsync hfont s past e r s' hinv hstep) h
    (admitted_iff.mpr fun _ _ _ _ _ _ _ => trivial : Admitted (fun _ _ => True) _ _ _) hrun

/-- A display shows one whole picture, that with the number `j`, below the texts: with the
line of the display over those that were drawn on the same copy before, and with the
line only if all of them are the same. -/
def Whole (setup : VncSetup) (overlay : Fb) (past : List (ℕ → FbPixel)) (display : Display)
    (j : ℕ) : Prop :=
  ∃ picture lines, past[j]?=some picture ∧
    (∀ p∈display.shown,p.2=drawnLines setup overlay picture (lines++[display.line]) p.1) ∧
    ((∀ line∈lines,line=display.line) →
      ∀ p∈display.shown,p.2=drawn setup overlay picture display.line p.1)

/-- In the flicker-free mode, with a renderer or without a font of the frontend, every
display of every client is one whole picture of the main loop, or the one that the
framebuffer of the frontend was allocated with, with the texts drawn on it, however the
copies of the main loop and the threads of the clients interleave. The pictures never
go back, and a display that ends behind some part of the run shows the last picture
of that part or a later one. -/
theorem displays_whole (setup : VncSetup) (hsync : setup.syncOverlayDraw=true)
    (hfont : setup.txtrndr≠none ∨ setup.font=none) (fb overlay : Fb)
    {before after : List VncEvent} {u : Vnc} {replies replies' : List Unit}
    (hbefore : run (vncStep setup) (allocated fb overlay) before=some (replies,u))
    (hafter : run (vncStep setup) u after=some (replies',s)) :
    ∃ seen : List ℕ, seen.Pairwise (fun j k => j ≤ k) ∧
      List.Forall₂ (Whole setup overlay
        (overlay.pixels::trace pictures (vncStep setup) (allocated fb overlay) before++
          trace pictures (vncStep setup) u after)) s.displays seen ∧
      ∀ j∈seen.drop u.displays.length,
        (trace pictures (vncStep setup) (allocated fb overlay) before).length ≤ j := by
  have hnow := (vncInv_run hsync hfont (vncInv_allocated setup fb overlay) hbefore).now
  have h := vncInv_run hsync hfont hnow hafter
  rw [List.singleton_append,List.length_cons,Nat.add_sub_cancel] at h
  obtain ⟨seen,hfresh,_,hshown⟩ := h.shown
  refine ⟨seen,hfresh.sorted,hshown.imp fun display j hfrom => ?_,hfresh.late⟩
  obtain ⟨picture,lines,hget,hpixels⟩ := hfrom
  refine ⟨picture,lines,hget,fun p hp => (hpixels p hp).2,fun hsame p hp => ?_⟩
  rw [(hpixels p hp).2,drawnLines_same setup overlay picture hsame]

/-- One pixel is copied. -/
def onePicture : List VncEvent := [.paint fun _ => ⟨1,2,3,4⟩,.update,.copy,.updated]

/-- Two clients are served then, one after the other. -/
def twoDisplays : List VncEvent :=
  [.preDisplay 0,.overlay 0 none,.send 0 0,.postDisplay 0,.preDisplay 1,.overlay 1 none,
    .paint fun _ => ⟨5,6,7,8⟩,.send 1 0,.postDisplay 1]

/-- Both displays are of the picture that was copied. -/
theorem displays_whole_two :
    let setup : VncSetup := ⟨.littleEndian,some dots,[0x61],none,true⟩
    let start := allocated (obtained ⟨1,1⟩) (obtained ⟨1,1⟩)
    ∃ replies u replies' s seen, run (vncStep setup) start onePicture=some (replies,u) ∧
      run (vncStep setup) u twoDisplays=some (replies',s) ∧ s.displays.length=2 ∧
      List.Forall₂ (Whole setup (obtained ⟨1,1⟩)
        ((obtained ⟨1,1⟩).pixels::trace pictures (vncStep setup) start onePicture++
          trace pictures (vncStep setup) u twoDisplays)) s.displays seen ∧ ∀ j∈seen,1 ≤ j := by
  intro setup start
  have hlengths : (run (vncStep setup) start onePicture).map (fun out => out.2.displays.length)=
        some 0 ∧
      ((run (vncStep setup) start onePicture).bind fun out =>
        run (vncStep setup) out.2 twoDisplays).map (fun out => out.2.displays.length)=some 2 := by
    decide +kernel
  obtain ⟨hfirst,hsecond⟩ := hlengths
  obtain ⟨⟨replies,u⟩,hbefore,hu⟩ := Option.map_eq_some_iff.mp hfirst
  rw [hbefore,Option.bind_some] at hsecond
  obtain ⟨⟨replies',s⟩,hafter,hs⟩ := Option.map_eq_some_iff.mp hsecond
  obtain ⟨seen,_,hwhole,hlate⟩ := displays_whole setup rfl (Or.inr rfl) _ _ hbefore hafter
  rw [show u.displays.length=0 from hu] at hlate
  exact ⟨replies,u,replies',s,seen,hbefore,hafter,hs,hwhole,hlate⟩

end Shoreline.FlickerFree
