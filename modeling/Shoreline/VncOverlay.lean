import Shoreline.Addressing
import Shoreline.Library.StateMachine

/-!
# The overlay of the VNC frontend

The VNC frontend copies the main framebuffer into one of its own, which has
the size that the main framebuffer had when the frontend was allocated. The
SDL frontend resizes the main framebuffer only, so the copy is possible as
long as every resize that matters is one to the initial size.
-/

namespace Shoreline.VncOverlay

open Framebuffer Addressing StateMachine

/-- `fb_copy`, with the number of pixels that it writes from the first one on.
Failed assertions are `none`. -/
def fbCopy (dst src : Fb) : Option (Fb×ℕ) :=
  if dst.size.width=src.size.width ∧ dst.size.height=src.size.height then
    let pixels := fun i => if i<dst.size.product then src.pixels i else dst.pixels i
    some ({dst with pixels := pixels},dst.size.product)
  else none

/-- What `SDL_GetWindowSize` reports: neither dimension is negative. -/
structure WindowSize where
  /-- The dimensions, as `resize_cb` and `fb_resize` take them. -/
  size : FbSize
  /-- `assert(width >= 0)`. -/
  width_lt : size.width.toNat<2^31
  /-- `assert(height >= 0)`. -/
  height_lt : size.height.toNat<2^31

/-- Events that `sdl_update` polls. A resize comes with the result of
`resize_cb` and the outcomes of `SDL_CreateTexture` and of the allocation in
`fb_resize`. -/
inductive SdlEvent where
  | resized (window : WindowSize) (cb : ℤ) (texture : Bool) (block : Option (ℕ → FbPixel))
  | quit
  | other

/-- `sdl_update`, as its result and the framebuffer. -/
def sdlUpdate : List SdlEvent → Fb → ℤ×Fb
  | [],fb => (0,fb)
  | .resized window cb texture block::events,fb =>
    if cb≠0 then (cb,fb)
    else if texture then sdlUpdate events (fbResize fb block window.size).2
    else sdlUpdate events fb
  | .quit::_,fb => (1,fb)
  | .other::events,fb => sdlUpdate events fb

/-- The main framebuffer, the overlays of the VNC frontends, and `do_exit`. -/
structure Screens where
  main : Fb
  overlays : List Fb
  exit : Bool

/-- What the main loop calls: whatever draws to the main framebuffer, and the
updates of the frontends. `active` is `rfbIsActive`. -/
inductive FrontCall where
  | paint (pixels : ℕ → FbPixel)
  | sdl (events : List SdlEvent)
  | vnc (k : ℕ) (active : Bool)

/-- What a call did. -/
inductive FrontReply where
  /-- It was not made. -/
  | skipped
  /-- It returned. -/
  | returned (err : ℤ)
  /-- It returned, and copied so many pixels to an array of so many cells. -/
  | copied (err : ℤ) (written cells : ℕ)
  deriving DecidableEq

/-- One call of the main loop. A failed update ends the loop over the
frontends and the main loop, so no call is made after it; a failed assertion
is `none`. -/
def frontStep (s : Screens) (call : FrontCall) : Option (FrontReply×Screens) :=
  if s.exit then some (.skipped,s)
  else
    match call with
    | .paint pixels => some (.returned 0,{s with main := {s.main with pixels := pixels}})
    | .sdl events =>
      let out := sdlUpdate events s.main
      some (.returned out.1,{s with main := out.2, exit := decide (out.1≠0)})
    | .vnc k active =>
      match s.overlays[k]? with
      | none => some (.skipped,s)
      | some overlay =>
        (fbCopy overlay s.main).map fun out =>
          let err : ℤ := if active then 0 else 1
          (.copied err out.2 overlay.cells,
            {s with overlays := s.overlays.set k out.1, exit := decide (err≠0)})

/-- The size of the main framebuffer and `do_exit`, as the calls alone
determine them. -/
structure Outline where
  size : FbSize
  exit : Bool
  deriving DecidableEq

/-- The result of `sdl_update`, and the size of the last resize in it that
goes through. -/
def sdlOutline : List SdlEvent → FbSize → ℤ×FbSize
  | [],size => (0,size)
  | .resized window cb texture block::events,size =>
    if cb≠0 then (cb,size)
    else sdlOutline events (if texture && block.isSome then window.size else size)
  | .quit::_,size => (1,size)
  | .other::events,size => sdlOutline events size

/-- A call, with so many VNC frontends. -/
def outlineStep (vncs : ℕ) (o : Outline) (call : FrontCall) : Outline :=
  if o.exit then o
  else
    match call with
    | .paint _ => o
    | .sdl events =>
      let out := sdlOutline events o.size
      ⟨out.2,decide (out.1≠0)⟩
    | .vnc k active => {o with exit := decide (k<vncs) && !active}

/-- A list of calls. -/
def outline (vncs : ℕ) (size : FbSize) (calls : List FrontCall) : Outline :=
  calls.foldl (outlineStep vncs) ⟨size,false⟩

/-- No assertion of `fb_copy` fails, and every copy writes exactly the array
of its destination. -/
def Mirrors (main : Fb) (overlays : List Fb) (calls : List FrontCall) : Prop :=
  ∃ replies s, run frontStep ⟨main,overlays,false⟩ calls=some (replies,s) ∧
    ∀ err written cells, .copied err written cells∈replies → written=cells

/-- Whenever a VNC frontend is updated, the last resize before that went
through was one to the initial size. -/
def UpdatedAtSize (size : FbSize) (vncs : ℕ) (calls : List FrontCall) : Prop :=
  ∀ before k active after, calls=before++.vnc k active::after → k<vncs →
    (outline vncs size before).exit=false → (outline vncs size before).size=size

/-- The server state belongs to the outline, and the overlays have the initial
size. -/
structure Belongs (size : FbSize) (vncs : ℕ) (s : Screens) (o : Outline) : Prop where
  main : s.main.size=o.size
  exit : s.exit=o.exit
  vncs : s.overlays.length=vncs
  overlays : ∀ overlay∈s.overlays,overlay.size=size ∧ overlay.cells=size.product

/-- The outline says what `sdl_update` returns and leaves. -/
theorem sdlUpdate_outline (events : List SdlEvent) (fb : Fb) :
    sdlOutline events fb.size=((sdlUpdate events fb).1,(sdlUpdate events fb).2.size) := by
  induction events generalizing fb with
  | nil => rfl
  | cons event events ih =>
    cases event with
    | quit => rfl
    | other => exact ih fb
    | resized window cb texture block =>
      rw [sdlOutline,sdlUpdate]
      split
      · rfl
      · cases texture with
        | false => exact ih fb
        | true =>
          cases block with
          | none => exact ih fb
          | some heap => exact ih (fbResize fb (some heap) window.size).2

/-- A copy works exactly between equal sizes, and keeps all but the pixels. -/
theorem fbCopy_eq_none {dst src : Fb} : fbCopy dst src=none ↔ dst.size≠src.size := by
  have hsize : dst.size=src.size ↔
      dst.size.width=src.size.width ∧ dst.size.height=src.size.height := by
    rw [FbSize.mk.injEq]
  rw [fbCopy,ne_eq,hsize]
  split
  · rename_i h
    constructor
    · intro hnone
      cases hnone
    · exact fun hne => absurd h hne
  · rename_i h
    exact ⟨fun _ => h,fun _ => rfl⟩

/-- What a copy that works leaves. -/
theorem fbCopy_some {dst src : Fb} {out : Fb×ℕ} (h : fbCopy dst src=some out) :
    out.1.size=dst.size ∧ out.1.cells=dst.cells ∧ out.2=dst.size.product := by
  unfold fbCopy at h
  split at h
  · cases h
    exact ⟨rfl,rfl,rfl⟩
  · cases h

section

variable {size : FbSize} {vncs : ℕ} {s s' : Screens} {o : Outline} {reply : FrontReply}

/-- A call fails exactly if it updates a VNC frontend at another size. -/
theorem frontStep_eq_none (h : Belongs size vncs s o) {call : FrontCall} :
    frontStep s call=none ↔
      ∃ k active, call=.vnc k active ∧ k<vncs ∧ o.exit=false ∧ o.size≠size := by
  cases hexit : s.exit with
  | true =>
    unfold frontStep
    rw [if_pos hexit]
    constructor
    · intro hnone
      cases hnone
    · intro ⟨k,active,_,_,ho,_⟩
      rw [←h.exit,hexit] at ho
      cases ho
  | false =>
    unfold frontStep
    rw [if_neg (by rw [hexit]; exact Bool.false_ne_true)]
    have ho : o.exit=false := h.exit.symm.trans hexit
    cases call with
    | paint pixels => simp
    | sdl events => simp
    | vnc k active =>
      dsimp only
      cases hget : s.overlays[k]? with
      | none =>
        have hle := List.getElem?_eq_none_iff.mp hget
        rw [h.vncs] at hle
        constructor
        · intro hnone
          cases hnone
        · intro ⟨k',active',hcall,hk,_⟩
          cases hcall
          omega
      | some overlay =>
        obtain ⟨hlt,heq⟩ := List.getElem?_eq_some_iff.mp hget
        rw [h.vncs] at hlt
        have hoverlay := h.overlays overlay (heq▸List.getElem_mem _)
        dsimp only
        rw [Option.map_eq_none_iff,fbCopy_eq_none,hoverlay.1,h.main]
        constructor
        · intro hne
          exact ⟨k,active,rfl,hlt,ho,Ne.symm hne⟩
        · intro ⟨_,_,_,_,_,hne⟩
          exact Ne.symm hne

/-- A call that works goes along with the outline, and a copy in it writes
exactly the array. -/
theorem frontStep_some (h : Belongs size vncs s o) {call : FrontCall}
    (hstep : frontStep s call=some (reply,s')) :
    Belongs size vncs s' (outlineStep vncs o call) ∧
      ∀ err written cells, reply=.copied err written cells → written=cells := by
  cases hexit : s.exit with
  | true =>
    unfold frontStep at hstep
    rw [if_pos hexit] at hstep
    cases hstep
    unfold outlineStep
    rw [if_pos (h.exit.symm.trans hexit)]
    exact ⟨h,fun _ _ _ heq => by cases heq⟩
  | false =>
    have ho : ¬o.exit=true := by
      rw [←h.exit,hexit]
      exact Bool.false_ne_true
    unfold frontStep at hstep
    rw [if_neg (by rw [hexit]; exact Bool.false_ne_true)] at hstep
    unfold outlineStep
    rw [if_neg ho]
    cases call with
    | paint pixels =>
      cases hstep
      exact ⟨⟨h.main,h.exit,h.vncs,h.overlays⟩,fun _ _ _ heq => by cases heq⟩
    | sdl events =>
      cases hstep
      have hout := sdlUpdate_outline events s.main
      rw [h.main] at hout
      refine ⟨⟨?_,?_,h.vncs,h.overlays⟩,fun _ _ _ heq => by cases heq⟩
      · dsimp only
        rw [hout]
      · dsimp only
        rw [hout]
    | vnc k active =>
      dsimp only at hstep ⊢
      split at hstep
      · rename_i hget
        have hle := List.getElem?_eq_none_iff.mp hget
        rw [h.vncs] at hle
        cases hstep
        refine ⟨⟨h.main,?_,h.vncs,h.overlays⟩,fun _ _ _ heq => by cases heq⟩
        rw [hexit,decide_eq_false (by omega),Bool.false_and]
      · rename_i overlay hget
        rw [Option.map_eq_some_iff] at hstep
        obtain ⟨out,hcopy,hstep⟩ := hstep
        cases hstep
        obtain ⟨hlt,heq⟩ := List.getElem?_eq_some_iff.mp hget
        have hoverlay := h.overlays overlay (heq▸List.getElem_mem _)
        obtain ⟨hsize,hcells,hwritten⟩ := fbCopy_some hcopy
        refine ⟨⟨h.main,?_,?_,fun other hother => ?_⟩,fun err written cells hreply => ?_⟩
        · have hk : k<vncs := h.vncs▸hlt
          simp only [hk,decide_true,Bool.true_and]
          cases active <;> rfl
        · dsimp only
          rw [List.length_set,h.vncs]
        · cases List.mem_or_eq_of_mem_set hother with
          | inl hold => exact h.overlays other hold
          | inr hnew =>
            rw [hnew,hsize,hcells]
            exact hoverlay
        · cases hreply
          rw [hwritten,hoverlay.2,hoverlay.1]

/-- A run that works goes along with the outline, and every copy in it writes
exactly the array. -/
theorem run_some (h : Belongs size vncs s o) {calls : List FrontCall}
    {replies : List FrontReply} (hrun : run frontStep s calls=some (replies,s')) :
    Belongs size vncs s' (calls.foldl (outlineStep vncs) o) ∧
      ∀ err written cells, .copied err written cells∈replies → written=cells := by
  induction calls generalizing s o replies with
  | nil =>
    cases hrun
    exact ⟨h,fun _ _ _ hmem => absurd hmem List.not_mem_nil⟩
  | cons call calls ih =>
    obtain ⟨reply,next,rest,hstep,hrest,rfl⟩ := of_run_cons hrun
    obtain ⟨hnext,hcopy⟩ := frontStep_some h hstep
    obtain ⟨hend,hcopies⟩ := ih hnext hrest
    refine ⟨hend,fun err written cells hmem => ?_⟩
    cases List.mem_cons.mp hmem with
    | inl heq => exact hcopy err written cells heq.symm
    | inr hmem => exact hcopies err written cells hmem

/-- A run fails exactly if it comes to an update of a VNC frontend at another
size. -/
theorem run_eq_none (h : Belongs size vncs s o) (calls : List FrontCall) :
    run frontStep s calls=none ↔ ∃ before k active after, calls=before++.vnc k active::after ∧
      k<vncs ∧ (before.foldl (outlineStep vncs) o).exit=false ∧
      (before.foldl (outlineStep vncs) o).size≠size := by
  induction calls generalizing s o with
  | nil =>
    constructor
    · intro hnone
      cases hnone
    · rintro ⟨before,k,active,after,heq,_⟩
      exact absurd heq.symm (List.append_ne_nil_of_right_ne_nil before (List.cons_ne_nil _ after))
  | cons call calls ih =>
    cases hstep : frontStep s call with
    | none =>
      obtain ⟨k,active,rfl,hk,hexit,hne⟩ := (frontStep_eq_none h).mp hstep
      refine ⟨fun _ => ⟨[],k,active,calls,rfl,hk,hexit,hne⟩,fun _ => ?_⟩
      simp only [run,hstep]
    | some out =>
      rw [run_cons calls hstep,Option.map_eq_none_iff,ih (frontStep_some h hstep).1]
      constructor
      · rintro ⟨before,k,active,after,heq,hrest⟩
        exact ⟨call::before,k,active,after,by rw [heq,List.cons_append],hrest⟩
      · rintro ⟨before,k,active,after,heq,hk,hexit,hne⟩
        cases before with
        | nil =>
          cases heq
          rw [(frontStep_eq_none h).mpr ⟨k,active,rfl,hk,hexit,hne⟩] at hstep
          cases hstep
        | cons first before =>
          rw [List.cons_append,List.cons.injEq] at heq
          obtain ⟨rfl,heq⟩ := heq
          exact ⟨before,k,active,after,heq,hk,hexit,hne⟩

end

/-- With overlays allocated for the initial size, the overlays match the main
framebuffer at every update and every copy writes exactly its destination if
and only if the last resize that went through before an update of a VNC
frontend was always one to the initial size. -/
theorem mirrors_iff {main : Fb} {overlays : List Fb}
    (h : ∀ overlay∈overlays,Obtained main.size overlay) (calls : List FrontCall) :
    Mirrors main overlays calls ↔ UpdatedAtSize main.size overlays.length calls := by
  have hstart : Belongs main.size overlays.length ⟨main,overlays,false⟩ ⟨main.size,false⟩ := by
    refine ⟨rfl,rfl,rfl,fun overlay hmem => ?_⟩
    have hspec := (h overlay hmem).spec
    exact hspec
  have hnone := run_eq_none hstart calls
  constructor
  · intro ⟨replies,s,hrun,_⟩ before k active after heq hk hexit
    by_contra hne
    rw [hnone.mpr ⟨before,k,active,after,heq,hk,hexit,hne⟩] at hrun
    cases hrun
  · intro hsize
    cases hrun : run frontStep ⟨main,overlays,false⟩ calls with
    | none =>
      obtain ⟨before,k,active,after,heq,hk,hexit,hne⟩ := hnone.mp hrun
      exact absurd (hsize before k active after heq hk hexit) hne
    | some out => exact ⟨out.1,out.2,hrun,(run_some hstart hrun).2⟩

/-- An overlay that `vnc_alloc` makes for a surface of 4 by 4 pixels. -/
def smallOverlay : Fb := obtained ⟨4,4⟩

/-- The window is resized to these dimensions. -/
def resizedTo (size : FbSize) (hw : size.width.toNat<2^31) (hh : size.height.toNat<2^31) :
    FrontCall :=
  .sdl [.resized ⟨size,hw,hh⟩ 0 true (some fun _ => ⟨0,0,0,0⟩)]

/-- The window grows and gets its size back before the VNC frontend is updated. -/
theorem mirrors_iff_back :
    Mirrors smallOverlay [smallOverlay]
        [resizedTo ⟨8,4⟩ (by decide) (by decide),resizedTo ⟨4,4⟩ (by decide) (by decide),
          .vnc 0 true] ↔
      UpdatedAtSize ⟨4,4⟩ 1
        [resizedTo ⟨8,4⟩ (by decide) (by decide),resizedTo ⟨4,4⟩ (by decide) (by decide),
          .vnc 0 true] := by
  refine mirrors_iff (fun overlay hmem => ?_) _
  rw [List.mem_singleton.mp hmem]
  exact .alloc .littleEndian (some 0) (some fun _ => ⟨0,0,0,0⟩) 0 rfl

/-- The window grows once: the next update of the VNC frontend aborts the
server. -/
theorem grown_not_mirrors :
    run frontStep ⟨smallOverlay,[smallOverlay],false⟩
        [resizedTo ⟨8,4⟩ (by decide) (by decide),.vnc 0 true]=none ∧
      ¬Mirrors smallOverlay [smallOverlay]
        [resizedTo ⟨8,4⟩ (by decide) (by decide),.vnc 0 true] := by
  have hnone : run frontStep ⟨smallOverlay,[smallOverlay],false⟩
      [resizedTo ⟨8,4⟩ (by decide) (by decide),.vnc 0 true]=none := rfl
  refine ⟨hnone,fun ⟨replies,s,hrun,_⟩ => ?_⟩
  rw [hnone] at hrun
  cases hrun

end Shoreline.VncOverlay
