import Shoreline.ByteServer
import Shoreline.TextOverlay

/-!
# The server with its texts

The main loop draws its texts into the framebuffer that is shown, between any
steps of the connections, and other texts each time. For surfaces of one size
that is a change of pixels which looks at nothing else.
-/

namespace Shoreline.OverlaidServer

open Framebuffer Addressing StateMachine ServerRun ByteServer TextOverlay Overwriting

/-- A step of the server without texts, or the main loop drawing its texts. -/
inductive SceneEvent where
  | byte (e : ByteEvent)
  | draw (overlays : Overlays)

/-- The main loop draws its texts. -/
def drawScene (host : Host) (overlays : Overlays) (s : ByteState) : ByteState :=
  {s with server := {s.server with main := mainLoopDraws host overlays s.server.main}}

/-- One step. -/
def sceneStep (setup : ByteSetup) : Step SceneEvent Unit ByteState
  | s,.byte e => byteStep setup s e
  | s,.draw overlays => some ((),drawScene setup.build.host overlays s)

/-- The steps that threads can take; the main loop can always draw. -/
def ScenePossible (s : ByteState) : SceneEvent → Prop
  | .byte e => BytePossible s e
  | .draw _ => True

instance (s : ByteState) : ∀ e, Decidable (ScenePossible s e)
  | .byte e => inferInstanceAs (Decidable (BytePossible s e))
  | .draw _ => isTrue trivial

/-- What the texts make of the pixels of a surface. -/
def textsOf (host : Host) (size : FbSize) (overlays : Overlays) (pixels : ℕ → FbPixel) :
    ℕ → FbPixel :=
  (mainLoopDraws host overlays {obtained size with pixels}).pixels

/-- The texts leave a place of every surface of the size alone. -/
def Spares (host : Host) (size : FbSize) (cell : ℕ) (overlays : Overlays) : Prop :=
  ∀ pixels, textsOf host size overlays pixels cell=pixels cell

/-- The main loop draws what its overlays are, as often as it likes. -/
theorem stamps_mainLoopDraws (host : Host) (overlays : Overlays) (size : FbSize) :
    Stamps size (mainLoopDraws host overlays) := by
  have hdraw := stamps_drawOverlays host overlays size
  exact (hdraw.comp hdraw).congr fun fb _ => mainLoopDraws_eq host overlays fb

/-- Drawing texts changes nothing but the pixels. -/
theorem mainLoopDraws_texts (host : Host) (overlays : Overlays) {size : FbSize} {fb : Fb}
    (hfb : fb.size=size) :
    mainLoopDraws host overlays fb={fb with pixels := textsOf host size overlays fb.pixels} := by
  obtain ⟨f,_,hchange⟩ := stamps_mainLoopDraws host overlays size
  have hpixels : textsOf host size overlays fb.pixels=f fb.pixels :=
    congrArg Fb.pixels (hchange {obtained size with pixels := fb.pixels} rfl)
  rw [hchange fb hfb,hpixels]

/-- A surface keeps its size. -/
theorem mainLoopDraws_size (host : Host) (overlays : Overlays) (fb : Fb) :
    (mainLoopDraws host overlays fb).size=fb.size := by
  rw [mainLoopDraws_texts host overlays rfl]

/-- Without a renderer there are no texts. -/
theorem spares_of_none (host : Host) (size : FbSize) (cell : ℕ) (description : List UInt8)
    (statLine : Option (List UInt8)) : Spares host size cell ⟨none,description,statLine⟩ :=
  fun _ => rfl

end Shoreline.OverlaidServer
