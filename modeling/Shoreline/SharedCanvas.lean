import Shoreline.NodeArrival
import Shoreline.Protocol
import Shoreline.Resizing

/-!
# The shared canvas

What the server is for, as a machine of its own: painters that each do one
item after the other on layers of pending pixels, and merges that show what is
pending. Items mean what they mean for a single client. The server on
commands does what the canvas does, step by step.
-/

namespace Shoreline.SharedCanvas

open Framebuffer NetConnection CommandScan ItemText Protocol Coordinates Coalesce StateMachine
open WriteBuffer Drawing ServerRun NodeArrival

/-- What the canvas knows of a client. -/
structure Painter where
  /-- The layer drawn on. -/
  node : ℕ
  /-- Offset of all coordinates. -/
  offsetX : ℕ
  /-- Offset of all coordinates. -/
  offsetY : ℕ
  /-- Everything sent to the client. -/
  sent : List UInt8

/-- The picture with the pending pixels of every node, and the clients. -/
structure Canvas where
  /-- What is shown, and what is pending in the layer of every node. -/
  buffer : Buffer ℕ (Option ℕ) FbPixel
  /-- Layers in use. -/
  nodes : ℕ
  /-- The clients, in the order in which they came. -/
  painters : List Painter

/-- A client comes, on a layer in use or on a new one; a client does an item;
layers are merged; the picture is drawn over, under all layers. -/
inductive Stroke where
  | join (found : Option ℕ)
  | item (k : ℕ) (item : Item)
  | merge (order : List ℕ)
  | texts (draw : (ℕ → FbPixel) → ℕ → FbPixel)

/-- The cell of a pixel, if it is on the canvas. -/
def place (width height x y : ℕ) : Option ℕ :=
  if x<width ∧ y<height then some (y*width+x) else none

/-- What an item puts into the layer of its painter. -/
def putsOf (width height : ℕ) (p : Painter) : Item → List (Op ℕ (Option ℕ) FbPixel)
  | .set x y digits => [.put p.node (place width height (x+p.offsetX) (y+p.offsetY))
      (layerOf (FbPixel.ofAbgr .littleEndian (UInt32.ofNat (colourValue digits))))]
  | _ => []

/-- A new layer is black everywhere. -/
def blackenOps (width height node : ℕ) : List (Op ℕ (Option ℕ) FbPixel) :=
  ((List.range (width*height)).map some).map fun i => .put node i (some opaqueBlack)

/-- What a stroke does to the picture and its layers. -/
def opsOf (width height : ℕ) (c : Canvas) : Stroke → List (Op ℕ (Option ℕ) FbPixel)
  | .join (some _) => []
  | .join none => blackenOps width height c.nodes
  | .item k item => (c.painters[k]?.map fun p => putsOf width height p item).getD []
  | .merge order => [.merge order]
  | .texts _ => []

/-- The picture under the layers, drawn over. -/
def drawnOver (draw : (ℕ → FbPixel) → ℕ → FbPixel) (b : Buffer ℕ (Option ℕ) FbPixel) :
    Buffer ℕ (Option ℕ) FbPixel where
  base
    | some cell => draw (fun cell => b.base (some cell)) cell
    | none => b.base none
  layer := b.layer

/-- What items read. -/
def Canvas.screen (width height : ℕ) (c : Canvas) : Screen where
  width := width
  height := height
  picture x y := ((c.buffer.base (some (y*width+x))).abgr .littleEndian).toNat

/-- A painter as a client on its own. -/
def Painter.client (p : Painter) : Protocol.Client := ⟨p.offsetX,p.offsetY,fun _ => default,p.sent,[]⟩

/-- A painter after an item, which means for it what it means for a client on
its own. -/
def Painter.perform (screen : Screen) (p : Painter) (item : Item) : Painter :=
  let client := Protocol.perform screen p.client item
  ⟨p.node,client.offsetX,client.offsetY,client.sent⟩

/-- What a stroke does to the clients. -/
def paintersOf (width height : ℕ) (c : Canvas) : Stroke → List Painter
  | .join found => c.painters++[⟨found.getD c.nodes,0,0,[]⟩]
  | .item k item => c.painters.modify k fun p => p.perform (c.screen width height) item
  | .merge _ => c.painters
  | .texts _ => c.painters

/-- One stroke. -/
def canvasStep (width height : ℕ) (c : Canvas) (stroke : Stroke) : Canvas where
  buffer := match stroke with
    | .texts draw => drawnOver draw c.buffer
    | _ => (opsOf width height c stroke).foldl Buffer.step c.buffer
  nodes := match stroke with
    | .join none => c.nodes+1
    | _ => c.nodes
  painters := paintersOf width height c stroke

/-- A connection as a painter. -/
def painterOf (client : ServerRun.Client) : Painter :=
  ⟨client.fb,client.session.offsetX.toNat,client.session.offsetY.toNat,client.session.sent⟩

/-- The canvas that a server shows: node framebuffers hold the layers, the main
framebuffer the picture. -/
structure Shown (size : FbSize) (s : Server) (c : Canvas) : Prop where
  /-- The picture and its layers. -/
  shows : Shows size c.nodes c.buffer ⟨s.main,s.fbs⟩
  /-- The clients. -/
  painters : c.painters=s.clients.map painterOf

/-- The settings of all connections of a server. -/
def Settings (setup : Setup) (main : Fb) (size : FbSize) : Prop :=
  ∀ k, Setting ⟨setup.build,main,setup.socket k⟩ size

variable {setup : Setup} {size : FbSize} {s : Server} {c : Canvas}

/-- They do not depend on the picture. -/
theorem Settings.of_size {main main' : Fb} (h : Settings setup main size) (hsize : main'.size=size) :
    Settings setup main' size := fun k =>
  ⟨(h k).feature_size,(h k).feature_offset,(h k).no_blending,(h k).host,hsize,(h k).width_lt,
    (h k).height_lt,(h k).area_lt,(h k).socket_ok⟩

/-- Indices on the canvas are those of the block. -/
theorem product_eq (h : Settings setup s.main size) :
    size.product=size.width.toNat*size.height.toNat := by
  rw [FbSize.product,UInt32.toNat_mul,Nat.mod_eq_of_lt (h 0).area_lt]

/-- Numbers below the word size as a target. -/
theorem target_ofNat (h : Settings setup s.main size) {x y : ℕ} (hx : x<2^32) (hy : y<2^32) :
    target size (UInt32.ofNat x) (UInt32.ofNat y)=place size.width.toNat size.height.toNat x y := by
  have hx' : (UInt32.ofNat x).toNat=x := by rw [UInt32.toNat_ofNat',Nat.mod_eq_of_lt hx]
  have hy' : (UInt32.ofNat y).toNat=y := by rw [UInt32.toNat_ofNat',Nat.mod_eq_of_lt hy]
  have hiff := @contains_iff size (UInt32.ofNat x) (UInt32.ofNat y)
  rw [hx',hy'] at hiff
  unfold place
  by_cases hin : size.Contains (UInt32.ofNat x) (UInt32.ofNat y)
  · have hcell := cell_eq (h 0).area_lt hin
    rw [hx',hy'] at hcell
    rw [if_pos (hiff.mp hin),target,if_pos ⟨hin,cell_lt_product (h 0).area_lt hin⟩,hcell]
  · rw [if_neg fun hc => hin (hiff.mpr hc),target_eq_none hin]

/-- A framebuffer that is stored back with its pixels changes nothing. -/
theorem shows_set_same {k : ℕ} {b : Buffer ℕ (Option ℕ) FbPixel} {main : Fb} {fbs : List Fb}
    (h : Shows size k b ⟨main,fbs⟩) {node : ℕ} {fb out : Fb} (hfb : fbs[node]?=some fb)
    (hsize : out.size=size) (hpixels : out.pixels=fb.pixels) :
    Shows size k b ⟨main,fbs.set node out⟩ := by
  have hlt : node<fbs.length := (List.getElem?_eq_some_iff.mp hfb).1
  refine ⟨⟨h.uniform.main,fun other hmem => ?_⟩,List.length_set.trans h.length,h.base,
    fun node' fb' hfb' i hi => ?_,h.beyond⟩
  · rcases List.mem_or_eq_of_mem_set hmem with hold | rfl
    · exact h.uniform.fbs other hold
    · exact hsize
  · dsimp only at hfb'
    by_cases hnode : node'=node
    · rw [hnode,List.getElem?_set_self hlt] at hfb'
      cases hfb'
      rw [hpixels,hnode]
      exact h.layer node fb hfb i hi
    · rw [List.getElem?_set_ne fun hc => hnode hc.symm] at hfb'
      exact h.layer node' fb' hfb' i hi

/-- The screen of a connection is the one of the canvas. -/
theorem Shown.screen (h : Shown size s c) (k : ℕ) :
    screenOf ⟨setup.build,s.main,setup.socket k⟩ size=
      c.screen size.width.toNat size.height.toNat := by
  unfold screenOf Canvas.screen
  exact congrArg (Screen.mk _ _) (funext fun x => funext fun y =>
    congrArg (fun pixel : FbPixel => (pixel.abgr .littleEndian).toNat) (h.shows.base _))

/-- What an item means for offset and replies depends on nothing else. -/
theorem perform_congr (screen : Screen) {one two : Protocol.Client} (hx : one.offsetX=two.offsetX)
    (hy : one.offsetY=two.offsetY) (hsent : one.sent=two.sent) (item : Item) :
    (perform screen one item).offsetX=(perform screen two item).offsetX ∧
      (perform screen one item).offsetY=(perform screen two item).offsetY ∧
      (perform screen one item).sent=(perform screen two item).sent := by
  obtain ⟨ox,oy,pixels,sent,effects⟩ := one
  obtain ⟨ox',oy',pixels',sent',effects'⟩ := two
  dsimp only at hx hy hsent
  subst hx hy hsent
  cases item with
  | set x y digits =>
    dsimp only [perform]
    split <;> exact ⟨rfl,rfl,rfl⟩
  | get x y =>
    dsimp only [perform]
    split <;> exact ⟨rfl,rfl,rfl⟩
  | size => exact ⟨rfl,rfl,rfl⟩
  | offset x y => exact ⟨rfl,rfl,rfl⟩
  | junk token => exact ⟨rfl,rfl,rfl⟩

/-- A client that does an item, as a painter that does it. -/
theorem painterOf_perform {env : NetEnv} {client : ServerRun.Client} {fb : Fb} {item : Item}
    {session : Session} {live : Bool}
    (h : clientOf session=perform (screenOf env size) (clientOf (client.enter fb)) item) :
    painterOf ⟨client.fb,session,live⟩=(painterOf client).perform (screenOf env size) item := by
  obtain ⟨hx,hy,hsent⟩ := @perform_congr (screenOf env size) (clientOf (client.enter fb))
    (painterOf client).client rfl rfl rfl item
  rw [←h] at hx hy hsent
  rw [Painter.perform,←hx,←hy,←hsent]
  rfl

/-- A client that does an item does to its framebuffer what the painter does
to its layer. -/
theorem Shown.puts (hset : Settings setup s.main size) (h : Shown size s c)
    {client : ServerRun.Client} {fb : Fb} (hfb : s.fbs[client.fb]?=some fb) {k : ℕ} {item : Item}
    {items : List Item}
    (hsum : SumsFit client.session.offsetX.toNat client.session.offsetY.toNat (item::items))
    {session : Session} (hsize : session.fb.size=size)
    (hclient : clientOf session=perform (screenOf ⟨setup.build,s.main,setup.socket k⟩ size)
      (clientOf (client.enter fb)) item) :
    Shows size c.nodes ((putsOf size.width.toNat size.height.toNat (painterOf client) item).foldl
      Buffer.step c.buffer) ⟨s.main,s.fbs.set client.fb session.fb⟩ := by
  have hpixels : session.fb.pixels=_ := congrArg Protocol.Client.pixels hclient
  cases item with
  | set x y digits =>
    have hx : (UInt32.ofNat (x+client.session.offsetX.toNat)).toNat=
        x+client.session.offsetX.toNat := by rw [UInt32.toNat_ofNat',Nat.mod_eq_of_lt hsum.1.1]
    have hy : (UInt32.ofNat (y+client.session.offsetY.toNat)).toNat=
        y+client.session.offsetY.toNat := by rw [UInt32.toNat_ofNat',Nat.mod_eq_of_lt hsum.1.2]
    have hiff := @contains_iff size (UInt32.ofNat (x+client.session.offsetX.toNat))
      (UInt32.ofNat (y+client.session.offsetY.toNat))
    rw [hx,hy] at hiff
    dsimp only [putsOf,painterOf,List.foldl_cons,List.foldl_nil]
    rw [←target_ofNat hset hsum.1.1 hsum.1.2]
    dsimp only [perform,screenOf,clientOf,ServerRun.Client.enter] at hpixels
    by_cases hin : size.Contains (UInt32.ofNat (x+client.session.offsetX.toNat))
      (UInt32.ofNat (y+client.session.offsetY.toNat))
    · have hcell := cell_eq (hset 0).area_lt hin
      rw [hx,hy] at hcell
      rw [if_pos (hiff.mp hin),←hcell] at hpixels
      have hfbsize : fb.size=size := h.shows.uniform.fbs fb (List.mem_of_getElem? hfb)
      exact h.shows.put hfb hin (hsize.trans hfbsize.symm) hpixels
    · rw [if_neg fun hc => hin (hiff.mpr hc)] at hpixels
      exact (shows_set_same h.shows hfb hsize hpixels).put_nowhere hin
  | get x y =>
    refine shows_set_same h.shows hfb hsize (hpixels.trans ?_)
    dsimp only [perform]
    split <;> rfl
  | size => exact shows_set_same h.shows hfb hsize hpixels
  | offset x y => exact shows_set_same h.shows hfb hsize hpixels
  | junk token => exact shows_set_same h.shows hfb hsize hpixels

/-- A connection that executes an item does what its painter does. -/
theorem Shown.item (hset : Settings setup s.main size) (h : Shown size s c) {k : ℕ}
    {client : ServerRun.Client} (hclient : s.clients[k]?=some client) {fb : Fb}
    (hfb : s.fbs[client.fb]?=some fb) {item : Item} {items : List Item} (hwf : item.WellFormed)
    (hsum : SumsFit client.session.offsetX.toNat client.session.offsetY.toNat (item::items)) :
    ∃ s' client', serverCommand setup s k item.command=some (.ended .done,s') ∧
      s'.main=s.main ∧ s'.clients=s.clients.set k client' ∧
      SumsFit client'.session.offsetX.toNat client'.session.offsetY.toNat items ∧
      Shown size s' (canvasStep size.width.toNat size.height.toNat c (.item k item)) := by
  have hfbsize : fb.size=size := h.shows.uniform.fbs fb (List.mem_of_getElem? hfb)
  obtain ⟨hperf,hnext⟩ := @item_performs _ size (hset k) (client.enter fb) hfbsize item items hwf hsum
  rw [←hperf.client] at hnext
  generalize hout : exec ⟨setup.build,s.main,setup.socket k⟩ (client.enter fb) item.command=out
    at hperf hnext
  obtain ⟨ended,session⟩ := out
  obtain ⟨rfl,hperform,hsize⟩ := hperf
  refine ⟨{s with
    fbs := s.fbs.set client.fb session.fb
    clients := s.clients.set k ⟨client.fb,session,true⟩
    drawn := s.drawn++drawnBy (client.enter fb) item.command},⟨client.fb,session,true⟩,?_,rfl,rfl,
    hnext,?_,?_⟩
  · rw [serverCommand,hclient]
    dsimp only
    rw [hfb]
    dsimp only
    rw [hout]
    rfl
  · have hget : c.painters[k]?=some (painterOf client) := by
      rw [h.painters,List.getElem?_map,hclient,Option.map_some]
    dsimp only [canvasStep,opsOf]
    rw [hget,Option.map_some,Option.getD_some]
    exact h.puts hset hfb hsum hsize hperform
  · dsimp only [canvasStep,paintersOf]
    have hget : (s.clients.map painterOf)[k]?=some (painterOf client) := by
      rw [List.getElem?_map,hclient,Option.map_some]
    rw [h.painters,List.map_set,painterOf_perform hperform,h.screen,List.modify_eq_set_getElem?,hget]
    rfl

/-- A coalesce merges all layers. -/
theorem Shown.coalesce (hset : Settings setup s.main size) (h : Shown size s c) (rand : Rand) :
    ∃ s' order, serverStep setup s (.coalesce rand)=some (.code 0,s') ∧ s'.main.size=size ∧
      s'.clients=s.clients ∧ order.Perm (List.range c.nodes) ∧
      Shown size s' (canvasStep size.width.toNat size.height.toNat c (.merge order)) := by
  obtain ⟨surface,hstep,hshows⟩ := h.shows.coalesce (hset 0).no_blending rand
  obtain ⟨order,hshuffle,hperm⟩ := arrayShuffle_perm rand (List.range c.nodes)
  obtain ⟨out,hrun,hout⟩ := Option.map_eq_some_iff.mp hstep
  rw [bufferOp,hshuffle,Option.getD_some] at hshows
  obtain ⟨hret,rfl⟩ := Prod.mk.inj hout
  refine ⟨{s with main := out.fb, fbs := out.fbs, drawn := [], joined := false},order,?_,
    hshows.uniform.main,rfl,hperm,hshows,h.painters⟩
  rw [serverStep,hrun,Option.map_some,hret]

/-- A new framebuffer is a new layer that is black everywhere. -/
theorem shows_append (hset : Settings setup s.main size) {b : Buffer ℕ (Option ℕ) FbPixel} {k : ℕ}
    {main : Fb} {fbs : List Fb} (h : Shows size k b ⟨main,fbs⟩) {fb : Fb} (hsize : fb.size=size)
    (hfresh : ∀ i<size.product,fb.pixels i=opaqueBlack) :
    Shows size (k+1) ((blackenOps size.width.toNat size.height.toNat k).foldl Buffer.step b)
      ⟨main,fbs++[fb]⟩ := by
  obtain ⟨hbase,hlayer⟩ := foldl_put_all b k (some opaqueBlack)
    ((List.range (size.width.toNat*size.height.toNat)).map some)
  have hmem : ∀ i,some i∈(List.range (size.width.toNat*size.height.toNat)).map some ↔
      i<size.product := fun i => by
    rw [List.mem_map_of_injective (Option.some_injective ℕ),List.mem_range,product_eq hset]
  refine ⟨⟨h.uniform.main,fun other hother => ?_⟩,?_,fun i => ?_,fun node other hother i hi => ?_,
    fun node i hi => ?_⟩
  · rcases List.mem_append.mp hother with hold | hnew
    · exact h.uniform.fbs other hold
    · rw [List.mem_singleton.mp hnew]
      exact hsize
  · exact List.length_append.trans (congrArg (·+1) h.length)
  · rw [blackenOps,hbase]
    exact h.base i
  · rw [blackenOps,hlayer]
    dsimp only at hother
    by_cases hnode : node<fbs.length
    · rw [List.getElem?_append_left hnode] at hother
      rw [if_neg fun hc => by have hk := h.length; dsimp only at hk; omega]
      exact h.layer node other hother i hi
    · rw [List.getElem?_append_right (by omega)] at hother
      have hlt := (List.getElem?_eq_some_iff.mp hother).1
      rw [List.length_singleton] at hlt
      have hk := h.length
      dsimp only at hk
      rw [if_pos ⟨by omega,(hmem i).mpr hi⟩,List.mem_singleton.mp (List.mem_of_getElem? hother),
        hfresh i hi]
      rfl
  · rw [blackenOps,hlayer,if_neg fun hc => absurd ((hmem i).mp hc.2) (by omega)]
    exact h.beyond node i hi

/-- A connection that gets its framebuffer is a painter that joins. -/
theorem Shown.connect (hset : Settings setup s.main size) (h : Shown size s c) (look : ℕ)
    (node : Option UInt32) (block : Option (ℕ → FbPixel)) (numaNode : ℕ) :
    serverConnect setup s look node block numaNode=(.code (-ENOMEM),s) ∨
      (serverConnect setup s look node block numaNode).1=.code 0 ∧
      (serverConnect setup s look node block numaNode).2.main=s.main ∧
      (∃ client : ServerRun.Client, client.session.offsetX=0 ∧ client.session.offsetY=0 ∧
        (serverConnect setup s look node block numaNode).2.clients=s.clients++[client]) ∧
      ∃ found : Option ℕ, (∀ k∈found,k<c.nodes) ∧
        Shown size (serverConnect setup s look node block numaNode).2
        (canvasStep size.width.toNat size.height.toNat c (.join found)) := by
  have hmain : s.main.size=size := h.shows.uniform.main
  unfold serverConnect
  cases hlook : fbGetFbOnNode s.fbs look with
  | some k =>
    have hk : k<c.nodes := by
      rw [←h.shows.length]
      exact (List.findIdx?_eq_some_iff_findIdx_eq.mp hlook).1
    refine Or.inr ⟨rfl,rfl,⟨_,rfl,rfl,rfl⟩,some k,fun j hj => ?_,h.shows,?_⟩
    · cases hj
      exact hk
    dsimp only [canvasStep,paintersOf]
    rw [h.painters,List.map_append]
    rfl
  | none =>
    dsimp only
    cases hfb : fbAlloc setup.build.host node block numaNode s.main.size with
    | error e =>
      refine Or.inl ?_
      cases node with
      | none =>
        cases hfb
        rfl
      | some garbage =>
        cases block with
        | none =>
          cases hfb
          rfl
        | some heap => cases hfb
    | ok fb =>
      have hshape := fbAlloc_shape hfb
      have hhost : setup.build.host=.littleEndian := (hset 0).host
      rw [hmain,hhost] at hfb
      refine Or.inr ⟨rfl,rfl,⟨_,rfl,rfl,rfl⟩,none,fun _ hj => (by cases hj),?_,?_⟩
      · exact shows_append hset h.shows ((congrArg Prod.fst hshape).trans hmain) fun i hi =>
          fbAlloc_fresh hfb hi
      · dsimp only [canvasStep,paintersOf]
        rw [h.painters,List.map_append,←h.shows.length]
        rfl

end Shoreline.SharedCanvas
