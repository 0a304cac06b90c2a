import Shoreline.CanvasLog

/-!
# The painted picture

What is shown once all streams are done. With a single node framebuffer, a
pixel that at most one client draws on, and no text, has the last colour that
this client's stream draws there, or the black of the new framebuffer, in
whatever order the steps of all clients, the coalesces and the texts came.
-/

namespace Shoreline.PaintedPicture

open Framebuffer ItemText Protocol Coalesce StateMachine WriteBuffer Drawing ServerRun ByteServer
open NodeArrival TextOverlay OverlaidServer SharedCanvas CanvasLog

/-- Where a client's items have come to, and what they drew. -/
structure Brush where
  /-- Offset of all coordinates. -/
  offsetX : ℕ
  /-- Offset of all coordinates. -/
  offsetY : ℕ
  /-- Cells and what was put there. -/
  dabs : List (Option ℕ×Option FbPixel)

/-- The colour of a set. -/
def colourOf (digits : List (ℕ×Bool)) : FbPixel :=
  FbPixel.ofAbgr .littleEndian (UInt32.ofNat (colourValue digits))

/-- One item. -/
def brushStep (width height : ℕ) (b : Brush) : Item → Brush
  | .set x y digits => {b with
      dabs := b.dabs++[(place width height (x+b.offsetX) (y+b.offsetY),layerOf (colourOf digits))]}
  | .offset x y => {b with offsetX := x, offsetY := y}
  | _ => b

/-- A client's items from the start. -/
def brushOf (width height : ℕ) (items : List Item) : Brush :=
  items.foldl (brushStep width height) ⟨0,0,[]⟩

/-- What a stream draws. -/
def dabsOf (width height : ℕ) (items : List Item) : List (Option ℕ×Option FbPixel) :=
  (brushOf width height items).dabs

/-- The colour of an item marks its pixel as drawn. -/
def MarkingItem : Item → Prop
  | .set _ _ digits => (colourOf digits).alpha≠0
  | _ => True

/-- What a single layer has come to when the clients have done some items: it
shows what one of them drew at a cell where the others draw nothing. -/
structure Painting (width height : ℕ) (under : FbPixel) (cell k : ℕ) (c : Canvas)
    (done : ℕ → List Item) : Prop where
  /-- There is one layer at most. -/
  nodes : c.nodes≤1
  /-- Every client draws on it. -/
  painters : ∀ p∈c.painters,p.node<c.nodes
  /-- Offsets are those of the items done. -/
  offsets : ∀ j p, c.painters[j]?=some p → p.offsetX=(brushOf width height (done j)).offsetX ∧
    p.offsetY=(brushOf width height (done j)).offsetY
  /-- Clients yet to come have done nothing. -/
  undone : ∀ j, c.painters.length≤j → done j=[]
  /-- What is seen at the cell. -/
  seen : c.buffer.seen 0 (some cell)=
    (lastPut (some cell) (dabsOf width height (done k)) none).getD
      (if c.nodes=0 then under else opaqueBlack)

variable {width height : ℕ} {under : FbPixel} {cell k : ℕ} {c : Canvas} {done : ℕ → List Item}

/-- One more item. -/
theorem brushOf_concat (width height : ℕ) (items : List Item) (item : Item) :
    brushOf width height (items++[item])=
      brushStep width height (brushOf width height items) item := List.foldl_append

/-- Items only add to what was drawn. -/
theorem dabsOf_append (width height : ℕ) (items more : List Item) :
    dabsOf width height items<+:dabsOf width height (items++more) := by
  induction more using List.reverseRecOn with
  | nil => rw [List.append_nil]
  | append_singleton more item ih =>
    refine ih.trans ?_
    rw [←List.append_assoc]
    unfold dabsOf
    rw [brushOf_concat]
    cases item with
    | set x y digits => exact List.prefix_append _ _
    | _ => exact List.prefix_refl _

/-- What is drawn in a part of a stream is drawn in the stream. -/
theorem dabsOf_of_isPrefix {items more : List Item} (h : items<+:more) :
    dabsOf width height items<+:dabsOf width height more := by
  obtain ⟨tail,rfl⟩ := h
  exact dabsOf_append width height items tail

/-- A stroke never takes a layer away. -/
theorem nodes_mono (width height : ℕ) (c : Canvas) (stroke : Stroke) :
    c.nodes≤(canvasStep width height c stroke).nodes := by
  cases stroke with
  | join found =>
    cases found with
    | none => exact Nat.le_succ _
    | some node => exact le_refl _
  | item k item => exact le_refl _
  | merge order => exact le_refl _
  | texts draw => exact le_refl _

/-- The offset of a painter after an item. -/
theorem perform_offset (screen : Screen) (p : Painter) (b : Brush) (hx : p.offsetX=b.offsetX)
    (hy : p.offsetY=b.offsetY) (item : Item) :
    (p.perform screen item).node=p.node ∧
      (p.perform screen item).offsetX=(brushStep width height b item).offsetX ∧
      (p.perform screen item).offsetY=(brushStep width height b item).offsetY := by
  cases item with
  | set x y digits =>
    dsimp only [Painter.perform,Protocol.perform,brushStep]
    split <;> exact ⟨rfl,hx,hy⟩
  | get x y =>
    dsimp only [Painter.perform,Protocol.perform,brushStep]
    split <;> exact ⟨rfl,hx,hy⟩
  | size => exact ⟨rfl,hx,hy⟩
  | offset x y => exact ⟨rfl,rfl,rfl⟩
  | junk token => exact ⟨rfl,hx,hy⟩

/-- A client that joins has done nothing, and a new layer is black. -/
theorem Painting.join (h : Painting width height under cell k c done) (hcell : cell<width*height)
    {found : Option ℕ} (hvalid : Valid c (.join found))
    (hnodes : (canvasStep width height c (.join found)).nodes≤1) :
    Painting width height under cell k (canvasStep width height c (.join found)) done := by
  have hnew : found.getD c.nodes<(canvasStep width height c (.join found)).nodes := by
    cases found with
    | none => exact Nat.lt_succ_self _
    | some node => exact hvalid node rfl
  refine ⟨hnodes,fun p hp => ?_,fun j p hp => ?_,fun j hj => ?_,?_⟩
  · rcases List.mem_append.mp hp with hold | hmem
    · exact (h.painters p hold).trans_le (nodes_mono width height c _)
    · rw [List.mem_singleton.mp hmem]
      exact hnew
  · dsimp only [canvasStep,paintersOf] at hp
    rcases Nat.lt_trichotomy j c.painters.length with hlt | rfl | hgt
    · rw [List.getElem?_append_left hlt] at hp
      exact h.offsets j p hp
    · rw [List.getElem?_concat_length] at hp
      cases hp
      rw [h.undone _ (le_refl _)]
      exact ⟨rfl,rfl⟩
    · rw [List.getElem?_eq_none (by rw [List.length_append,List.length_singleton]; omega)] at hp
      cases hp
  · refine h.undone j (le_trans ?_ hj)
    dsimp only [canvasStep,paintersOf]
    rw [List.length_append]
    omega
  · cases found with
    | some node => exact h.seen
    | none =>
      have hzero : c.nodes=0 := by
        have hone : c.nodes+1≤1 := hnodes
        omega
      have hnobody : c.painters=[] := by
        refine List.eq_nil_iff_forall_not_mem.mpr fun p hp => ?_
        have hlt := h.painters p hp
        omega
      have hdone : done k=[] := h.undone k (by rw [hnobody]; exact Nat.zero_le _)
      have hmem : some cell∈(List.range (width*height)).map some :=
        List.mem_map_of_mem (List.mem_range.mpr hcell)
      obtain ⟨_,hlayer⟩ := foldl_put_all c.buffer c.nodes (some opaqueBlack)
        ((List.range (width*height)).map some)
      dsimp only [canvasStep,opsOf,blackenOps]
      rw [Buffer.seen,hlayer,if_pos ⟨hzero.symm,hmem⟩,hdone]
      rfl

/-- What an item adds to what was drawn. -/
theorem dabsOf_concat (width height : ℕ) (items : List Item) (item : Item) :
    dabsOf width height (items++[item])=dabsOf width height items++
      match item with
      | .set x y digits => [(place width height (x+(brushOf width height items).offsetX)
          (y+(brushOf width height items).offsetY),layerOf (colourOf digits))]
      | _ => [] := by
  unfold dabsOf
  rw [brushOf_concat]
  cases item with
  | set x y digits => rfl
  | _ => exact (List.append_nil _).symm

/-- What is seen at the cell after an item. -/
theorem Painting.seen_item (h : Painting width height under cell k c done) {j : ℕ} {p : Painter}
    (hget : c.painters[j]?=some p) {item : Item} (hmark : MarkingItem item)
    (hothers : j≠k → ∀ d∈dabsOf width height (done j++[item]),d.1≠some cell) :
    ((putsOf width height p item).foldl Buffer.step c.buffer).seen 0 (some cell)=
      (lastPut (some cell) (dabsOf width height (Function.update done j (done j++[item]) k)) none).getD
        (if c.nodes=0 then under else opaqueBlack) := by
  obtain ⟨hx,hy⟩ := h.offsets j p hget
  have hnode : p.node=0 := by
    have hlt := h.painters p (List.mem_of_getElem? hget)
    have hone := h.nodes
    omega
  have hdabs := dabsOf_concat width height (done j) item
  cases item with
  | set x y digits =>
    have hlayer : layerOf (colourOf digits)=some (colourOf digits) := if_neg hmark
    have hputs : putsOf width height p (.set x y digits)=[.put 0
        (place width height (x+(brushOf width height (done j)).offsetX)
          (y+(brushOf width height (done j)).offsetY)) (some (colourOf digits))] := by
      rw [←hlayer,←hx,←hy,←hnode]
      rfl
    dsimp only at hdabs
    rw [hputs,List.foldl_cons,List.foldl_nil,seen_put,h.seen]
    by_cases hj : j=k
    · subst hj
      rw [Function.update_self,hdabs,lastPut_append,hlayer,lastPut_cons]
      dsimp only
      by_cases hcell : some cell=place width height (x+(brushOf width height (done j)).offsetX)
        (y+(brushOf width height (done j)).offsetY)
      · rw [if_pos hcell,if_pos hcell.symm]
        rfl
      · rw [if_neg hcell,if_neg (Ne.symm hcell)]
        rfl
    · have hne := hothers hj _ (hdabs ▸ List.mem_append_right _ (List.mem_singleton_self _))
      rw [Function.update_of_ne (Ne.symm hj),if_neg (Ne.symm hne)]
  | _ =>
    rw [List.append_nil] at hdabs
    by_cases hj : j=k
    · subst hj
      rw [Function.update_self,hdabs]
      exact h.seen
    · rw [Function.update_of_ne (Ne.symm hj)]
      exact h.seen

/-- A client does an item. -/
theorem Painting.item (h : Painting width height under cell k c done) {j : ℕ} {item : Item}
    (hvalid : Valid c (.item j item)) (hmark : MarkingItem item)
    (hothers : j≠k → ∀ d∈dabsOf width height (done j++[item]),d.1≠some cell) :
    Painting width height under cell k (canvasStep width height c (.item j item))
      (Function.update done j (done j++[item])) := by
  have hget := List.getElem?_eq_getElem (show j<c.painters.length from hvalid)
  obtain ⟨hx,hy⟩ := h.offsets j _ hget
  have hmodify : paintersOf width height c (.item j item)=
      c.painters.set j (c.painters[j].perform (c.screen width height) item) := by
    dsimp only [paintersOf]
    rw [List.modify_eq_set_getElem?,hget]
    rfl
  obtain ⟨hnode,hx',hy'⟩ := @perform_offset width height (c.screen width height) c.painters[j] _ hx hy item
  refine ⟨h.nodes,fun p hmem => ?_,fun i p hi => ?_,fun i hi => ?_,?_⟩
  · dsimp only [canvasStep] at hmem
    rw [hmodify] at hmem
    rcases List.mem_or_eq_of_mem_set hmem with hold | rfl
    · exact h.painters p hold
    · rw [hnode]
      exact h.painters _ (List.getElem_mem _)
  · dsimp only [canvasStep] at hi
    rw [hmodify] at hi
    by_cases hij : i=j
    · rw [hij,List.getElem?_set_self hvalid] at hi
      cases hi
      rw [hij,Function.update_self,brushOf_concat]
      exact ⟨hx',hy'⟩
    · rw [List.getElem?_set_ne (Ne.symm hij)] at hi
      rw [Function.update_of_ne hij]
      exact h.offsets i p hi
  · dsimp only [canvasStep] at hi
    rw [hmodify,List.length_set] at hi
    have hne : i≠j := fun he => by
      have hlt : j<c.painters.length := hvalid
      omega
    rw [Function.update_of_ne hne]
    exact h.undone i hi
  · dsimp only [canvasStep,opsOf]
    rw [hget,Option.map_some,Option.getD_some]
    exact h.seen_item hget hmark hothers

/-- A merge of the only layer changes nothing of what is seen. -/
theorem Painting.merge (h : Painting width height under cell k c done) {order : List ℕ}
    (hvalid : Valid c (.merge order)) :
    Painting width height under cell k (canvasStep width height c (.merge order)) done := by
  refine ⟨h.nodes,h.painters,h.offsets,h.undone,?_⟩
  dsimp only [canvasStep,opsOf,List.foldl_cons,List.foldl_nil]
  rw [seen_merge c.buffer (fun m hm => ?_) (some cell)]
  · exact h.seen
  · have hlt := List.mem_range.mp (hvalid.mem_iff.mp hm)
    have hone := h.nodes
    omega

/-- A text drawn elsewhere does not matter at the cell. -/
theorem Painting.texts (h : Painting width height under cell k c done)
    {draw : (ℕ → FbPixel) → ℕ → FbPixel} (hspare : ∀ pixels, draw pixels cell=pixels cell) :
    Painting width height under cell k (canvasStep width height c (.texts draw)) done where
  nodes := h.nodes
  painters := h.painters
  offsets := h.offsets
  undone := h.undone
  seen := by
    have hbase : (drawnOver draw c.buffer).base (some cell)=c.buffer.base (some cell) := hspare _
    change (drawnOver draw c.buffer).seen 0 (some cell)=_
    rw [Buffer.seen,hbase]
    exact h.seen

/-- A stroke leaves the cell to the clients. -/
def SparesCell (cell : ℕ) : Stroke → Prop
  | .texts draw => ∀ pixels, draw pixels cell=pixels cell
  | _ => True

/-- Layers along a log. -/
theorem nodes_mono_log (width height : ℕ) (c : Canvas) (log : List Stroke) :
    c.nodes≤(log.foldl (canvasStep width height) c).nodes := by
  induction log generalizing c with
  | nil => exact le_refl _
  | cons stroke log ih => exact (nodes_mono width height c stroke).trans (ih _)

/-- One stroke of a client's items. -/
theorem itemsBy_single (j : ℕ) (k : ℕ) (item : Item) :
    itemsBy j [.item k item]=if k=j then [item] else [] := by
  by_cases hk : k=j
  · have hself : itemBy j (.item k item)=some item := if_pos hk
    rw [itemsBy,List.filterMap_cons_some hself,if_pos hk]
    rfl
  · have hother : itemBy j (.item k item)=none := if_neg hk
    rw [itemsBy,List.filterMap_cons_none hother,if_neg hk]
    rfl

/-- One stroke that a step stands for. -/
theorem Painting.stroke (h : Painting width height under cell k c done) (hcell : cell<width*height)
    {stroke : Stroke} (hvalid : Valid c stroke)
    (hnodes : (canvasStep width height c stroke).nodes≤1) (hspare : SparesCell cell stroke)
    (hmark : ∀ j, ∀ item∈itemsBy j [stroke],MarkingItem item)
    (hothers : ∀ j≠k, ∀ d∈dabsOf width height (done j++itemsBy j [stroke]),d.1≠some cell) :
    Painting width height under cell k (canvasStep width height c stroke)
      fun j => done j++itemsBy j [stroke] := by
  cases stroke with
  | join found =>
    refine cast (congrArg (Painting width height under cell k _) (funext fun j => ?_))
      (h.join hcell hvalid hnodes)
    exact (List.append_nil _).symm
  | merge order =>
    refine cast (congrArg (Painting width height under cell k _) (funext fun j => ?_))
      (h.merge hvalid)
    exact (List.append_nil _).symm
  | texts draw =>
    refine cast (congrArg (Painting width height under cell k _) (funext fun j => ?_))
      (h.texts hspare)
    exact (List.append_nil _).symm
  | item j item =>
    have hone : itemsBy j [.item j item]=[item] := (itemsBy_single j j item).trans (if_pos rfl)
    have hmark' : MarkingItem item := hmark j item (by rw [hone]; exact List.mem_singleton_self _)
    have hothers' := hothers j
    rw [hone] at hothers'
    refine cast (congrArg (Painting width height under cell k _) (funext fun i => ?_))
      (h.item hvalid hmark' hothers')
    by_cases hi : i=j
    · rw [hi,Function.update_self,hone]
    · rw [Function.update_of_ne hi,itemsBy_single,if_neg (Ne.symm hi),List.append_nil]

/-- A step stands for one stroke that makes sense, or for none; only texts may
draw at the cell. -/
theorem stands_cases {host : Host} {size : FbSize} {e : SceneEvent} {strokes : List Stroke}
    (h : Stands host size c e strokes) (hspare : ∀ overlays, e=.draw overlays →
      Spares host size cell overlays) :
    strokes=[] ∨ ∃ stroke, Valid c stroke ∧ SparesCell cell stroke ∧ strokes=[stroke] := by
  cases e with
  | byte e =>
    cases e with
    | connect look node block numaNode data =>
      rcases h with hnil | ⟨found,hvalid,hone⟩
      · exact Or.inl hnil
      · exact Or.inr ⟨_,hvalid,trivial,hone⟩
    | read k found => exact Or.inl h
    | round k =>
      rcases h with hnil | ⟨item,hvalid,hone⟩
      · exact Or.inl hnil
      · exact Or.inr ⟨_,hvalid,trivial,hone⟩
    | other e =>
      obtain ⟨order,hvalid,hone⟩ := h
      exact Or.inr ⟨_,hvalid,trivial,hone⟩
  | draw overlays => exact Or.inr ⟨.texts _,trivial,hspare overlays rfl,h⟩

/-- What is seen after a log. -/
theorem Painting.log {host : Host} {size : FbSize}
    (h : Painting size.width.toNat size.height.toNat under cell k c done)
    (hcell : cell < size.width.toNat*size.height.toNat) {events : List SceneEvent}
    {log : List Stroke} (hfollows : Follows host size c events log)
    (hspare : ∀ overlays, .draw overlays∈events → Spares host size cell overlays)
    (hnodes : (log.foldl (canvasStep size.width.toNat size.height.toNat) c).nodes≤1)
    (hmark : ∀ j, ∀ item∈itemsBy j log,MarkingItem item)
    (hothers : ∀ j≠k, ∀ d∈dabsOf size.width.toNat size.height.toNat (done j++itemsBy j log),
      d.1≠some cell) :
    Painting size.width.toNat size.height.toNat under cell k (log.foldl (canvasStep size.width.toNat size.height.toNat) c)
      fun j => done j++itemsBy j log := by
  induction events generalizing c done log with
  | nil =>
    have hnil : log=[] := hfollows
    subst hnil
    refine cast (congrArg (Painting size.width.toNat size.height.toNat under cell k _)
      (funext fun j => ?_)) h
    exact (List.append_nil _).symm
  | cons e events ih =>
    obtain ⟨strokes,rest,rfl,hstands,hrest⟩ := hfollows
    have hlater : ∀ overlays, .draw overlays∈events → Spares host size cell overlays :=
      fun overlays hmem => hspare overlays (List.mem_cons_of_mem _ hmem)
    rcases stands_cases hstands fun overlays he => hspare overlays (he▸List.mem_cons_self) with
      rfl | ⟨stroke,hvalid,hspared,rfl⟩
    · exact ih h hrest hlater hnodes hmark hothers
    · have hsplit : ∀ j, itemsBy j ([stroke]++rest)=itemsBy j [stroke]++itemsBy j rest := fun j =>
        List.filterMap_append
      have hall : (fun j => done j++itemsBy j ([stroke]++rest))=
          fun j => (done j++itemsBy j [stroke])++itemsBy j rest := funext fun j => by
        rw [hsplit,List.append_assoc]
      rw [List.foldl_append,List.foldl_cons,List.foldl_nil] at hnodes ⊢
      rw [hall]
      refine ih (h.stroke hcell hvalid ((nodes_mono_log _ _ _ rest).trans hnodes)
        hspared (fun j item hmem => hmark j item ?_) fun j hj d hd => ?_) hrest hlater hnodes
        (fun j item hmem => hmark j item ?_) fun j hj d hd => ?_
      · rw [hsplit]
        exact List.mem_append_left _ hmem
      · refine hothers j hj d ((dabsOf_of_isPrefix ?_).subset hd)
        rw [hsplit,←List.append_assoc]
        exact List.prefix_append _ _
      · rw [hsplit]
        exact List.mem_append_right _ hmem
      · refine hothers j hj d ?_
        rw [hsplit,←List.append_assoc]
        exact hd

/-- On the blank canvas nothing is done, and what is seen is the picture. -/
theorem painting_blank (width height : ℕ) (main : Fb) (cell k : ℕ) :
    Painting width height (main.pixels cell) cell k (blankCanvas main) fun _ => [] where
  nodes := Nat.zero_le _
  painters _ hmem := absurd hmem List.not_mem_nil
  offsets j p hget := by cases hget
  undone _ _ := rfl
  seen := rfl

/-- A client that is not at a command has done all it sent, also one that
never came. -/
theorem done_all {setup : ByteSetup} {size : FbSize} {s : ByteState} {rest : ℕ → List Item}
    {coming : ℕ → List UInt8} (hset : Settings setup.toSetup s.server.main size)
    (h : Draws setup size s c rest coming) (hstate : ∀ w∈s.wires,w.state≠.parsing) {j : ℕ}
    (hcoming : coming j=[]) : rest j=[] := by
  cases hw : s.wires[j]? with
  | some w => exact h.finished hset hw (hstate w (List.mem_of_getElem? hw)) hcoming
  | none =>
    have hpending := h.pending j
    rw [contentOf,hw,hcoming] at hpending
    cases hrest : rest j with
    | nil => rfl
    | cons item items =>
      rw [hrest,encode_cons] at hpending
      exact absurd hpending.symm (List.append_ne_nil_of_right_ne_nil _ (List.cons_ne_nil _ _))

/-- A round of the main loop without what it does to its frontends. -/
def mainRound (rand : Rand) (overlays : Overlays) : List SceneEvent :=
  [.byte (.other (.coalesce rand)),.draw overlays]

/-- On a single node framebuffer, once every stream is done and merged, every
pixel that only one client draws on, and no text, has that client's last colour.
The size has not changed. -/
theorem picture_painted (setup : ByteSetup) (hring : 0<setup.ringSize) (main : Fb)
    (hset : Settings setup.toSetup main main.size) (streams : ℕ → List Item)
    (hwf : ∀ k, ∀ item∈streams k,item.WellFormed) (hsum : ∀ k, SumsFit 0 0 (streams k))
    (hmark : ∀ k, ∀ item∈streams k,MarkingItem item) {events : List SceneEvent} {rand : Rand}
    {overlays : Overlays}
    (hadm : Admitted ScenePossible (sceneStep setup) (listening main)
      (events++mainRound rand overlays))
    (hpoll : ∀ size, .byte (.other (.pollResize size))∉events)
    (hall : ∀ k, received k events=encode (streams k)) :
    ∃ replies s, run (sceneStep setup) (listening main) (events++mainRound rand overlays)=
        some (replies,s) ∧ s.server.main.size=main.size ∧
      ((∀ w∈s.wires,w.state≠.parsing) → s.server.fbs.length=1 →
        ∀ k x y, x < main.size.width.toNat → y < main.size.height.toNat →
        (∀ o, .draw o∈events++mainRound rand overlays →
          Spares setup.build.host main.size (y*main.size.width.toNat+x) o) →
        (∀ j≠k, ∀ d∈dabsOf main.size.width.toNat main.size.height.toNat (streams j),
          d.1≠some (y*main.size.width.toNat+x)) →
        s.server.main.pixels (y*main.size.width.toNat+x)=
          (lastPut (some (y*main.size.width.toNat+x))
            (dabsOf main.size.width.toNat main.size.height.toNat (streams k)) none).getD
              opaqueBlack) := by
  have hback : ∀ k, received k events++[]=encode (streams k) := fun k => by
    rw [List.append_nil,hall k]
  obtain ⟨replies,s,log,rest,hrun,hfollows,hitems,hmid⟩ :=
    (draws_listening setup main hwf hsum hback).run hset hring hadm.append_left hpoll
  have hset' := hset.of_size hmid.shown.shows.uniform.main
  have hlast : BytePossible s (.other (.coalesce rand)) := (hadm.append_right hrun).1
  obtain ⟨_,s',hstep,hbytes,hunresized⟩ := byteStep_unresized hring hmid.bytes hmid.unresized
    (fun size he => by cases he) hlast
  obtain ⟨order,hvalid,hend⟩ := hmid.other hset' (fun size he => by cases he) hlast hstep hbytes
    hunresized
  have htexts := hend.texts overlays
  refine ⟨replies++[(),()],drawScene setup.build.host overlays s',?_,
    htexts.shown.shows.uniform.main,fun hstate hone k x y hx hy hspare hothers => ?_⟩
  · rw [run_append hrun,mainRound,run,sceneStep,hstep]
    rfl
  · have hdone : ∀ j, itemsBy j log=streams j := fun j => by
      rw [hitems j,done_all (hset.of_size hend.shown.shows.uniform.main) hend hstate rfl,
        List.append_nil]
    have hcell : y*main.size.width.toNat+x < main.size.width.toNat*main.size.height.toNat := by
      nlinarith
    have hnodes : (log.foldl (canvasStep main.size.width.toNat main.size.height.toNat)
        (blankCanvas main)).nodes=1 := hend.shown.shows.length.symm.trans hone
    have hpainting := ((painting_blank _ _ main _ k).log hcell hfollows
      (fun o hmem => hspare o (List.mem_append_left _ hmem)) (le_of_eq hnodes)
      (fun j item hmem => hmark j item (hdone j ▸ hmem)) fun j hj d hd =>
        hothers j hj d (hdone j ▸ hd)).merge hvalid
    have hmem : 0∈order := hvalid.mem_iff.mpr (List.mem_range.mpr (by omega))
    have hshown : s'.server.main.pixels (y*main.size.width.toNat+x)=_ := hend.shown.shows.base _
    have hitems' : ([] : List Item)++itemsBy k log=streams k := hdone k
    have hseen := hpainting.seen
    have hused : ¬(canvasStep main.size.width.toNat main.size.height.toNat
        (log.foldl (canvasStep main.size.width.toNat main.size.height.toNat) (blankCanvas main))
        (.merge order)).nodes=0 := fun hzero => absurd (hnodes.symm.trans hzero) Nat.one_ne_zero
    have hdraw : .draw overlays∈events++mainRound rand overlays :=
      List.mem_append_right _ (List.mem_cons_of_mem _ List.mem_cons_self)
    -- the last texts spare the place
    have hdrawn : (drawScene setup.build.host overlays s').server.main.pixels
        (y*main.size.width.toNat+x)=s'.server.main.pixels (y*main.size.width.toNat+x) := by
      rw [drawScene,mainLoopDraws_texts setup.build.host overlays hend.shown.shows.uniform.main]
      exact hspare overlays hdraw _
    rw [hitems',if_neg hused] at hseen
    rw [hdrawn,hshown,←hseen]
    exact base_of_seen _ hmem _

/-- Both streams only draw. -/
theorem twoStreams_marking : ∀ k, ∀ item∈twoStreams k,MarkingItem item := by
  rintro (_ | _ | k)
  · exact List.forall_mem_singleton.mpr (show _≠_ by decide +kernel)
  · exact List.forall_mem_singleton.mpr (show _≠_ by decide +kernel)
  · exact fun item hmem => absurd hmem List.not_mem_nil

/-- Only the first one draws at this place. -/
theorem twoStreams_apart (j : ℕ) (hj : j≠0) : ∀ d∈dabsOf 4 4 (twoStreams j),d.1≠some (1*4+1) := by
  rcases j with _ | _ | j
  · exact absurd rfl hj
  · decide +kernel
  · exact fun d hd => absurd hd List.not_mem_nil

/-- No text is drawn. -/
theorem twoEvents_spare (o : Overlays) (hmem : .draw o∈twoEvents++mainRound zeroRand noTexts) :
    Spares .littleEndian ⟨4,4⟩ (1*4+1) o := by
  have hnone : o=noTexts := by
    simp only [twoEvents,mainRound,List.mem_append,List.mem_cons,reduceCtorEq,
      SceneEvent.draw.injEq,List.not_mem_nil,false_or,or_false,or_self] at hmem
    exact hmem
  rw [hnone]
  exact spares_of_none _ _ _ _ _

end Shoreline.PaintedPicture
