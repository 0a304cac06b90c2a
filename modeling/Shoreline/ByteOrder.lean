import Shoreline.Drawing
import Shoreline.NodeArrival

/-!
# The picture on hosts of either byte order

The same pixel commands and coalesces on a little-endian and on a big-endian
host. The commands and `fb_coalesce` look for the alpha of a pixel at its first
byte, which is red on a big-endian host. The pictures agree while that makes
no difference.
-/

namespace Shoreline.ByteOrder

open Framebuffer NetConnection CommandScan Coordinates Coalesce Drawing NodeArrival StateMachine

/-- What a client or the screen loop asks for: a set of the given digits on a
node framebuffer, or a coalesce. -/
inductive Ask where
  | set (node : ℕ) (x y : UInt32) (digits : List UInt8)
  | coalesce (rand : Rand)

/-- The operation that it is on a host. -/
def Ask.op (host : Host) : Ask → SurfaceOp
  | .set node x y digits => .set node x y (colour host digits)
  | .coalesce rand => .coalesce rand

/-- A build for another host. -/
def on (build : Build) (host : Host) : Build := {build with host := host}

/-- Perform what is asked for. -/
def askStep (build : Build) : Step Ask ℤ Surface :=
  fun s ask => surfaceStep build s (ask.op build.host)

/-- The framebuffer is what `fb_alloc` returned on the host. -/
def Created (host : Host) (size : FbSize) (fb : Fb) : Prop :=
  ∃ node block numaNode,fbAlloc host node block numaNode size=.ok fb

/-- All framebuffers were created so, the node framebuffers with the given
sizes. -/
structure CreatedOn (host : Host) (size : FbSize) (sizes : List FbSize) (s : Surface) : Prop where
  /-- The main framebuffer. -/
  main : Created host size s.main
  /-- As many node framebuffers as sizes. -/
  length : s.fbs.length=sizes.length
  /-- Each of its size. -/
  fbs : ∀ (k : ℕ) (fb : Fb), s.fbs[k]?=some fb → ∃ size, sizes[k]?=some size ∧ Created host size fb

/-- It is asked for on a framebuffer that exists. -/
def Ask.Addresses (k : ℕ) : Ask → Prop
  | .set node _ _ _ => node<k
  | .coalesce _ => True

/-- The main framebuffers have the same channels everywhere, as the two hosts
read them. -/
def SameChannels (le be : Fb) : Prop :=
  ∀ i<le.size.product,
    channels .littleEndian (le.pixels i)=channels .bigEndian (be.pixels i)

/-- Both hosts perform everything with the same results and the same picture. -/
def SamePicture (build : Build) (le be : Surface) (asks : List Ask) : Prop :=
  ∃ replies le' be',run (askStep (on build .littleEndian)) le asks=some (replies,le') ∧
    run (askStep (on build .bigEndian)) be asks=some (replies,be') ∧ SameChannels le'.main be'.main

/-- A colour drawn over an old pixel, as a little-endian host has them: more
than six digits; without blending not transparent and red at once; with
blending opaque, or not fully red and over a pixel that is not transparent, or
neither red nor visible. -/
def SetFine (build : Build) (old : FbPixel) (digits : List UInt8) : Prop :=
  let new := colour .littleEndian digits
  6<digits.length ∧
    if build.featureAlphaBlending then
      new.alpha=0xff ∨ (new.red≠0xff ∧ old.alpha≠0) ∨ (new.alpha=0 ∧ new.red=0)
    else new.alpha=0 → new.red=0

/-- A node pixel merged into the main one, as a little-endian host has them:
not marked; or with some red, and with blending fully red only if opaque; or
what is shown already. -/
def MergeFine (build : Build) (main other : FbPixel) : Prop :=
  other.alpha=0 ∨
    (other.red≠0 ∧ (build.featureAlphaBlending=true → other.red=0xff → other.alpha=0xff)) ∨
    (other=main ∧ (build.featureAlphaBlending=true → other.alpha=0xff))

/-- Every merge of the loop of `fb_coalesce` is fine. -/
def LoopFine (build : Build) : List ℕ → Fb → List Fb → Prop
  | [],_,_ => True
  | i::indices,fb,fbs =>
    match fbs[i]? with
    | none => True
    | some other =>
      if fb.size.width≠other.size.width ∨ fb.size.height≠other.size.height then True
      else
        (∀ j<fb.size.product,MergeFine build (fb.pixels j) (other.pixels j)) ∧
          let out := coalescePixels (on build .littleEndian) fb other fb.size.product
          LoopFine build indices out.1 (fbs.set i out.2)

/-- What is asked for is fine on a little-endian host. -/
def AskFine (build : Build) (s : Surface) : Ask → Prop
  | .set node x y digits => ∀ fb, s.fbs[node]?=some fb → fb.size.Contains x y →
      fbIndex fb x y<fb.size.product → SetFine build (fb.pixels (fbIndex fb x y)) digits
  | .coalesce rand => ∀ indices, arrayShuffle rand (List.range s.fbs.length)=some indices →
      LoopFine build indices s.main s.fbs

/-- A node pixel on both hosts: where it is marked it has the same channels. -/
def Mirrors (le be : FbPixel) : Prop :=
  if le.alpha=0 then be.redBe=0 else channels .littleEndian le=channels .bigEndian be

/-- A node framebuffer on both hosts. -/
structure NodeMirrors (le be : Fb) : Prop where
  /-- The size. -/
  size : le.size=be.size
  /-- The pixels of the block. -/
  pixels : ∀ i<le.size.product,Mirrors (le.pixels i) (be.pixels i)

/-- All framebuffers on both hosts. -/
structure SurfaceMirrors (le be : Surface) : Prop where
  /-- The size of the screen. -/
  size : le.main.size=be.main.size
  /-- The picture. -/
  main : SameChannels le.main be.main
  /-- The number of node framebuffers. -/
  length : le.fbs.length=be.fbs.length
  /-- Each of them. -/
  node : ∀ (k : ℕ) (p q : Fb), le.fbs[k]?=some p → be.fbs[k]?=some q → NodeMirrors p q

/-- The bytes in the other order. -/
def swap (p : FbPixel) : FbPixel := ⟨p.byte3,p.byte2,p.byte1,p.byte0⟩

/-- The same channels are the same bytes in the other order. -/
theorem channels_eq_iff (p q : FbPixel) :
    channels .littleEndian p=channels .bigEndian q ↔ q=swap p := by
  cases p
  cases q
  simp only [channels,isBigEndian,FbPixel.red,FbPixel.green,FbPixel.blue,FbPixel.alpha,
    FbPixel.redBe,FbPixel.greenBe,FbPixel.blueBe,FbPixel.alphaBe,swap,Bool.false_eq_true,if_false,
    if_true,Channels.mk.injEq,FbPixel.mk.injEq]
  constructor
  · rintro ⟨rfl,rfl,rfl,rfl⟩
    exact ⟨rfl,rfl,rfl,rfl⟩
  · rintro ⟨rfl,rfl,rfl,rfl⟩
    exact ⟨rfl,rfl,rfl,rfl⟩

/-- More than six digits are the same colour on both hosts. -/
theorem colour_swap {digits : List UInt8} (h : 6<digits.length) :
    colour .bigEndian digits=swap (colour .littleEndian digits) := by
  rw [colour,if_pos h,colour,if_pos h]
  rfl

/-- Blending is the same on both hosts. -/
theorem fbAlphaBlendPixel_swap (new old : FbPixel) :
    fbAlphaBlendPixel .bigEndian (swap new) (swap old)=
      swap (fbAlphaBlendPixel .littleEndian new old) := by
  by_cases houta : fbAlphaBlendAlpha old.byte0 new.byte0=0 <;>
    simp [fbAlphaBlendPixel,isBigEndian,swap,houta]

/-- An opaque colour covers what is below it. -/
theorem fbAlphaBlendChannel_covers (oldc newc olda : UInt8) :
    UInt8.ofNat (fbAlphaBlendChannel oldc newc olda 0xff 0xff)=newc := by
  have hsolid : (0xff : UInt8).toNat=255 := rfl
  rw [fbAlphaBlendChannel,hsolid,Nat.sub_self,Nat.mul_zero,Nat.zero_div,Nat.add_zero,
    Nat.mul_div_cancel _ (by decide)]
  exact UInt8.ofNat_toNat

/-- It stays opaque. -/
theorem fbAlphaBlendAlpha_covers (olda : UInt8) : fbAlphaBlendAlpha olda 0xff=0xff := by
  have hsolid : (0xff : UInt8).toNat=255 := rfl
  rw [fbAlphaBlendAlpha,hsolid,Nat.sub_self,Nat.mul_zero,Nat.zero_div]
  rfl

/-- Blending an opaque pixel stores it. -/
theorem fbAlphaBlendPixel_covers {new : FbPixel} (old : FbPixel) (h : new.alphaBe=0xff) :
    fbAlphaBlendPixel .bigEndian new old=new := by
  cases new
  rw [FbPixel.alphaBe] at h
  dsimp only at h
  rw [h]
  simp only [fbAlphaBlendPixel,isBigEndian,if_true,fbAlphaBlendAlpha_covers,
    fbAlphaBlendChannel_covers]
  rw [if_pos (by decide)]

/-- Without a colour of its own a pixel keeps an unmarked one unmarked. -/
theorem fbAlphaBlendPixel_transparent {new old : FbPixel} (halpha : new.alphaBe=0)
    (hred : new.redBe=0) (hold : old.redBe=0) : (fbAlphaBlendPixel .bigEndian new old).redBe=0 := by
  cases new
  cases old
  dsimp only [FbPixel.alphaBe,FbPixel.redBe] at halpha hred hold
  rw [halpha,hred,hold]
  simp only [fbAlphaBlendPixel,isBigEndian,if_true]
  split
  · have hzero : (0 : UInt8).toNat=0 := rfl
    simp only [FbPixel.redBe,fbAlphaBlendChannel,hzero,Nat.zero_mul,Nat.zero_div,Nat.add_zero]
    rfl
  · rfl

/-- A blended pixel without alpha has no colour. -/
theorem red_of_fbAlphaBlendPixel {new old : FbPixel}
    (h : (fbAlphaBlendPixel .littleEndian new old).alpha=0) :
    (fbAlphaBlendPixel .littleEndian new old).red=0 := by
  by_cases houta : fbAlphaBlendAlpha old.byte0 new.byte0=0
  · simp [fbAlphaBlendPixel,isBigEndian,houta,FbPixel.red]
  · simp [fbAlphaBlendPixel,isBigEndian,houta,FbPixel.alpha] at h

/-- Below a transparent colour a pixel keeps its alpha. -/
theorem alpha_of_transparent {new old : FbPixel} (hnew : new.alpha=0) (hold : old.alpha=0) :
    (fbAlphaBlendPixel .littleEndian new old).alpha=0 := by
  have houta : fbAlphaBlendAlpha old.byte0 new.byte0=0 := by
    rw [show old.byte0=0 from hold,show new.byte0=0 from hnew]
    rfl
  simp [fbAlphaBlendPixel,isBigEndian,houta,FbPixel.alpha]

/-- A pixel mirrors itself unless it is red without being marked. -/
theorem mirrors_swap {p : FbPixel} (h : p.alpha=0 → p.red=0) : Mirrors p (swap p) := by
  rw [Mirrors]
  split
  · next halpha => exact h halpha
  · exact (channels_eq_iff p (swap p)).mpr rfl

/-- A marked pixel is mirrored by its bytes in the other order. -/
theorem Mirrors.eq_swap {le be : FbPixel} (h : Mirrors le be) (hle : le.alpha≠0) : be=swap le := by
  rw [Mirrors,if_neg hle] at h
  exact (channels_eq_iff le be).mp h

/-- A colour that covers what is below it is stored as it is. -/
theorem storedPixel_le {build : Build} {new : FbPixel} (old : FbPixel)
    (h : build.featureAlphaBlending=true → new.alpha=0xff) :
    storedPixel (on build .littleEndian) new old=new := by
  refine if_neg fun hblend => ?_
  rw [Bool.and_eq_true,decide_eq_true_eq] at hblend
  exact hblend.2 (h hblend.1)

/-- So it is on the other host, blended or not. -/
theorem storedPixel_be {build : Build} {new : FbPixel} (old : FbPixel)
    (h : build.featureAlphaBlending=true → new.alpha=0xff) :
    storedPixel (on build .bigEndian) (swap new) old=swap new := by
  rw [storedPixel]
  split
  · next hblend =>
      rw [Bool.and_eq_true] at hblend
      exact fbAlphaBlendPixel_covers old (h hblend.1)
  · rfl

/-- A colour that is neither opaque nor fully red is blended on both hosts. -/
theorem storedPixel_swap {build : Build} {new : FbPixel} (old : FbPixel)
    (hblend : build.featureAlphaBlending=true) (halpha : new.alpha≠0xff) (hred : new.red≠0xff) :
    storedPixel (on build .littleEndian) new old=fbAlphaBlendPixel .littleEndian new old ∧
      ∀ old', storedPixel (on build .bigEndian) (swap new) old'=
        fbAlphaBlendPixel .bigEndian (swap new) old' := by
  refine ⟨if_pos ?_,fun old' => if_pos ?_⟩
  · rw [Bool.and_eq_true,decide_eq_true_eq]
    exact ⟨hblend,halpha⟩
  · rw [Bool.and_eq_true,decide_eq_true_eq]
    exact ⟨hblend,hred⟩

/-- A set keeps a node pixel the same on both hosts. -/
theorem mirrors_storedPixel {build : Build} {le be : FbPixel} {digits : List UInt8}
    (h : Mirrors le be) (hfine : SetFine build le digits) :
    Mirrors (storedPixel (on build .littleEndian) (colour .littleEndian digits) le)
      (storedPixel (on build .bigEndian) (colour .bigEndian digits) be) := by
  obtain ⟨hlong,hcolour⟩ := hfine
  rw [colour_swap hlong]
  generalize colour .littleEndian digits=new at hcolour ⊢
  by_cases hcovers : build.featureAlphaBlending=true → new.alpha=0xff
  · rw [storedPixel_le le hcovers,storedPixel_be be hcovers]
    refine mirrors_swap fun hzero => ?_
    by_cases hblend : build.featureAlphaBlending=true
    · rw [hcovers hblend] at hzero
      exact absurd hzero (by decide)
    · rw [if_neg hblend] at hcolour
      exact hcolour hzero
  · rw [Classical.not_imp] at hcovers
    obtain ⟨hblend,halpha⟩ := hcovers
    rw [if_pos hblend] at hcolour
    have hred : new.red≠0xff := by
      obtain hsolid | hover | hnothing := hcolour
      · exact absurd hsolid halpha
      · exact hover.1
      · rw [hnothing.2]
        decide
    obtain ⟨hle,hbe⟩ := storedPixel_swap le hblend halpha hred
    rw [hle,hbe]
    by_cases hmarked : le.alpha=0
    · -- both pixels stay unmarked below a colour that is not there
      obtain hsolid | hover | hnothing := hcolour
      · exact absurd hsolid halpha
      · exact absurd hmarked hover.2
      · rw [Mirrors,if_pos hmarked] at h
        rw [Mirrors,if_pos (alpha_of_transparent hnothing.1 hmarked)]
        exact fbAlphaBlendPixel_transparent hnothing.1 hnothing.2 h
    · rw [h.eq_swap hmarked,fbAlphaBlendPixel_swap]
      exact mirrors_swap red_of_fbAlphaBlendPixel

/-- A merge stores the pixel over the one below unless it is not marked. -/
theorem mergePixel_eq_stored (build : Build) (main other : FbPixel) :
    mergePixel build main other=
      if other.alpha=0 then main else storedPixel build other main := by
  rw [mergePixel,storedPixel]
  by_cases hzero : other.alpha=0
  · rw [if_pos hzero,if_pos hzero]
  · cases build.featureAlphaBlending with
    | true =>
      by_cases hsolid : other.alpha=0xff <;> simp [hsolid]
    | false => simp

/-- A merge keeps the main pixel the same on both hosts. -/
theorem channels_mergePixel {build : Build} {main main' le be : FbPixel}
    (hmain : channels .littleEndian main=channels .bigEndian main') (h : Mirrors le be)
    (hfine : MergeFine build main le) :
    channels .littleEndian (mergePixel (on build .littleEndian) main le)=
      channels .bigEndian (mergePixel (on build .bigEndian) main' be) := by
  rw [channels_eq_iff] at hmain ⊢
  rw [mergePixel_eq_stored,mergePixel_eq_stored,hmain]
  by_cases hmarked : le.alpha=0
  · rw [Mirrors,if_pos hmarked] at h
    rw [if_pos hmarked,if_pos (show be.alpha=0 from h)]
  · rw [if_neg hmarked,h.eq_swap hmarked]
    obtain hnone | ⟨hred,hfull⟩ | ⟨hsame,hcovers⟩ := hfine
    · exact absurd hnone hmarked
    · -- on the other host the pixel is found by its red
      rw [if_neg (show (swap le).alpha≠0 from hred)]
      by_cases hcovers : build.featureAlphaBlending=true → le.alpha=0xff
      · rw [storedPixel_le main hcovers,storedPixel_be (swap main) hcovers]
      · rw [Classical.not_imp] at hcovers
        obtain ⟨hblend,halpha⟩ := hcovers
        obtain ⟨hle,hbe⟩ :=
          storedPixel_swap main hblend halpha fun hff => halpha (hfull hblend hff)
        rw [hle,hbe,fbAlphaBlendPixel_swap]
    · rw [storedPixel_le main hcovers,storedPixel_be (swap main) hcovers,hsame,ite_self]

/-- What was marked on neither host or was just cleared mirrors itself. -/
theorem mirrors_cleared (le be : FbPixel) : Mirrors (le.setAlpha 0) (be.setAlpha 0) := by
  rw [Mirrors,if_pos (show (le.setAlpha 0).alpha=0 from rfl)]
  rfl

/-- Clearing keeps a node framebuffer the same on both hosts. -/
theorem NodeMirrors.clear {le be : Fb} (h : NodeMirrors le be) (n : ℕ) :
    NodeMirrors (cleared n le) (cleared n be) := by
  refine ⟨h.size,fun i hi => ?_⟩
  dsimp only [cleared]
  split
  · exact mirrors_cleared _ _
  · exact h.pixels i hi

/-- A node framebuffer is replaced on both hosts. -/
theorem SurfaceMirrors.set {le be : Surface} (h : SurfaceMirrors le be) {p q : Fb}
    (hnode : NodeMirrors p q) (k : ℕ) :
    SurfaceMirrors {le with fbs := le.fbs.set k p} {be with fbs := be.fbs.set k q} := by
  refine ⟨h.size,h.main,?_,fun l p' q' hp hq => ?_⟩
  · rw [List.length_set,List.length_set,h.length]
  · dsimp only at hp hq
    rw [List.getElem?_set] at hp hq
    by_cases hkl : k=l
    · rw [if_pos hkl] at hp hq
      split at hp
      · rw [if_pos (h.length ▸ ‹_›)] at hq
        cases hp
        cases hq
        exact hnode
      · cases hp
    · rw [if_neg hkl] at hp hq
      exact h.node l p' q' hp hq

/-- A node framebuffer that exists on one host exists on the other. -/
theorem SurfaceMirrors.get {le be : Surface} (h : SurfaceMirrors le be) {k : ℕ}
    (hk : k<le.fbs.length) :
    ∃ p q,le.fbs[k]?=some p ∧ be.fbs[k]?=some q ∧ NodeMirrors p q := by
  have hp := List.getElem?_eq_getElem hk
  have hq := List.getElem?_eq_getElem (h.length ▸ hk : k<be.fbs.length)
  exact ⟨_,_,hp,hq,h.node k _ _ hp hq⟩

/-- The merge of one node framebuffer, if it is fine. -/
theorem SurfaceMirrors.merge {build : Build} {le be : Surface} (h : SurfaceMirrors le be)
    {p q : Fb} (hnode : NodeMirrors p q) (hsize : le.main.size=p.size) (k : ℕ)
    (hfine : ∀ j<le.main.size.product,MergeFine build (le.main.pixels j) (p.pixels j)) :
    let out := coalescePixels (on build .littleEndian) le.main p le.main.size.product
    let out' := coalescePixels (on build .bigEndian) be.main q be.main.size.product
    SurfaceMirrors ⟨out.1,le.fbs.set k out.2⟩ ⟨out'.1,be.fbs.set k out'.2⟩ := by
  dsimp only
  rw [coalescePixels_eq,coalescePixels_eq,← h.size]
  have hset := h.set (hnode.clear le.main.size.product) k
  refine ⟨rfl,fun i hi => ?_,hset.length,hset.node⟩
  dsimp only at hi ⊢
  rw [if_pos hi,if_pos hi]
  exact channels_mergePixel (h.main i hi) (hnode.pixels i (hsize ▸ hi)) (hfine i hi)

/-- The loop of `fb_coalesce`, if all its merges are fine. -/
theorem coalesceLoop_mirrors {build : Build} {indices : List ℕ} {le be : Surface}
    (h : SurfaceMirrors le be) (hin : ∀ k∈indices,k<le.fbs.length)
    (hfine : LoopFine build indices le.main le.fbs) :
    ∃ out out',coalesceLoop (on build .littleEndian) indices le.main le.fbs=some out ∧
      coalesceLoop (on build .bigEndian) indices be.main be.fbs=some out' ∧
      out.ret=out'.ret ∧ SurfaceMirrors ⟨out.fb,out.fbs⟩ ⟨out'.fb,out'.fbs⟩ := by
  induction indices generalizing le be with
  | nil => exact ⟨_,_,rfl,rfl,rfl,h⟩
  | cons k indices ih =>
    obtain ⟨hk,hrest⟩ := List.forall_mem_cons.mp hin
    obtain ⟨p,q,hp,hq,hnode⟩ := h.get hk
    rw [LoopFine,hp] at hfine
    rw [coalesceLoop,coalesceLoop,hp,hq]
    dsimp only at hfine ⊢
    rw [← h.size,← hnode.size]
    split
    · exact ⟨_,_,rfl,rfl,rfl,h⟩
    · next hsizes =>
        rw [if_neg hsizes] at hfine
        rw [not_or,not_not,not_not] at hsizes
        have hsize : le.main.size=p.size := by
          cases hle : le.main.size
          cases hother : p.size
          rw [hle,hother] at hsizes
          exact FbSize.mk.injEq .. ▸ hsizes
        have hmerged := h.merge hnode hsize k hfine.1
        have hlength : ∀ l∈indices,l<(le.fbs.set k
            (coalescePixels (on build .littleEndian) le.main p le.main.size.product).2).length := by
          intro l hl
          rw [List.length_set]
          exact hrest l hl
        rw [← h.size] at hmerged
        exact ih hmerged hlength hfine.2

/-- A pixel is stored on both hosts. -/
theorem NodeMirrors.store {p q p' q' : Fb} (h : NodeMirrors p q) {i : ℕ} {a b : FbPixel}
    (hp : p'.size=p.size ∧ p'.pixels=writePixel p.pixels i a)
    (hq : q'.size=q.size ∧ q'.pixels=writePixel q.pixels i b)
    (hmirrors : i<p.size.product → Mirrors a b) : NodeMirrors p' q' := by
  refine ⟨by rw [hp.1,hq.1,h.size],fun j hj => ?_⟩
  rw [hp.1] at hj
  rw [hp.2,hq.2,writePixel,writePixel]
  by_cases hji : j=i
  · rw [if_pos hji,if_pos hji]
    exact hmirrors (hji ▸ hj)
  · rw [if_neg hji,if_neg hji]
    exact h.pixels j hj

/-- A set that is fine goes through on both hosts. -/
theorem set_mirrors {build : Build} {le be : Surface} (h : SurfaceMirrors le be) {node : ℕ}
    {x y : UInt32} {digits : List UInt8} (hnode : node<le.fbs.length)
    (hfine : AskFine build le (.set node x y digits)) :
    ∃ r le' be',askStep (on build .littleEndian) le (.set node x y digits)=some (r,le') ∧
      askStep (on build .bigEndian) be (.set node x y digits)=some (r,be') ∧
      SurfaceMirrors le' be' ∧ le'.fbs.length=le.fbs.length := by
  obtain ⟨p,q,hp,hq,hpq⟩ := h.get hnode
  simp only [askStep,Ask.op,surfaceStep,hp,hq]
  by_cases hin : p.size.Contains x y
  · have hin' : q.size.Contains x y := hpq.size ▸ hin
    have hindex : fbIndex q x y=fbIndex p x y := by rw [fbIndex,fbIndex,hpq.size]
    rw [netDraw_eq _ _ (freshSession p) hin,netDraw_eq _ _ (freshSession q) hin']
    refine ⟨_,_,_,if_pos rfl,if_pos rfl,h.set ?_ node,List.length_set⟩
    refine hpq.store ⟨(netCountPixel_frame _ p).1,rfl⟩ ⟨(netCountPixel_frame _ q).1,?_⟩ fun hi =>
      mirrors_storedPixel (hpq.pixels (fbIndex p x y) hi) (hfine p hp hin hi)
    rw [show fbIndex (freshSession p).fb x y=fbIndex q x y from hindex.symm,←hindex]
    rfl
  · have hin' : ¬q.size.Contains x y := hpq.size ▸ hin
    rw [netDraw_outside _ _ (show ¬(freshSession p).fb.size.Contains x y from hin),
      netDraw_outside _ _ (show ¬(freshSession q).fb.size.Contains x y from hin')]
    exact ⟨_,_,_,if_pos rfl,if_pos rfl,h.set hpq node,List.length_set⟩

/-- A coalesce that is fine goes through on both hosts. -/
theorem coalesce_mirrors {build : Build} {le be : Surface} (h : SurfaceMirrors le be)
    {rand : Rand} (hfine : AskFine build le (.coalesce rand)) :
    ∃ r le' be',askStep (on build .littleEndian) le (.coalesce rand)=some (r,le') ∧
      askStep (on build .bigEndian) be (.coalesce rand)=some (r,be') ∧
      SurfaceMirrors le' be' ∧ le'.fbs.length=le.fbs.length := by
  obtain ⟨order,hshuffle,hperm⟩ := arrayShuffle_perm rand (List.range le.fbs.length)
  have hin : ∀ k∈order,k<le.fbs.length := fun k hk => List.mem_range.mp (hperm.mem_iff.mp hk)
  obtain ⟨out,out',hle,hbe,hret,hout⟩ := coalesceLoop_mirrors h hin (hfine order hshuffle)
  have hlength : out.fbs.length=le.fbs.length := by
    obtain ⟨other,hother,-,hshape⟩ :=
      coalesceLoop_shape (on build .littleEndian) order le.main hin
    rw [hle] at hother
    cases hother
    simpa only [List.length_map] using congrArg List.length hshape
  refine ⟨out.ret,⟨out.fb,out.fbs⟩,⟨out'.fb,out'.fbs⟩,?_,?_,hout,hlength⟩
  · simp only [askStep,Ask.op,surfaceStep,fbCoalesce,hshuffle,Option.bind_some,hle,Option.map_some]
  · rw [h.length] at hshuffle
    simp only [askStep,Ask.op,surfaceStep,fbCoalesce,hshuffle,Option.bind_some,hbe,Option.map_some,
      hret]

/-- Newly created framebuffers are the same on both hosts. -/
theorem created_mirrors {size : FbSize} {p q : Fb} (hp : Created .littleEndian size p)
    (hq : Created .bigEndian size q) : p.size=q.size ∧
      ∀ i<p.size.product,channels .littleEndian (p.pixels i)=channels .bigEndian (q.pixels i) := by
  obtain ⟨node,block,numaNode,hp⟩ := hp
  obtain ⟨node',block',numaNode',hq⟩ := hq
  have hsizep : p.size=size := congrArg Prod.fst (ServerRun.fbAlloc_shape hp)
  have hsizeq : q.size=size := congrArg Prod.fst (ServerRun.fbAlloc_shape hq)
  refine ⟨hsizep.trans hsizeq.symm,fun i hi => ?_⟩
  rw [hsizep] at hi
  rw [fbAlloc_fresh hp hi,fbAlloc_fresh hq hi]
  rfl

/-- Newly created surfaces are the same on both hosts. -/
theorem createdOn_mirrors {size : FbSize} {sizes : List FbSize} {le be : Surface}
    (hle : CreatedOn .littleEndian size sizes le) (hbe : CreatedOn .bigEndian size sizes be) :
    SurfaceMirrors le be := by
  obtain ⟨hsize,hmain⟩ := created_mirrors hle.main hbe.main
  refine ⟨hsize,hmain,hle.length.trans hbe.length.symm,fun k p q hp hq => ?_⟩
  obtain ⟨size',hsizes,hcreated⟩ := hle.fbs k p hp
  obtain ⟨size'',hsizes',hcreated'⟩ := hbe.fbs k q hq
  rw [hsizes] at hsizes'
  cases hsizes'
  obtain ⟨hpq,hpixels⟩ := created_mirrors hcreated hcreated'
  refine ⟨hpq,fun i hi => ?_⟩
  rw [(channels_eq_iff _ _).mp (hpixels i hi)]
  refine mirrors_swap fun halpha => ?_
  -- a new pixel is opaque
  obtain ⟨node,block,numaNode,halloc⟩ := hcreated
  have hfresh : i<size'.product := by
    rw [show p.size=size' from congrArg Prod.fst (ServerRun.fbAlloc_shape halloc)] at hi
    exact hi
  rw [fbAlloc_fresh halloc hfresh] at halpha
  exact absurd halpha (by decide)

/-- For every build, all sizes of the framebuffers, and every sequence of sets
and coalesces that are fine, hosts of either byte order show the same
picture. -/
theorem samePicture_of_fine (build : Build) (size : FbSize) (sizes : List FbSize) (le be : Surface)
    (hle : CreatedOn .littleEndian size sizes le) (hbe : CreatedOn .bigEndian size sizes be)
    (asks : List Ask) (hnodes : ∀ ask∈asks,ask.Addresses sizes.length)
    (hfine : Admitted (AskFine build) (askStep (on build .littleEndian)) le asks) :
    SamePicture build le be asks := by
  have hstep : ∀ s t ask, (SurfaceMirrors s t ∧ s.fbs.length=sizes.length) →
      (ask.Addresses sizes.length ∧ AskFine build s ask) →
      ∃ r s' t',askStep (on build .littleEndian) s ask=some (r,s') ∧
        askStep (on build .bigEndian) t ask=some (r,t') ∧
        SurfaceMirrors s' t' ∧ s'.fbs.length=sizes.length := by
    rintro s t ask ⟨hmirrors,hlength⟩ ⟨haddress,hask⟩
    cases ask with
    | set node x y digits =>
      obtain ⟨r,s',t',hs,ht,hout,hkeep⟩ :=
        set_mirrors hmirrors (hlength ▸ haddress : node<s.fbs.length) hask
      exact ⟨r,s',t',hs,ht,hout,hkeep.trans hlength⟩
    | coalesce rand =>
      obtain ⟨r,s',t',hs,ht,hout,hkeep⟩ := coalesce_mirrors hmirrors hask
      exact ⟨r,s',t',hs,ht,hout,hkeep.trans hlength⟩
  obtain ⟨replies,le',be',hrunle,hrunbe,hout,-⟩ :=
    run_refines hstep ⟨createdOn_mirrors hle hbe,hle.length⟩ (hfine.and_forall hnodes)
  exact ⟨replies,le',be',hrunle,hrunbe,hout.main⟩

/-- A framebuffer of one pixel as `fb_alloc` leaves it. -/
def onePixel (host : Host) : Fb :=
  ⟨⟨1,1⟩,1,fbAllocFill host 1 (zeroBlock 1 fun _ => ⟨0,0,0,0⟩),0,0⟩

/-- A screen of one pixel with one node framebuffer. -/
def onePixelSurface (host : Host) : Surface := ⟨onePixel host,[onePixel host]⟩

/-- It was created so. -/
theorem onePixelSurface_created (host : Host) :
    CreatedOn host ⟨1,1⟩ [⟨1,1⟩] (onePixelSurface host) := by
  have hcreated : Created host ⟨1,1⟩ (onePixel host) := ⟨some 0,some fun _ => ⟨0,0,0,0⟩,0,rfl⟩
  refine ⟨hcreated,rfl,fun k fb hfb => ?_⟩
  obtain ⟨hk,rfl⟩ := List.getElem?_eq_some_iff.mp hfb
  have hzero : k=0 := Nat.lt_one_iff.mp hk
  subst hzero
  exact ⟨⟨1,1⟩,rfl,hcreated⟩

/-- A build without any feature. -/
def plainBuild : Build := ⟨false,false,false,false,false,.littleEndian⟩

/-- `PX 0 0 80ff00ff`, which is merged. -/
def eightDigits : List Ask :=
  [.set 0 0 0 [0x38,0x30,0x66,0x66,0x30,0x30,0x66,0x66],.coalesce zeroRand]

/-- `PX 0 0 80ff00`, which is merged. -/
def sixDigits : List Ask := [.set 0 0 0 [0x38,0x30,0x66,0x66,0x30,0x30],.coalesce zeroRand]

/-- Eight digits are the same colour on both hosts. -/
theorem samePicture_of_fine_eight :
    SamePicture plainBuild (onePixelSurface .littleEndian) (onePixelSurface .bigEndian)
      eightDigits := by
  refine samePicture_of_fine plainBuild ⟨1,1⟩ [⟨1,1⟩] _ _ (onePixelSurface_created _)
    (onePixelSurface_created _) eightDigits ?_ ⟨?_,fun r s' hset => ⟨?_,fun _ _ _ => trivial⟩⟩
  · exact List.forall_mem_cons.mpr ⟨Nat.one_pos,List.forall_mem_singleton.mpr trivial⟩
  · intro fb _ _ _
    refine ⟨by decide,?_⟩
    rw [if_neg (by decide)]
    exact fun halpha => absurd halpha (by decide)
  · cases hset
    intro indices hindices
    cases (hindices.symm.trans (show arrayShuffle zeroRand (List.range 1)=some [0] from rfl))
    refine ⟨fun j hj => ?_,trivial⟩
    rw [Nat.lt_one_iff.mp hj]
    exact Or.inr (Or.inl ⟨by decide,fun hblend => absurd hblend (by decide)⟩)

/-- Six digits are fully red on a big-endian host, and without alpha. -/
theorem six_not_samePicture : ¬∀ build size sizes le be asks,
    CreatedOn .littleEndian size sizes le → CreatedOn .bigEndian size sizes be →
      (∀ ask∈asks,ask.Addresses sizes.length) → SamePicture build le be asks := by
  intro h
  obtain ⟨replies,le',be',hle,hbe,hsame⟩ := h plainBuild ⟨1,1⟩ [⟨1,1⟩] _ _ sixDigits
    (onePixelSurface_created _) (onePixelSurface_created _)
    (List.forall_mem_cons.mpr ⟨Nat.one_pos,List.forall_mem_singleton.mpr trivial⟩)
  cases hle
  cases hbe
  exact absurd (hsame 0 Nat.one_pos) (by decide)

end Shoreline.ByteOrder
