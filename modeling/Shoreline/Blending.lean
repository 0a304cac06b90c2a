import Shoreline.Drawing
import Shoreline.Library.TruncatedMean

/-!
# Blending

The alpha of a blended pixel is cut off before the channels are divided by
it. The channels are never below both of their inputs, but between two
translucent pixels they can be above both, and then even leave eight bits.
Where that does not happen, drawing and merging keep every channel between
those of the colours that were there and those that were drawn.
-/

namespace Shoreline.Blending

open Framebuffer NetConnection Coordinates Coalesce StateMachine Drawing

/-- The colour channels. -/
inductive Shade where
  | blue
  | green
  | red
  deriving DecidableEq, Repr

/-- A channel of a pixel, through the accessor of the host. -/
def shade (host : Host) (c : Shade) (p : FbPixel) : UInt8 :=
  match c with
  | .blue => (channels host p).blue
  | .green => (channels host p).green
  | .red => (channels host p).red

/-- The alpha of a pixel, through the accessor of the host. -/
def alphaOn (host : Host) (p : FbPixel) : UInt8 := (channels host p).alpha

/-- Store to a channel. -/
def setShade (host : Host) (c : Shade) (p : FbPixel) (value : UInt8) : FbPixel :=
  match host,c with
  | .littleEndian,.blue => {p with byte1 := value}
  | .littleEndian,.green => {p with byte2 := value}
  | .littleEndian,.red => {p with byte3 := value}
  | .bigEndian,.blue => {p with byte2 := value}
  | .bigEndian,.green => {p with byte1 := value}
  | .bigEndian,.red => {p with byte0 := value}

/-- Store to the alpha. -/
def setAlphaOn (host : Host) (p : FbPixel) (value : UInt8) : FbPixel :=
  if isBigEndian host then p.setAlphaBe value else p.setAlpha value

/-- Pixels in memory while they are blended. -/
structure Blend (Loc : Type*) where
  mem : Loc → FbPixel
  /-- The channels computed so far, before they are stored in eight bits. -/
  computed : List (Shade×ℕ)

variable {Loc : Type*} [DecidableEq Loc]

/-- The assignment to one channel in `FB_ALPHA_BLEND_PIXEL`. It reads the pixels
as the assignments before it have left them. -/
def blendShade (host : Host) (out new old : Loc) (outa : UInt8) (b : Blend Loc) (c : Shade) :
    Blend Loc :=
  let value := fbAlphaBlendChannel (shade host c (b.mem old)) (shade host c (b.mem new))
    (alphaOn host (b.mem old)) (alphaOn host (b.mem new)) outa
  ⟨Function.update b.mem out (setShade host c (b.mem out) (UInt8.ofNat value)),
    b.computed++[(c,value)]⟩

/-- `FB_ALPHA_BLEND_PIXEL(out, new, old)` on pixels in memory, two or all of
which may be the same. -/
def fbAlphaBlendPixelAt (host : Host) (mem : Loc → FbPixel) (out new old : Loc) : Blend Loc :=
  let outa := fbAlphaBlendAlpha (alphaOn host (mem old)) (alphaOn host (mem new))
  let b : Blend Loc :=
    if outa≠0 then [Shade.blue,.green,.red].foldl (blendShade host out new old outa) ⟨mem,[]⟩
    else ⟨Function.update mem out (FbPixel.ofAbgr host 0),[]⟩
  {b with mem := Function.update b.mem out (setAlphaOn host (b.mem out) outa)}

/-- What the truncation of the alpha loses of the old channel is made up for
by the alpha and by the distance of the channels. -/
def ShadeFine (oldc newc olda newa : UInt8) : Prop :=
  oldc.toNat*(olda.toNat*(255-newa.toNat)%255)/255<
    newa.toNat+olda.toNat*(255-newa.toNat)/255+(oldc.toNat-newc.toNat)*newa.toNat+
      (newc.toNat-oldc.toNat)*(olda.toNat*(255-newa.toNat)/255)

instance (oldc newc olda newa : UInt8) : Decidable (ShadeFine oldc newc olda newa) :=
  inferInstanceAs (Decidable (_<_))

/-- So it is in all channels of two pixels. -/
def BlendFine (host : Host) (new old : FbPixel) : Prop :=
  ∀ c, ShadeFine (shade host c old) (shade host c new) (alphaOn host old) (alphaOn host new)

instance (host : Host) (new old : FbPixel) : Decidable (BlendFine host new old) :=
  decidable_of_iff
    (∀ c∈[Shade.blue,.green,.red],
      ShadeFine (shade host c old) (shade host c new) (alphaOn host old) (alphaOn host new))
    ⟨fun h c => h c (by cases c <;> decide),fun h c _ => h c⟩

/-- The alpha is computed without leaving eight bits. -/
theorem toNat_fbAlphaBlendAlpha (olda newa : UInt8) :
    (fbAlphaBlendAlpha olda newa).toNat=newa.toNat+olda.toNat*(255-newa.toNat)/255 := by
  have hnew := newa.toNat_lt
  have hold := olda.toNat_lt
  have hmul : olda.toNat*(255-newa.toNat)≤255*(255-newa.toNat) := Nat.mul_le_mul_right _ (by omega)
  have hdiv : olda.toNat*(255-newa.toNat)/255≤255-newa.toNat := by
    rw [Nat.div_le_iff_le_mul_add_pred (by decide)]
    omega
  rw [fbAlphaBlendAlpha,UInt8.toNat_ofNat']
  exact Nat.mod_eq_of_lt (by omega)

/-- A channel is a mean whose second weight is truncated. -/
theorem fbAlphaBlendChannel_eq_mean (oldc newc olda newa : UInt8) :
    fbAlphaBlendChannel oldc newc olda newa (fbAlphaBlendAlpha olda newa)=
      TruncatedMean.mean 255 newa.toNat (olda.toNat*(255-newa.toNat)) newc.toNat oldc.toNat := by
  rw [fbAlphaBlendChannel,TruncatedMean.mean,TruncatedMean.total,toNat_fbAlphaBlendAlpha,
    Nat.mul_assoc oldc.toNat]

/-- It is never below both inputs, and not above both exactly under the
condition. -/
theorem fbAlphaBlendChannel_between_iff (oldc newc : UInt8) {olda newa : UInt8}
    (h : fbAlphaBlendAlpha olda newa≠0) :
    (min oldc.toNat newc.toNat≤
          fbAlphaBlendChannel oldc newc olda newa (fbAlphaBlendAlpha olda newa) ∧
        fbAlphaBlendChannel oldc newc olda newa (fbAlphaBlendAlpha olda newa)≤
          max oldc.toNat newc.toNat) ↔ ShadeFine oldc newc olda newa := by
  have htotal : 0<TruncatedMean.total 255 newa.toNat (olda.toNat*(255-newa.toNat)) := by
    rw [TruncatedMean.total,←toNat_fbAlphaBlendAlpha]
    exact Nat.pos_of_ne_zero fun hzero => h (UInt8.toNat_inj.mp hzero)
  rw [fbAlphaBlendChannel_eq_mean,Nat.min_comm,Nat.max_comm,
    TruncatedMean.mean_le_max_iff (by decide) htotal]
  exact and_iff_right (TruncatedMean.min_le_mean (by decide) htotal)

/-- Without any alpha the condition does not hold. -/
theorem ShadeFine.alpha_ne {oldc newc olda newa : UInt8} (h : ShadeFine oldc newc olda newa) :
    fbAlphaBlendAlpha olda newa≠0 := by
  intro hzero
  have hsum := toNat_fbAlphaBlendAlpha olda newa
  rw [hzero] at hsum
  have hnew : newa.toNat=0 := by
    change 0=_ at hsum
    omega
  have hquot : olda.toNat*(255-newa.toNat)/255=0 := by
    change 0=_ at hsum
    omega
  rw [ShadeFine,hquot,hnew,Nat.mul_zero,Nat.mul_zero] at h
  exact absurd h (Nat.not_lt_zero _)

/-- Where an opaque pixel takes part, or the new one is transparent over one
that is not, nothing is lost. -/
theorem shadeFine_of_opaque (oldc newc : UInt8) {olda newa : UInt8}
    (h : olda=255 ∨ newa=255 ∨ newa=0 ∧ olda≠0) : ShadeFine oldc newc olda newa := by
  have hdvd : olda.toNat*(255-newa.toNat)%255=0 ∧
      0<newa.toNat+olda.toNat*(255-newa.toNat)/255 := by
    rcases h with rfl | rfl | ⟨rfl,hold⟩
    · have hnew := newa.toNat_lt
      change 255*(255-newa.toNat)%255=0 ∧ 0<newa.toNat+255*(255-newa.toNat)/255
      rw [Nat.mul_mod_right,Nat.mul_div_cancel_left _ (by decide)]
      omega
    · change olda.toNat*0%255=0 ∧ 0<255+olda.toNat*0/255
      omega
    · have hpos : 0<olda.toNat :=
        Nat.pos_of_ne_zero fun hzero => hold (UInt8.toNat_inj.mp hzero)
      change olda.toNat*255%255=0 ∧ 0<0+olda.toNat*255/255
      rw [Nat.mul_mod_left,Nat.mul_div_cancel _ (by decide)]
      omega
  rw [ShadeFine,hdvd.1,Nat.mul_zero,Nat.zero_div]
  omega

/-- The channels of a blended pixel. -/
theorem shade_fbAlphaBlendPixel (host : Host) (c : Shade) {new old : FbPixel}
    (h : fbAlphaBlendAlpha (alphaOn host old) (alphaOn host new)≠0) :
    shade host c (fbAlphaBlendPixel host new old)=
      UInt8.ofNat (fbAlphaBlendChannel (shade host c old) (shade host c new) (alphaOn host old)
        (alphaOn host new) (fbAlphaBlendAlpha (alphaOn host old) (alphaOn host new))) := by
  cases host with
  | littleEndian =>
    have hout : fbAlphaBlendAlpha old.byte0 new.byte0≠0 := h
    rw [fbAlphaBlendPixel,if_neg (by decide),if_pos hout]
    cases c <;> rfl
  | bigEndian =>
    have hout : fbAlphaBlendAlpha old.byte3 new.byte3≠0 := h
    rw [fbAlphaBlendPixel,if_pos (by decide),if_pos hout]
    cases c <;> rfl

/-- The alpha of a blended pixel. -/
theorem alphaOn_fbAlphaBlendPixel (host : Host) (new old : FbPixel) :
    alphaOn host (fbAlphaBlendPixel host new old)=
      fbAlphaBlendAlpha (alphaOn host old) (alphaOn host new) := by
  cases host with
  | littleEndian =>
    rw [fbAlphaBlendPixel,if_neg (by decide)]
    dsimp only
    split <;> rfl
  | bigEndian =>
    rw [fbAlphaBlendPixel,if_pos (by decide)]
    dsimp only
    split <;> rfl

/-- Storing to a channel leaves the others alone. -/
theorem shade_setShade (host : Host) {c c' : Shade} (p : FbPixel) (value : UInt8) (h : c'≠c) :
    shade host c' (setShade host c p value)=shade host c' p := by
  cases host <;> cases c <;> cases c' <;> first | rfl | exact absurd rfl h

/-- It leaves the alpha alone. -/
theorem alphaOn_setShade (host : Host) (c : Shade) (p : FbPixel) (value : UInt8) :
    alphaOn host (setShade host c p value)=alphaOn host p := by
  cases host <;> cases c <;> rfl

/-- What is the same for the stored and the overwritten pixel is the same for
all of memory. -/
theorem apply_update_same {β : Type*} (f : FbPixel → β) {mem : Loc → FbPixel} {out : Loc}
    {p : FbPixel} (h : f p=f (mem out)) (l : Loc) : f (Function.update mem out p l)=f (mem l) := by
  by_cases hl : l=out
  · rw [hl,Function.update_self,h]
  · rw [Function.update_of_ne hl]

/-- All four stores to a pixel make up a new one. -/
theorem setAlphaOn_setShade (host : Host) (p new old : FbPixel)
    (h : fbAlphaBlendAlpha (alphaOn host old) (alphaOn host new)≠0) :
    setAlphaOn host (setShade host .red (setShade host .green (setShade host .blue p
        (shade host .blue (fbAlphaBlendPixel host new old)))
        (shade host .green (fbAlphaBlendPixel host new old)))
        (shade host .red (fbAlphaBlendPixel host new old)))
      (fbAlphaBlendAlpha (alphaOn host old) (alphaOn host new))=fbAlphaBlendPixel host new old := by
  rw [←alphaOn_fbAlphaBlendPixel]
  cases host <;> rfl

/-- A blended pixel without alpha is all zero. -/
theorem fbAlphaBlendPixel_of_zero (host : Host) {new old : FbPixel}
    (h : fbAlphaBlendAlpha (alphaOn host old) (alphaOn host new)=0) :
    fbAlphaBlendPixel host new old=⟨0,0,0,0⟩ := by
  cases host with
  | littleEndian =>
    have hout : fbAlphaBlendAlpha old.byte0 new.byte0=0 := h
    rw [fbAlphaBlendPixel,if_neg (by decide)]
    dsimp only
    rw [hout]
    rfl
  | bigEndian =>
    have hout : fbAlphaBlendAlpha old.byte3 new.byte3=0 := h
    rw [fbAlphaBlendPixel,if_pos (by decide)]
    dsimp only
    rw [hout]
    rfl

/-- The channels that are computed, and the order in which they are. -/
def computedOf (host : Host) (new old : FbPixel) : List (Shade×ℕ) :=
  [Shade.blue,.green,.red].map fun c => (c,fbAlphaBlendChannel (shade host c old) (shade host c new)
    (alphaOn host old) (alphaOn host new)
    (fbAlphaBlendAlpha (alphaOn host old) (alphaOn host new)))

/-- Wherever the three pixels are, the stores go to the output alone, and what
is read are the values from before the first of them. -/
theorem fbAlphaBlendPixelAt_spec (host : Host) (mem : Loc → FbPixel) (out new old : Loc) :
    (fbAlphaBlendPixelAt host mem out new old).mem=
        Function.update mem out (fbAlphaBlendPixel host (mem new) (mem old)) ∧
      (fbAlphaBlendPixelAt host mem out new old).computed=
        if fbAlphaBlendAlpha (alphaOn host (mem old)) (alphaOn host (mem new))≠0 then
          computedOf host (mem new) (mem old)
        else [] := by
  unfold fbAlphaBlendPixelAt
  dsimp only
  by_cases hout : fbAlphaBlendAlpha (alphaOn host (mem old)) (alphaOn host (mem new))=0
  · rw [if_neg (not_not.mpr hout),if_neg (not_not.mpr hout)]
    refine ⟨?_,rfl⟩
    dsimp only
    rw [Function.update_idem,Function.update_self,hout,fbAlphaBlendPixel_of_zero host hout]
    cases host <;> rfl
  · rw [if_pos hout,if_pos hout]
    -- no assignment changes what a later one reads
    have hshade : ∀ (c c' : Shade) (mem : Loc → FbPixel) (value : UInt8), c'≠c → ∀ l,
        shade host c' (Function.update mem out (setShade host c (mem out) value) l)=
          shade host c' (mem l) :=
      fun c c' mem value hc => apply_update_same _ (shade_setShade host _ _ hc)
    have halpha : ∀ (c : Shade) (mem : Loc → FbPixel) (value : UInt8) l,
        alphaOn host (Function.update mem out (setShade host c (mem out) value) l)=
          alphaOn host (mem l) :=
      fun c mem value => apply_update_same _ (alphaOn_setShade host _ _ _)
    simp only [List.foldl_cons,List.foldl_nil,blendShade,halpha,
      hshade _ _ _ _ (by decide : Shade.green≠.blue),hshade _ _ _ _ (by decide : Shade.red≠.blue),
      hshade _ _ _ _ (by decide : Shade.red≠.green)]
    refine ⟨?_,rfl⟩
    simp only [Function.update_self,Function.update_idem]
    rw [←setAlphaOn_setShade host (mem out) (mem new) (mem old) hout]
    simp only [shade_fbAlphaBlendPixel host _ hout]

/-- The channels that a blend computes are between the old and the new ones,
before they are stored. -/
def Between (host : Host) (new old : FbPixel) (computed : List (Shade×ℕ)) : Prop :=
  ∀ step∈computed,
    min (shade host step.1 old).toNat (shade host step.1 new).toNat ≤ step.2 ∧
      step.2 ≤ max (shade host step.1 old).toNat (shade host step.1 new).toNat

instance (host : Host) (new old : FbPixel) (computed : List (Shade×ℕ)) :
    Decidable (Between host new old computed) := inferInstanceAs (Decidable (∀ step∈computed,_))

/-- With some alpha left, they are so exactly under the condition. -/
theorem between_iff (host : Host) {new old : FbPixel}
    (h : fbAlphaBlendAlpha (alphaOn host old) (alphaOn host new)≠0) :
    Between host new old (computedOf host new old) ↔ BlendFine host new old := by
  have hmem : ∀ c : Shade,c∈[Shade.blue,.green,.red] := by
    intro c
    cases c <;> decide
  rw [Between,computedOf,List.forall_mem_map,BlendFine]
  constructor
  · exact fun hall c => (fbAlphaBlendChannel_between_iff _ _ h).mp (hall c (hmem c))
  · exact fun hall c _ => (fbAlphaBlendChannel_between_iff _ _ h).mpr (hall c)

/-- The condition keeps every channel between those of the two pixels, also
after it is stored. -/
theorem BlendFine.shade_between {host : Host} {new old : FbPixel} (h : BlendFine host new old)
    (c : Shade) :
    min (shade host c old).toNat (shade host c new).toNat≤
        (shade host c (fbAlphaBlendPixel host new old)).toNat ∧
      (shade host c (fbAlphaBlendPixel host new old)).toNat≤
        max (shade host c old).toNat (shade host c new).toNat := by
  have hout := (h c).alpha_ne
  obtain ⟨hlo,hhi⟩ := (fbAlphaBlendChannel_between_iff _ _ hout).mpr (h c)
  have hold := (shade host c old).toNat_lt
  have hnew := (shade host c new).toNat_lt
  rw [shade_fbAlphaBlendPixel host c hout]
  generalize fbAlphaBlendChannel (shade host c old) (shade host c new) (alphaOn host old)
    (alphaOn host new) (fbAlphaBlendAlpha (alphaOn host old) (alphaOn host new))=v at hlo hhi ⊢
  have hv : (UInt8.ofNat v).toNat=v := by
    rw [UInt8.toNat_ofNat']
    exact Nat.mod_eq_of_lt (by omega)
  rw [hv]
  exact ⟨hlo,hhi⟩

/-- One pixel position on the main and the node framebuffers. -/
@[ext] structure Spot where
  main : FbPixel
  nodes : List FbPixel
  deriving DecidableEq, Repr

/-- All pixels at the position. -/
def Spot.pixels (s : Spot) : List FbPixel := s.main::s.nodes

/-- What happens to a pixel position: a store, a set command, or the merge of a
node framebuffer. -/
inductive SpotOp where
  | put (node : ℕ) (pixel : FbPixel)
  | draw (node : ℕ) (pixel : FbPixel)
  | merge (node : ℕ)
  deriving DecidableEq, Repr

/-- The pixels after one such operation. -/
def spotStep (build : Build) (s : Spot) : SpotOp → Spot
  | .put node pixel => {s with nodes := s.nodes.set node pixel}
  | .draw node pixel => {s with nodes := s.nodes.modify node (storedPixel build pixel)}
  | .merge node =>
    match s.nodes[node]? with
    | none => s
    | some other => ⟨mergePixel build s.main other,s.nodes.set node (other.setAlpha 0)⟩

/-- A merge of a node framebuffer that is there. -/
theorem spotStep_merge (build : Build) {s : Spot} {node : ℕ} {other : FbPixel}
    (h : s.nodes[node]?=some other) :
    spotStep build s (.merge node)=
      ⟨mergePixel build s.main other,s.nodes.set node (other.setAlpha 0)⟩ := by
  simp only [spotStep,h]

/-- A merge of none. -/
theorem spotStep_merge_none (build : Build) {s : Spot} {node : ℕ} (h : s.nodes[node]?=none) :
    spotStep build s (.merge node)=s := by
  simp only [spotStep,h]

/-- The pixels after several operations. -/
def spotRun (build : Build) (s : Spot) (ops : List SpotOp) : Spot := ops.foldl (spotStep build) s

/-- The colour that an operation draws. -/
def SpotOp.colour : SpotOp → Option FbPixel
  | .put _ pixel => some pixel
  | .draw _ pixel => some pixel
  | .merge _ => none

/-- Every channel of a pixel is between those of some colours. -/
def InRange (host : Host) (colours : List FbPixel) (p : FbPixel) : Prop :=
  ∀ c, (∃ a∈colours, (shade host c a).toNat≤(shade host c p).toNat) ∧
    ∃ b∈colours, (shade host c p).toNat≤(shade host c b).toNat

/-- A channel is zero for some colour. -/
def Dark (host : Host) (colours : List FbPixel) (c : Shade) : Prop :=
  ∃ a∈colours, shade host c a=0

instance (host : Host) (colours : List FbPixel) (c : Shade) :
    Decidable (Dark host colours c) := inferInstanceAs (Decidable (∃ a∈colours,_))

/-- A blend with some alpha left meets the condition, and one without any,
which is all zero, is of colours whose range has zero. -/
def BlendKept (host : Host) (colours : List FbPixel) (new old : FbPixel) : Prop :=
  if fbAlphaBlendAlpha (alphaOn host old) (alphaOn host new)≠0 then BlendFine host new old
  else ∀ c, Dark host colours c

instance (host : Host) (colours : List FbPixel) (new old : FbPixel) :
    Decidable (BlendKept host colours new old) :=
  have : Decidable (∀ c, Dark host colours c) :=
    decidable_of_iff (∀ c∈[Shade.blue,.green,.red], Dark host colours c)
      ⟨fun h c => h c (by cases c <;> decide),fun h c _ => h c⟩
  inferInstanceAs (Decidable
    (if fbAlphaBlendAlpha (alphaOn host old) (alphaOn host new)≠0 then BlendFine host new old
      else ∀ c, Dark host colours c))

/-- What an operation needs to keep the range of the colours that there were so
far: its blends do, and a merge that resets red, which it does on a big-endian
host, has a colour without red there. -/
def SpotFine (build : Build) (colours : List FbPixel) (s : Spot) : SpotOp → Prop
  | .put _ _ => True
  | .draw node pixel => ∀ old∈s.nodes[node]?,build.featureAlphaBlending=true →
      pixel.alpha≠0xff → BlendKept build.host colours pixel old
  | .merge node => ∀ other∈s.nodes[node]?,other.alpha≠0 →
      (build.host=.bigEndian → Dark build.host colours .red) ∧
        (build.featureAlphaBlending=true → other.alpha≠0xff →
          BlendKept build.host colours other s.main)

instance (build : Build) (colours : List FbPixel) (s : Spot) :
    ∀ op,Decidable (SpotFine build colours s op)
  | .put _ _ => isTrue trivial
  | .draw node _ => inferInstanceAs (Decidable (∀ old∈s.nodes[node]?,_))
  | .merge node => inferInstanceAs (Decidable (∀ other∈s.nodes[node]?,_))

/-- Every operation of a run meets the condition when it is carried out, with
the colours drawn until then and its own. -/
def RunFine (build : Build) : List FbPixel → Spot → List SpotOp → Prop
  | _,_,[] => True
  | colours,s,op::ops => SpotFine build (colours++op.colour.toList) s op ∧
      RunFine build (colours++op.colour.toList) (spotStep build s op) ops

instance decidableRunFine (build : Build) : ∀ colours s ops,Decidable (RunFine build colours s ops)
  | _,_,[] => isTrue trivial
  | colours,s,op::ops =>
    have := decidableRunFine build (colours++op.colour.toList) (spotStep build s op) ops
    inferInstanceAs (Decidable (SpotFine build (colours++op.colour.toList) s op ∧ _))

/-- The colours are in their own range. -/
theorem inRange_of_mem (host : Host) {colours : List FbPixel} {p : FbPixel} (h : p∈colours) :
    InRange host colours p :=
  fun _ => ⟨⟨p,h,le_refl _⟩,p,h,le_refl _⟩

/-- So is what lies between two pixels that are. -/
theorem InRange.between {host : Host} {colours : List FbPixel} {p q r : FbPixel}
    (hp : InRange host colours p) (hq : InRange host colours q)
    (h : ∀ c, min (shade host c p).toNat (shade host c q).toNat≤(shade host c r).toNat ∧
      (shade host c r).toNat ≤ max (shade host c p).toNat (shade host c q).toNat) :
    InRange host colours r := by
  intro c
  obtain ⟨⟨ap,hap,hlep⟩,bp,hbp,hpleb⟩ := hp c
  obtain ⟨⟨aq,haq,hleq⟩,bq,hbq,hqleb⟩ := hq c
  obtain ⟨hlo,hhi⟩ := h c
  constructor
  · rcases min_le_iff.mp hlo with h | h
    · exact ⟨ap,hap,hlep.trans h⟩
    · exact ⟨aq,haq,hleq.trans h⟩
  · rcases le_max_iff.mp hhi with h | h
    · exact ⟨bp,hbp,h.trans hpleb⟩
    · exact ⟨bq,hbq,h.trans hqleb⟩

/-- A range with zero in all channels has the pixel that is all zero. -/
theorem inRange_zero {host : Host} {colours : List FbPixel} (h : ∀ c, Dark host colours c) :
    InRange host colours ⟨0,0,0,0⟩ := by
  intro c
  obtain ⟨a,ha,hzero⟩ := h c
  have hblack : shade host c ⟨0,0,0,0⟩=0 := by
    cases host <;> cases c <;> rfl
  rw [hblack]
  exact ⟨⟨a,ha,by rw [hzero]⟩,a,ha,Nat.zero_le _⟩

/-- A blend that meets the condition stays in the range. -/
theorem InRange.blend {host : Host} {colours : List FbPixel} {new old : FbPixel}
    (hold : InRange host colours old) (hnew : InRange host colours new)
    (h : BlendKept host colours new old) :
    InRange host colours (fbAlphaBlendPixel host new old) := by
  by_cases hout : fbAlphaBlendAlpha (alphaOn host old) (alphaOn host new)=0
  · rw [BlendKept,if_neg (not_not.mpr hout)] at h
    rw [fbAlphaBlendPixel_of_zero host hout]
    exact inRange_zero h
  · rw [BlendKept,if_pos hout] at h
    exact hold.between hnew h.shade_between

/-- A merge that meets the condition leaves a pixel in the range. -/
theorem InRange.merge {build : Build} {colours : List FbPixel} {main other : FbPixel}
    (hmain : InRange build.host colours main) (hother : InRange build.host colours other)
    (h : other.alpha≠0 → build.featureAlphaBlending=true → other.alpha≠0xff →
      BlendKept build.host colours other main) :
    InRange build.host colours (mergePixel build main other) := by
  unfold mergePixel
  split_ifs with hzero hfeature hopaque
  · exact hmain
  · exact hother
  · exact hmain.blend hother (h hzero hfeature hopaque)
  · exact hother

/-- So does the reset of the merged pixel. -/
theorem InRange.reset {host : Host} {colours : List FbPixel} {other : FbPixel}
    (hother : InRange host colours other) (h : host=.bigEndian → Dark host colours .red) :
    InRange host colours (other.setAlpha 0) := by
  cases host with
  | littleEndian =>
    -- the alpha is not a colour here
    exact fun c => by cases c <;> exact hother _
  | bigEndian =>
    intro c
    cases c with
    | blue => exact hother .blue
    | green => exact hother .green
    | red =>
      obtain ⟨a,ha,hzero⟩ := h rfl
      exact ⟨⟨a,ha,by rw [hzero]; exact Nat.zero_le _⟩,a,ha,Nat.zero_le _⟩

/-- A set that meets the condition stores a pixel in the range. -/
theorem InRange.stored {build : Build} {colours : List FbPixel} {old pixel : FbPixel}
    (hold : InRange build.host colours old) (hpixel : InRange build.host colours pixel)
    (h : build.featureAlphaBlending=true → pixel.alpha≠0xff →
      BlendKept build.host colours pixel old) :
    InRange build.host colours (storedPixel build pixel old) := by
  unfold storedPixel
  split_ifs with hblend
  · rw [Bool.and_eq_true,decide_eq_true_eq] at hblend
    exact hold.blend hpixel (h hblend.1 hblend.2)
  · exact hpixel

/-- What holds of all entries and of a new one holds of all entries behind its
store. -/
theorem forall_mem_set {P : FbPixel → Prop} {nodes : List FbPixel} (h : ∀ p∈nodes,P p)
    {pixel : FbPixel} (hpixel : P pixel) (node : ℕ) : ∀ p∈nodes.set node pixel,P p := by
  intro p hp
  rcases List.mem_or_eq_of_mem_set hp with hold | rfl
  · exact h p hold
  · exact hpixel

/-- One operation that meets the condition keeps all pixels in the range. -/
theorem spotStep_inRange {build : Build} {s : Spot} {op : SpotOp} {colours : List FbPixel}
    (hs : ∀ p∈s.pixels,InRange build.host colours p) (hop : ∀ p∈op.colour,p∈colours)
    (hfine : SpotFine build colours s op) :
    ∀ p∈(spotStep build s op).pixels,InRange build.host colours p := by
  obtain ⟨hmain,hnodes⟩ := List.forall_mem_cons.mp hs
  cases op with
  | put node pixel =>
    exact List.forall_mem_cons.mpr
      ⟨hmain,forall_mem_set hnodes (inRange_of_mem build.host (hop pixel rfl)) node⟩
  | draw node pixel =>
    have hpixel := inRange_of_mem build.host (hop pixel rfl)
    refine List.forall_mem_cons.mpr ⟨hmain,fun p hp => ?_⟩
    obtain ⟨k,hk⟩ := List.mem_iff_getElem?.mp hp
    dsimp only [spotStep] at hk
    rw [List.getElem?_modify,Option.map_eq_map,Option.map_eq_some_iff] at hk
    obtain ⟨old,hold,rfl⟩ := hk
    have hrange := hnodes old (List.mem_of_getElem? hold)
    by_cases hnode : node=k
    · rw [if_pos hnode]
      exact hrange.stored hpixel (hfine old (hnode ▸ hold))
    · rw [if_neg hnode]
      exact hrange
  | merge node =>
    cases hget : s.nodes[node]? with
    | none =>
      rw [spotStep_merge_none build hget]
      exact hs
    | some other =>
      have hother := hnodes other (List.mem_of_getElem? hget)
      rw [spotStep_merge build hget]
      refine List.forall_mem_cons.mpr
        ⟨hmain.merge hother fun hzero => (hfine other hget hzero).2,?_⟩
      refine forall_mem_set hnodes ?_ node
      by_cases hzero : other.alpha=0
      · rw [setAlpha_of_alpha hzero]
        exact hother
      · exact hother.reset (hfine other hget hzero).1

/-- More colours have a range that is not smaller. -/
theorem InRange.append {host : Host} {colours : List FbPixel} {p : FbPixel}
    (h : InRange host colours p) (more : List FbPixel) : InRange host (colours++more) p := by
  intro c
  obtain ⟨⟨a,ha,hle⟩,b,hb,hge⟩ := h c
  exact ⟨⟨a,List.mem_append_left _ ha,hle⟩,b,List.mem_append_left _ hb,hge⟩

/-- A run that meets the condition keeps all pixels between the colours that
were there and those that are drawn. -/
theorem spotRun_inRange {build : Build} {s : Spot} {ops : List SpotOp} {colours : List FbPixel}
    (hs : ∀ p∈s.pixels,InRange build.host colours p) (hfine : RunFine build colours s ops) :
    ∀ p∈(spotRun build s ops).pixels,
      InRange build.host (colours++ops.filterMap SpotOp.colour) p := by
  induction ops generalizing s colours with
  | nil =>
    rw [List.filterMap_nil,List.append_nil]
    exact hs
  | cons op ops ih =>
    obtain ⟨hop,hrest⟩ := hfine
    have hdrawn : colours++(op::ops).filterMap SpotOp.colour=
        colours++op.colour.toList++ops.filterMap SpotOp.colour := by
      rw [List.filterMap_cons,List.append_assoc]
      cases op.colour <;> rfl
    rw [hdrawn]
    refine ih (spotStep_inRange (fun p hp => (hs p hp).append _) (fun p hp => ?_) hop) hrest
    exact List.mem_append_right _ (Option.mem_toList.mpr hp)

/-- Merges of different node framebuffers, one after the other. -/
theorem spotRun_merges (build : Build) {order : List ℕ} (hnodup : order.Nodup) {s : Spot}
    (hin : ∀ k∈order,k<s.nodes.length) :
    (spotRun build s (order.map .merge)).main=
        order.foldl (fun under k => mergePixel build under (s.nodes[k]?.getD default)) s.main ∧
      ∀ k, (spotRun build s (order.map .merge)).nodes[k]?=
        if k∈order then s.nodes[k]?.map (·.setAlpha 0) else s.nodes[k]? := by
  induction order generalizing s with
  | nil => exact ⟨rfl,fun k => (if_neg List.not_mem_nil).symm⟩
  | cons k order ih =>
    obtain ⟨hk,hin'⟩ := List.forall_mem_cons.mp hin
    obtain ⟨hfresh,hrest⟩ := List.nodup_cons.mp hnodup
    have hget := List.getElem?_eq_getElem hk
    have hne : ∀ l, l≠k → (s.nodes.set k (s.nodes[k].setAlpha 0))[l]?=s.nodes[l]? :=
      fun l hl => List.getElem?_set_ne (Ne.symm hl)
    obtain ⟨hmain,hnodes⟩ := @ih hrest
      ⟨mergePixel build s.main s.nodes[k],s.nodes.set k (s.nodes[k].setAlpha 0)⟩
      fun l hl => by rw [List.length_set]; exact hin' l hl
    rw [List.map_cons,spotRun,List.foldl_cons,spotStep_merge build hget,←spotRun]
    refine ⟨?_,fun l => ?_⟩
    · rw [hmain,List.foldl_cons,hget,Option.getD_some]
      refine List.foldl_ext _ _ _ fun under l hl => ?_
      rw [hne l fun h => hfresh (h ▸ hl)]
    · rw [hnodes l]
      by_cases hl : l=k
      · rw [hl,if_neg hfresh,if_pos List.mem_cons_self,List.getElem?_set_self hk,hget,
          Option.map_some]
      · have hmem : l∈k::order ↔ l∈order := by
          rw [List.mem_cons,or_iff_right hl]
        rw [hne l hl]
        simp only [hmem]

/-- A pixel position of a surface. -/
def spotAt (s : Surface) (i : ℕ) : Spot := ⟨s.main.pixels i,s.fbs.map fun fb => fb.pixels i⟩

/-- What an operation on the surface is to a pixel position. -/
def spotOps (s : Surface) (i : ℕ) : SurfaceOp → List SpotOp
  | .draw node x y pixel =>
    match s.fbs[node]? with
    | none => []
    | some fb => if fbIndex fb x y=i then [.put node pixel] else []
  | .set node x y pixel =>
    match s.fbs[node]? with
    | none => []
    | some fb => if fb.size.Contains x y ∧ fbIndex fb x y=i then [.draw node pixel] else []
  | .coalesce rand =>
    if i<s.main.size.product then
      (fitting s.main.size s.fbs ((arrayShuffle rand (List.range s.fbs.length)).getD [])).map .merge
    else []

/-- What a run of operations is to it. -/
def spotTrace (build : Build) (i : ℕ) : Surface → List SurfaceOp → List SpotOp
  | _,[] => []
  | s,op::ops => spotOps s i op++
    match surfaceStep build s op with
    | none => []
    | some (_,s') => spotTrace build i s' ops

/-- Storing a pixel on a node framebuffer, as it is to a pixel position. -/
theorem map_pixels_set {fbs : List Fb} {node : ℕ} {fb : Fb} (index : ℕ) (pixel : FbPixel) (i : ℕ)
    (hget : fbs[node]?=some fb) (out : Fb) (hout : out.pixels=writePixel fb.pixels index pixel) :
    (fbs.set node out).map (fun fb => fb.pixels i)=
      if index=i then (fbs.map fun fb => fb.pixels i).set node pixel
      else fbs.map fun fb => fb.pixels i := by
  rw [List.map_set,hout,writePixel]
  split
  · rename_i h
    rw [if_pos h.symm]
  · rename_i h
    rw [if_neg (Ne.symm h)]
    refine List.ext_getElem? fun k => ?_
    by_cases hk : node=k
    · have hlt : node<(fbs.map fun fb => fb.pixels i).length := by
        rw [List.length_map]
        exact (List.getElem?_eq_some_iff.mp hget).1
      rw [←hk,List.getElem?_set_self hlt,List.getElem?_map,hget,Option.map_some]
    · rw [List.getElem?_set_ne hk]

/-- The spot of a surface on whose node framebuffers one pixel was stored. -/
theorem spotAt_set {s : Surface} {node : ℕ} {fb out : Fb} {index : ℕ} {pixel : FbPixel} (i : ℕ)
    (hget : s.fbs[node]?=some fb) (hout : out.pixels=writePixel fb.pixels index pixel) :
    spotAt {s with fbs := s.fbs.set node out} i=
      if index=i then {spotAt s i with nodes := (spotAt s i).nodes.set node pixel}
      else spotAt s i := by
  rw [spotAt,map_pixels_set index pixel i hget out hout]
  split <;> rfl

section Steps

variable {build : Build} {s s' : Surface} {ret : ℤ}

/-- Storing a pixel on a surface is one on each pixel position. -/
theorem draw_spot {node : ℕ} {x y : UInt32} {pixel : FbPixel}
    (h : surfaceStep build s (.draw node x y pixel)=some (ret,s')) (i : ℕ) :
    spotRun build (spotAt s i) (spotOps s i (.draw node x y pixel))=spotAt s' i := by
  rw [surfaceStep] at h
  rw [spotOps]
  cases hget : s.fbs[node]? with
  | none =>
    rw [hget] at h
    cases h
  | some fb =>
    rw [hget] at h
    dsimp only at h ⊢
    rw [Option.map_eq_some_iff] at h
    obtain ⟨out,hout,hs'⟩ := h
    cases hs'
    have hpixels : out.pixels=writePixel fb.pixels (fbIndex fb x y) pixel := by
      unfold fbSetPixel at hout
      split at hout
      · cases hout
        rfl
      · cases hout
    rw [spotAt_set i hget hpixels]
    split <;> rfl

/-- So is executing a pixel command. -/
theorem set_spot {node : ℕ} {x y : UInt32} {pixel : FbPixel}
    (h : surfaceStep build s (.set node x y pixel)=some (ret,s')) (i : ℕ) :
    spotRun build (spotAt s i) (spotOps s i (.set node x y pixel))=spotAt s' i := by
  rw [surfaceStep] at h
  rw [spotOps]
  cases hget : s.fbs[node]? with
  | none =>
    rw [hget] at h
    cases h
  | some fb =>
    rw [hget] at h
    dsimp only at h ⊢
    by_cases hin : fb.size.Contains x y
    · rw [netDraw_eq _ pixel (freshSession fb) hin,if_pos rfl] at h
      cases h
      rw [spotAt_set i hget rfl]
      simp only [hin,true_and]
      by_cases hindex : fbIndex fb x y=i
      · have hnode : (spotAt s i).nodes[node]?=some (fb.pixels i) := by
          rw [spotAt,List.getElem?_map,hget,Option.map_some]
        rw [if_pos hindex]
        refine Eq.trans ?_ (if_pos hindex).symm
        rw [spotRun,List.foldl_cons,List.foldl_nil,spotStep,List.modify_eq_set,hnode]
        dsimp only [freshSession]
        rw [hindex]
        rfl
      · rw [if_neg hindex]
        exact (if_neg hindex).symm
    · rw [netDraw_outside _ pixel hin,if_pos rfl] at h
      cases h
      rw [if_neg fun h => hin h.1]
      obtain ⟨hlt,rfl⟩ := List.getElem?_eq_some_iff.mp hget
      dsimp only [freshSession]
      rw [List.set_getElem_self]
      rfl

/-- And a coalesce is as many merges on each pixel position as it completes. -/
theorem coalesce_spot {rand : Rand}
    (h : surfaceStep build s (.coalesce rand)=some (ret,s')) (i : ℕ) :
    spotRun build (spotAt s i) (spotOps s i (.coalesce rand))=spotAt s' i := by
  rw [surfaceStep,Option.map_eq_some_iff] at h
  obtain ⟨out,hrun,hs'⟩ := h
  cases hs'
  obtain ⟨order,ret,fbs',hshuffle,hnodup,hmem,hcoalesce,hfbs,_⟩ :=
    fbCoalesce_merges build rand s.main s.fbs
  rw [hcoalesce] at hrun
  cases hrun
  rw [spotOps,hshuffle,Option.getD_some]
  have hfront : fitting s.main.size s.fbs order<+:order := List.takeWhile_prefix _
  by_cases hi : i<s.main.size.product
  · rw [if_pos hi]
    obtain ⟨hmain,hnodes⟩ := @spotRun_merges build _ (hnodup.sublist hfront.sublist) (spotAt s i)
      fun k hk => by
        rw [spotAt,List.length_map]
        exact (hmem k).mp (hfront.subset hk)
    refine Spot.ext ?_ (List.ext_getElem? fun k => ?_)
    · rw [hmain]
      dsimp only [spotAt,merged]
      rw [if_pos hi,mergeAll]
      simp only [List.getElem?_map,pixelOn]
    · rw [hnodes k]
      dsimp only [spotAt]
      rw [List.getElem?_map,List.getElem?_map,hfbs k]
      split
      · rw [Option.map_map,Option.map_map]
        refine congrArg (Option.map · _) (funext fun fb => ?_)
        exact (if_pos hi).symm
      · rfl
  · rw [if_neg hi]
    refine Spot.ext ?_ (List.ext_getElem? fun k => ?_)
    · exact (if_neg hi).symm
    · dsimp only [spotAt,spotRun,List.foldl_nil]
      rw [List.getElem?_map,List.getElem?_map,hfbs k]
      split
      · rw [Option.map_map]
        refine congrArg (Option.map · _) (funext fun fb => ?_)
        exact (if_neg hi).symm
      · rfl

/-- Every operation on the surface is one on each pixel position. -/
theorem surfaceStep_spot {op : SurfaceOp} (h : surfaceStep build s op=some (ret,s')) (i : ℕ) :
    spotRun build (spotAt s i) (spotOps s i op)=spotAt s' i := by
  cases op with
  | draw node x y pixel => exact draw_spot h i
  | set node x y pixel => exact set_spot h i
  | coalesce rand => exact coalesce_spot h i

end Steps

/-- Every run on the surface is one on each pixel position. -/
theorem run_spot {build : Build} {s s' : Surface} {ops : List SurfaceOp} {replies : List ℤ}
    (h : run (surfaceStep build) s ops=some (replies,s')) (i : ℕ) :
    spotRun build (spotAt s i) (spotTrace build i s ops)=spotAt s' i := by
  induction ops generalizing s replies with
  | nil =>
    cases h
    rfl
  | cons op ops ih =>
    obtain ⟨ret,mid,replies',hstep,hrest,_⟩ := of_run_cons h
    have hspot := surfaceStep_spot hstep i
    rw [spotRun] at hspot
    rw [spotTrace,hstep]
    dsimp only
    rw [spotRun,List.foldl_append,hspot]
    exact ih hrest

/-- Blending, for any three pixels in memory, computes the alpha without leaving
eight bits, and the channels between those of its inputs exactly where the
condition holds, also when the output is one of the inputs. In every run of
draws and merges whose steps meet the condition, every channel stays between
those of the colours that were drawn and the initial ones. -/
theorem blending_inRange_iff :
    (∀ (host : Host) (mem : Loc → FbPixel) (out new old : Loc),
      let b := fbAlphaBlendPixelAt host mem out new old
      b.mem=Function.update mem out (fbAlphaBlendPixel host (mem new) (mem old)) ∧
      (alphaOn host (b.mem out)).toNat=(alphaOn host (mem new)).toNat+
        (alphaOn host (mem old)).toNat*(255-(alphaOn host (mem new)).toNat)/255 ∧
      (alphaOn host (b.mem out)≠0 →
        (Between host (mem new) (mem old) b.computed ↔ BlendFine host (mem new) (mem old)))) ∧
    ∀ (build : Build) (s s' : Surface) (ops : List SurfaceOp) (replies : List ℤ),
      run (surfaceStep build) s ops=some (replies,s') →
      ∀ i, RunFine build (spotAt s i).pixels (spotAt s i) (spotTrace build i s ops) →
        ∀ p∈(spotAt s' i).pixels, InRange build.host
          ((spotAt s i).pixels++(spotTrace build i s ops).filterMap SpotOp.colour) p := by
  constructor
  · intro host mem out new old
    obtain ⟨hmem,hcomputed⟩ := fbAlphaBlendPixelAt_spec host mem out new old
    dsimp only
    rw [hmem,Function.update_self,alphaOn_fbAlphaBlendPixel]
    refine ⟨rfl,toNat_fbAlphaBlendAlpha _ _,fun hout => ?_⟩
    rw [hcomputed,if_pos hout]
    exact between_iff host hout
  · intro build s s' ops replies hrun i hfine
    rw [←run_spot hrun i]
    exact spotRun_inRange (fun p hp => inRange_of_mem build.host hp) hfine

/-- A framebuffer of one pixel. -/
def onePixelFb (pixel : FbPixel) : Fb := ⟨⟨1,1⟩,1,fun _ => pixel,0,0⟩

/-- Half transparent red on black, and its merge. -/
theorem blending_inRange_red :
    let build : Build := ⟨false,false,false,false,true,.littleEndian⟩
    let s : Surface := ⟨onePixelFb ⟨0xff,0,0,0⟩,[onePixelFb ⟨0,0,0,0⟩]⟩
    let ops : List SurfaceOp := [.set 0 0 0 ⟨0x80,0,0,0xff⟩,.coalesce zeroRand]
    ∃ replies s', run (surfaceStep build) s ops=some (replies,s') ∧
      ∀ p∈(spotAt s' 0).pixels,InRange .littleEndian
        ((spotAt s 0).pixels++(spotTrace build 0 s ops).filterMap SpotOp.colour) p :=
  ⟨_,_,rfl,(@blending_inRange_iff Unit _).2 _ _ _ _ _ rfl 0 (by decide +kernel)⟩

/-- A nearly transparent grey over itself, on a pixel without alpha before, gets
darker. -/
theorem grey_not_between :
    let p : FbPixel := ⟨1,200,200,200⟩
    let b := fbAlphaBlendPixelAt .littleEndian (fun _ : Unit => p) () () ()
    fbAlphaBlendPixel .littleEndian p ⟨0,0,0,0⟩=p ∧ alphaOn .littleEndian (b.mem ())≠0 ∧
      b.computed=[(.blue,399),(.green,399),(.red,399)] ∧ b.mem ()=⟨1,143,143,143⟩ ∧
      ¬Between .littleEndian p p b.computed := by
  decide +kernel

end Shoreline.Blending
