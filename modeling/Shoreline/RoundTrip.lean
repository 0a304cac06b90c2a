import Mathlib.Data.Nat.Digits.Lemmas
import Shoreline.Drawing
import Shoreline.FlatParser
import Shoreline.Protocol

/-!
# A pixel is read back as it was set

A colour passes through the hexadecimal parser, the bytes of a pixel, a node
framebuffer, the merge and the hexadecimal printer. The red, green and blue
parts come back digit by digit, in lower case.
-/

namespace Shoreline.RoundTrip

open IncrementalReader RingBuffer RingContent NetToken NetConnection TokenScan CommandScan
open CommandGrammar CommandLoop CommandText ItemText Coordinates Framebuffer Coalesce Drawing
open Protocol FlatParser

/-- The server that the round trip is about: no blending, a little-endian
host, and a surface of moderate size. -/
structure PixelSetting (env : NetEnv) (size : FbSize) : Prop where
  /-- Blending is not compiled in. -/
  no_blending : env.build.featureAlphaBlending=false
  /-- The host is little-endian. -/
  host : env.build.host=.littleEndian
  /-- The main framebuffer has the size. -/
  net_size : env.netFb.size=size
  /-- Nine digits suffice. -/
  width_lt : size.width.toNat<10^9
  /-- Nine digits suffice. -/
  height_lt : size.height.toNat<10^9
  /-- Indices do not wrap around. -/
  area_lt : size.width.toNat*size.height.toNat<2^32

/-- The digits of a colour that is not transparent: six of them, or eight of
which the last two are not both zero. -/
structure VisibleDigits (digits : List (ℕ×Bool)) : Prop where
  /-- They are hexadecimal. -/
  hex : ∀ d∈digits,d.1<16
  /-- There are six or eight. -/
  length : digits.length=6 ∨ digits.length=8 ∧ denoted 16 ((digits.drop 6).map Prod.fst)≠0

/-- The answer to a get: the first six digits of the colour in lower case. -/
def answerLine (x y : ℕ) (digits : List (ℕ×Bool)) : List UInt8 :=
  verbPx++[0x20]++formatUnsigned x++[0x20]++formatUnsigned y++[0x20]++
    (digits.take 6).map (fun d => hexChar (d.1,false))++[0x0a]

variable {env : NetEnv} {size : FbSize} {digits : List (ℕ×Bool)}

/-- Six digits are printed as they are. -/
theorem formatHex06_denoted {ds : List ℕ} (hlen : ds.length=6) (h : ∀ d∈ds,d<16) :
    formatHex06 (denoted 16 ds)=ds.map digitChar := by
  have hinv := (Nat.setInvOn_digitsAppend_ofDigits (by omega : 1<16) 6).1
    (show ds.reverse∈{L : List ℕ | L.length=6 ∧ ∀ d∈L,d<16} by simpa [hlen] using h)
  have hrev := congrArg List.reverse hinv
  rw [Nat.digitsAppend,List.reverse_append,List.reverse_replicate,List.reverse_reverse] at hrev
  rw [formatHex06,denoted,hrev]

/-- Digits denote what their first and their last part do. -/
theorem denoted_take_drop (base n : ℕ) (ds : List ℕ) :
    denoted base ds=denoted base (ds.drop n)+base^(ds.length-n)*denoted base (ds.take n) := by
  have hsplit := congrArg List.reverse (List.take_append_drop n ds)
  rw [List.reverse_append] at hsplit
  rw [denoted,←hsplit,Nat.ofDigits_append,List.length_reverse,List.length_drop]
  rfl

/-- All parts of a visible colour are hexadecimal. -/
theorem VisibleDigits.hex_of_subset (h : VisibleDigits digits) {part : List (ℕ×Bool)}
    (hpart : part⊆digits) : ∀ d∈part.map Prod.fst,d<16 := by
  intro d hd
  obtain ⟨e,he,rfl⟩ := List.mem_map.mp hd
  exact h.hex e (hpart he)

/-- The word of a visible colour: its last byte is not zero, and the others
are the first six digits. -/
theorem colourValue_visible (h : VisibleDigits digits) :
    colourValue digits%256≠0 ∧ colourValue digits/256=denoted 16 ((digits.take 6).map Prod.fst) := by
  unfold colourValue
  rcases h.length with hsix | ⟨height,hvisible⟩
  · rw [if_pos hsix,List.take_of_length_le (by omega)]
    omega
  · have hlow := @Nat.ofDigits_lt_base_pow_length 16 ((digits.drop 6).map Prod.fst).reverse (by omega)
      fun d hd => h.hex_of_subset (List.drop_subset 6 digits) d (List.mem_reverse.mp hd)
    have hlen : ((digits.drop 6).map Prod.fst).reverse.length=2 := by simp [height]
    rw [hlen] at hlow
    change denoted 16 ((digits.drop 6).map Prod.fst)<16^2 at hlow
    have hsplit := denoted_take_drop 16 6 (digits.map Prod.fst)
    rw [←List.map_drop,←List.map_take,List.length_map,height] at hsplit
    rw [if_neg (by omega),hsplit]
    omega

/-- The stored pixel is marked as drawn, and its word is the colour's. -/
theorem pixel_visible (h : VisibleDigits digits) :
    (FbPixel.ofAbgr .littleEndian (UInt32.ofNat (colourValue digits))).alpha≠0 ∧
    ((FbPixel.ofAbgr .littleEndian (UInt32.ofNat (colourValue digits))).abgr .littleEndian>>>8).toNat=
      denoted 16 ((digits.take 6).map Prod.fst) := by
  have hlt := (colour_hex (h.length.imp_right And.left) h.hex).2
  obtain ⟨hlow,hhigh⟩ := colourValue_visible h
  have hword : (UInt32.ofNat (colourValue digits)).toNat=colourValue digits := by
    rw [UInt32.toNat_ofNat',Nat.mod_eq_of_lt hlt]
  constructor
  · intro hzero
    have hbyte := congrArg UInt8.toNat hzero
    dsimp only [FbPixel.alpha,FbPixel.ofAbgr] at hbyte
    rw [hword,UInt8.toNat_ofNat'] at hbyte
    exact hlow hbyte
  · have h8 : (8 : UInt32).toNat%32=8 := rfl
    rw [abgr_ofAbgr,UInt32.toNat_shiftRight,h8,hword,Nat.shiftRight_eq_div_pow]
    exact hhigh

/-- One item in the ring: the command loop executes its command, and nothing
is left when that gets done. -/
theorem commandLoop_item (env : NetEnv) {conn : Conn} (hr : RingInv conn.reader.ring) {item : Item}
    (hbytes : content conn.reader.ring=item.bytes)
    (hscan : scan env.build item.bytes=.item item.command item.text.length) {fuel : ℕ}
    (hfuel : 0<fuel) :
    (netCommandLoop env fuel conn).ending=(exec env conn.session item.command).1.leave ∧
    (netCommandLoop env fuel conn).conn.session=(exec env conn.session item.command).2 ∧
    ((exec env conn.session item.command).1=.done →
      content (netCommandLoop env fuel conn).conn.reader.ring=[]) := by
  obtain ⟨fuel,rfl⟩ : ∃ k, fuel=k+1 := ⟨fuel-1,by omega⟩
  obtain ⟨hused,hloop⟩ := netCommandLoop_flat env hr (fuel+1)
  have hne : item.bytes≠[] := by simp [Item.bytes]
  have hrest := content_skip hr hused
  rw [hbytes] at hloop hrest
  rw [hloop]
  simp only [FlatReport.on]
  change _ ∧ _ ∧ (_ → content (skip conn.reader.ring _)=[])
  rw [hrest,flatLoop_item hne hscan]
  by_cases hdone : (exec env conn.session item.command).1=.done
  · -- the line end goes with the command
    have hnil : item.bytes.drop (taken item.bytes item.command item.text.length .done)=[] := by
      rw [taken,if_pos rfl,←rest_eq_drop env.build]
      exact rest_item env.build item rfl
    rw [if_pos hdone,hdone]
    dsimp only
    rw [hnil,flatLoop_nil]
    exact ⟨rfl,rfl,fun _ => hnil⟩
  · rw [if_neg hdone]
    exact ⟨rfl,rfl,fun hc => absurd hc hdone⟩

/-- A visible set on the surface stores its colour there. -/
theorem set_stores (hset : PixelSetting env size) {session : Session} (hfb : session.fb.size=size)
    (hoffset : session.offsetX=0 ∧ session.offsetY=0) {x y : UInt32} (hin : size.Contains x y)
    (h : VisibleDigits digits) :
    ∃ fb events, exec env session (.set x y (digits.map hexChar))=
        (.done,{session with fb := fb, events := events}) ∧ fb.size=size ∧
      fb.pixels=writePixel session.fb.pixels (cell size x y)
        (FbPixel.ofAbgr .littleEndian (UInt32.ofNat (colourValue digits))) := by
  have hin' : session.fb.size.Contains x y := by rw [hfb]; exact hin
  obtain ⟨out,fb,hdraw,hsize,hpixels,hplain⟩ := netDraw_inside env
    (FbPixel.ofAbgr .littleEndian (UInt32.ofNat (colourValue digits))) hin'
  rw [hplain hset.no_blending] at hpixels
  refine ⟨fb,_,Eq.trans ?_ hdraw,hsize.trans hfb,?_⟩
  · rw [exec,hoffset.1,hoffset.2,UInt32.add_zero,UInt32.add_zero,hset.host,
      (colour_hex (h.length.imp_right And.left) h.hex).1]
  · rw [hpixels,fbIndex,hfb]
    rfl

/-- Merging takes over the only marked pixel. -/
theorem coalesce_takes {build : Build} (hblend : build.featureAlphaBlending=false) (rand : Rand)
    {main fb : Fb} {fbs : List Fb} {k i : ℕ} {pixel : FbPixel} (hmain : main.size=size)
    (hfbs : ∀ other∈fbs,other.size=size) (hk : fbs[k]?=some fb) (hi : i<size.product)
    (hpixel : fb.pixels i=pixel) (hmarked : pixel.alpha≠0)
    (hothers : ∀ j other, j≠k → fbs[j]?=some other → (other.pixels i).alpha=0) :
    ∃ report, fbCoalesce build rand main fbs=some report ∧ report.ret=0 ∧
      report.fb.size=size ∧ report.fb.pixels i=pixel := by
  obtain ⟨order,_,hperm,hrun⟩ := fbCoalesce_eq build rand hmain hfbs
  have hcovers : ∀ under,mergePixel build under pixel=pixel := by
    intro under
    rw [mergePixel_eq hblend,layerOf,if_neg hmarked,Option.getD_some]
  have hon : pixelOn fbs k i=pixel := by
    rw [pixelOn,hk,Option.map_some,Option.getD_some,hpixel]
  refine ⟨_,hrun,rfl,hmain,?_⟩
  dsimp only [merged]
  rw [if_pos hi]
  refine mergeAll_of_only build fbs hcovers _ (fun j _ => ?_) (Or.inr ⟨k,?_,hon⟩)
  · by_cases hj : j=k
    · rw [hj]
      exact Or.inr hon
    · cases hget : fbs[j]? with
      | none =>
        left
        simp only [pixelOn,hget,Option.map_none,Option.getD_none]
        rfl
      | some other =>
        left
        simpa [pixelOn,hget] using hothers j other hj hget
  · exact hperm.mem_iff.mpr (List.mem_range.mpr (List.getElem?_eq_some_iff.mp hk).1)

/-- The answer to a get of a visible colour. -/
theorem pixelReply_visible (h : VisibleDigits digits) {x y : ℕ} (hx : x<2^32) (hy : y<2^32)
    {pixel : FbPixel}
    (hpixel : pixel=FbPixel.ofAbgr .littleEndian (UInt32.ofNat (colourValue digits))) :
    pixelReply (UInt32.ofNat x) (UInt32.ofNat y) (pixel.abgr .littleEndian>>>8)=
      answerLine x y digits := by
  have hsix : ((digits.take 6).map Prod.fst).length=6 := by
    rcases h.length with hlen | hlen <;> simp [hlen]
  have hhex := h.hex_of_subset (List.take_subset 6 digits)
  rw [pixelReply,hpixel,(pixel_visible h).2,formatHex06_denoted hsix hhex,UInt32.toNat_ofNat',
    UInt32.toNat_ofNat',Nat.mod_eq_of_lt hx,Nat.mod_eq_of_lt hy,List.map_map,answerLine]
  rfl

/-- The answer fits the scratch buffer. -/
theorem answerLine_length (hset : PixelSetting env size) {x y : ℕ} (hx : x<size.width.toNat)
    (hy : y<size.height.toNat) (digits : List (ℕ×Bool)) :
    (answerLine x y digits).length<scratchStrMax := by
  have hw := hset.width_lt
  have hh := hset.height_lt
  have h1 := @formatUnsigned_length x (by omega)
  have h2 := @formatUnsigned_length y (by omega)
  have h3 := List.length_take_le 6 digits
  simp only [answerLine,verbPx,scratchStrMax,List.length_append,List.length_cons,List.length_nil,
    List.length_map]
  omega

/-- Coordinates on the surface as machine words. -/
theorem contains_ofNat {x y : ℕ} (hx : x<size.width.toNat) (hy : y<size.height.toNat) :
    size.Contains (UInt32.ofNat x) (UInt32.ofNat y) := by
  have hw := size.width.toNat_lt
  have hh := size.height.toNat_lt
  rw [contains_iff,UInt32.toNat_ofNat',UInt32.toNat_ofNat',Nat.mod_eq_of_lt (by omega),
    Nat.mod_eq_of_lt (by omega)]
  exact ⟨hx,hy⟩

/-- What the command loop makes of a get: it hands the line to the socket, and
is done when the socket takes it. -/
structure Answered (env : NetEnv) (conn : Conn) (line : List UInt8) (out : LoopReport) : Prop where
  /-- The line fits the scratch buffer. -/
  fits : line.length<scratchStrMax
  /-- It is what is handed to the socket. -/
  printed : out.conn.session.sent=(netSockPrintf env.socket conn.session.sent line).2
  /-- It is the reply when the socket does not fail. -/
  replied : (∀ sent buffer e, env.socket.write sent buffer≠.error e) →
    (netSockPrintf env.socket conn.session.sent line).1=line.length ∧
      out.conn.session.sent=conn.session.sent++line ∧ out.ending=.reading ∧
      content out.conn.reader.ring=[]

/-- A get of a visible colour is answered. -/
theorem get_answered (hset : PixelSetting env size) {conn : Conn} (hr : RingInv conn.reader.ring)
    (hfb : conn.session.fb.size=size) (hoffset : conn.session.offsetX=0 ∧ conn.session.offsetY=0)
    {x y : ℕ} (hx : x<size.width.toNat) (hy : y<size.height.toNat) (h : VisibleDigits digits)
    (hpixel : env.netFb.pixels (cell size (UInt32.ofNat x) (UInt32.ofNat y))=
      FbPixel.ofAbgr .littleEndian (UInt32.ofNat (colourValue digits)))
    (hbytes : content conn.reader.ring=(Item.get x y).bytes) {fuel : ℕ} (hfuel : 0<fuel) :
    Answered env conn (answerLine x y digits) (netCommandLoop env fuel conn) := by
  have hin := contains_ofNat hx hy
  have hw := hset.width_lt
  have hh := hset.height_lt
  have hfits := answerLine_length hset hx hy digits
  obtain ⟨hend,hsession,hempty⟩ := commandLoop_item env hr hbytes
    (scan_get_item env.build ⟨by omega,by omega⟩ rfl) hfuel
  have hexec : exec env conn.session (Item.get x y).command=
      let out := netReply env {conn.session with events :=
        conn.session.events++[.gotGet (UInt32.ofNat x) (UInt32.ofNat y)]} (answerLine x y digits)
      if out.1<0 then (.sendFailed out.1,out.2) else (.done,out.2) := by
    have hline := pixelReply_visible h (by omega : x<2^32) (by omega : y<2^32) hpixel
    rw [Item.command,exec,hoffset.1,hoffset.2,UInt32.add_zero,UInt32.add_zero,netGetPixel]
    dsimp only
    rw [hfb,if_pos hin,fbGetPixel_of_contains hset.net_size hin]
    dsimp only
    rw [hset.host,hline]
  rw [hexec] at hend hsession hempty
  refine ⟨hfits,?_,fun hok => ?_⟩
  · rw [hsession]
    dsimp only
    split <;> rfl
  · have hsent := netReply_sent hok {conn.session with events :=
      conn.session.events++[.gotGet (UInt32.ofNat x) (UInt32.ofNat y)]} hfits
    rw [hsent] at hend hsession hempty
    dsimp only at hend hsession hempty
    rw [if_neg (by omega)] at hend hsession hempty
    refine ⟨?_,?_,hend,hempty rfl⟩
    · exact congrArg Prod.fst hsent
    · rw [hsession]

/-- Setting a pixel, merging and getting it is lossless: wherever the commands
lie in their rings and however the list is shuffled, the answer names the
red, green and blue digits that were sent, in lower case, and fits the
scratch buffer. -/
theorem pixel_roundTrip (hset : PixelSetting env size) {fbs : List Fb}
    (hfbs : ∀ fb∈fbs,fb.size=size) {k : ℕ} {conn : Conn} (hr : RingInv conn.reader.ring)
    (hk : fbs[k]?=some conn.session.fb) (hoffset : conn.session.offsetX=0 ∧ conn.session.offsetY=0)
    {x y : ℕ} (hx : x<size.width.toNat) (hy : y<size.height.toNat) (h : VisibleDigits digits)
    (hothers : ∀ j other, j≠k → fbs[j]?=some other →
      (other.pixels (y*size.width.toNat+x)).alpha=0)
    (hbytes : content conn.reader.ring=(Item.set x y digits).bytes) {fuel : ℕ} (hfuel : 0<fuel)
    (rand : Rand) :
    (netCommandLoop env fuel conn).ending=.reading ∧
    content (netCommandLoop env fuel conn).conn.reader.ring=[] ∧
    ∃ report, fbCoalesce env.build rand env.netFb
        (fbs.set k (netCommandLoop env fuel conn).conn.session.fb)=some report ∧ report.ret=0 ∧
      ∀ conn' : Conn, RingInv conn'.reader.ring → conn'.session.fb.size=size →
        conn'.session.offsetX=0 ∧ conn'.session.offsetY=0 →
        content conn'.reader.ring=(Item.get x y).bytes → ∀ fuel', 0<fuel' →
        Answered {env with netFb := report.fb} conn' (answerLine x y digits)
          (netCommandLoop {env with netFb := report.fb} fuel' conn') := by
  have hin := contains_ofNat hx hy
  have hw := hset.width_lt
  have hh := hset.height_lt
  have hfb := hfbs conn.session.fb (List.mem_of_getElem? hk)
  have hcell : cell size (UInt32.ofNat x) (UInt32.ofNat y)=y*size.width.toNat+x := by
    rw [cell_eq hset.area_lt hin,UInt32.toNat_ofNat',UInt32.toNat_ofNat',
      Nat.mod_eq_of_lt (by omega),Nat.mod_eq_of_lt (by omega)]
  obtain ⟨hend,hsession,hempty⟩ := commandLoop_item env hr hbytes (scan_set_item env.build
    ⟨⟨by omega,by omega⟩,h.length.imp_right And.left,h.hex⟩ []) hfuel
  obtain ⟨fb,events,hexec,hsize,hpixels⟩ := set_stores hset hfb hoffset hin h
  rw [Item.command,hexec] at hend hsession hempty
  rw [hsession]
  refine ⟨hend,hempty rfl,?_⟩
  have hlt := (List.getElem?_eq_some_iff.mp hk).1
  have hsizes : ∀ other∈fbs.set k fb,other.size=size := fun other hmem =>
    (List.mem_or_eq_of_mem_set hmem).elim (hfbs other) fun he => he ▸ hsize
  obtain ⟨report,hrun,hret,hreport,hpixel⟩ := coalesce_takes hset.no_blending rand hset.net_size
    hsizes (List.getElem?_set_self hlt) (cell_lt_product hset.area_lt hin)
    (by rw [hpixels,writePixel,if_pos rfl]) (pixel_visible h).1 fun j other hj hget => by
      rw [List.getElem?_set_ne fun hc => hj hc.symm] at hget
      rw [hcell]
      exact hothers j other hj hget
  refine ⟨report,hrun,hret,fun conn' hr' hfb' hoffset' hbytes' fuel' hfuel' => ?_⟩
  have hmerged : PixelSetting {env with netFb := report.fb} size :=
    ⟨hset.no_blending,hset.host,hreport,hw,hh,hset.area_lt⟩
  exact get_answered hmerged hr' hfb' hoffset' hx hy h hpixel hbytes' hfuel'

/-- `fF8000` as digits. -/
def mixedCase : List (ℕ×Bool) := [(15,false),(15,true),(8,false),(0,false),(0,false),(0,false)]

/-- A connection that has received a set of that colour. -/
def settingConn : Conn := holdingConn (Item.set 1 2 mixedCase).bytes 3 (freshSession (blankFb 4 4))

/-- It is merged, and can be read back. -/
theorem pixel_roundTrip_mixedCase :
    ∃ report, fbCoalesce (plainEnv 4 4).build zeroRand (plainEnv 4 4).netFb
        ([blankFb 4 4,blankFb 4 4].set 1
          (netCommandLoop (plainEnv 4 4) 9 settingConn).conn.session.fb)=some report ∧ report.ret=0 ∧
      Answered {plainEnv 4 4 with netFb := report.fb}
        (holdingConn (Item.get 1 2).bytes 0 (freshSession (blankFb 4 4))) (answerLine 1 2 mixedCase)
        (netCommandLoop {plainEnv 4 4 with netFb := report.fb} 9
          (holdingConn (Item.get 1 2).bytes 0 (freshSession (blankFb 4 4)))) := by
  have hpixels : ∀ j other, j≠1 → [blankFb 4 4,blankFb 4 4][j]?=some other →
      (other.pixels (2*4+1)).alpha=0 := by
    intro j other _ hget
    have hmem := List.mem_of_getElem? hget
    simp only [List.mem_cons,List.not_mem_nil,or_false,or_self] at hmem
    rw [hmem]
    rfl
  have hspec := holdingConn_spec (Item.set 1 2 mixedCase).bytes 3 (freshSession (blankFb 4 4))
  have hspec' := holdingConn_spec (Item.get 1 2).bytes 0 (freshSession (blankFb 4 4))
  obtain ⟨_,_,report,hrun,hret,hget⟩ := @pixel_roundTrip (plainEnv 4 4) ⟨4,4⟩ mixedCase
    ⟨rfl,rfl,rfl,by decide,by decide,by decide⟩ [blankFb 4 4,blankFb 4 4] (by simp [blankFb]) 1
    settingConn hspec.1 rfl ⟨rfl,rfl⟩ 1 2 (by decide) (by decide) ⟨by decide,Or.inl rfl⟩ hpixels
    hspec.2.1 9 (by omega) zeroRand
  exact ⟨report,hrun,hret,hget _ hspec'.1 rfl ⟨rfl,rfl⟩ hspec'.2.1 9 (by omega)⟩

end Shoreline.RoundTrip
