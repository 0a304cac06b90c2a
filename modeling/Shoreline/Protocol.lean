import Shoreline.CommandHistory
import Shoreline.Coordinates
import Shoreline.ItemText

/-!
# Encoded commands are performed

What the commands of a client mean in natural numbers, without machine words
and without a parser, and the proof that the receive loop performs encoded
commands so, in order and nothing else, however the stream is cut into reads.
-/

namespace Shoreline.Protocol

open IncrementalReader RingBuffer RingContent NetToken NetConnection TokenScan CommandScan
open CommandGrammar CommandLoop CommandHistory CommandText ItemText Coordinates Framebuffer

/-- What commands cause. -/
inductive Effect where
  | pixel (x y abgr : ℕ)
  | reply (bytes : List UInt8)
  | offset (x y : ℕ)
  deriving DecidableEq

/-- What a client's commands act on. -/
structure Client where
  /-- Offset of all coordinates. -/
  offsetX : ℕ
  /-- Offset of all coordinates. -/
  offsetY : ℕ
  /-- The pixels drawn on, row by row. -/
  pixels : ℕ → FbPixel
  /-- Everything sent to the client. -/
  sent : List UInt8
  /-- Everything that happened. -/
  effects : List Effect

/-- What commands read. -/
structure Screen where
  /-- Width of the surface. -/
  width : ℕ
  /-- Height of the surface. -/
  height : ℕ
  /-- The picture from which gets are answered, as `abgr` values. -/
  picture : ℕ → ℕ → ℕ

/-- The `abgr` value of six or eight hexadecimal digits. -/
def colourValue (digits : List (ℕ×Bool)) : ℕ :=
  if digits.length=6 then denoted 16 (digits.map Prod.fst)*256+255
  else denoted 16 (digits.map Prod.fst)

/-- One line of an answer to a get. -/
def pixelLine (x y rgb : ℕ) : List UInt8 :=
  verbPx++[0x20]++formatUnsigned x++[0x20]++formatUnsigned y++[0x20]++formatHex06 rgb++[0x0a]

/-- One line of an answer to a size request. -/
def sizeLine (width height : ℕ) : List UInt8 :=
  verbSize++[0x20]++formatUnsigned width++[0x20]++formatUnsigned height++[0x0a]

/-- Send a line. -/
def Client.reply (client : Client) (line : List UInt8) : Client :=
  {client with sent := client.sent++line, effects := client.effects++[.reply line]}

/-- The meaning of one item. -/
def perform (screen : Screen) (client : Client) : Item → Client
  | .set x y digits =>
    let px := x+client.offsetX
    let py := y+client.offsetY
    if px<screen.width ∧ py<screen.height then
      {client with
        pixels := writePixel client.pixels (py*screen.width+px)
          (FbPixel.ofAbgr .littleEndian (UInt32.ofNat (colourValue digits)))
        effects := client.effects++[.pixel px py (colourValue digits)]}
    else client
  | .get x y =>
    let px := x+client.offsetX
    let py := y+client.offsetY
    if px<screen.width ∧ py<screen.height then
      client.reply (pixelLine px py (screen.picture px py/256))
    else client
  | .size => client.reply (sizeLine screen.width screen.height)
  | .offset x y =>
    {client with offsetX := x, offsetY := y, effects := client.effects++[.offset x y]}
  | .junk _ => client

/-- Sums of coordinates and offsets stay below the word size. -/
def SumsFit : ℕ → ℕ → List Item → Prop
  | _,_,[] => True
  | ox,oy,.set x y _::items => (x+ox<2^32 ∧ y+oy<2^32) ∧ SumsFit ox oy items
  | ox,oy,.get x y::items => (x+ox<2^32 ∧ y+oy<2^32) ∧ SumsFit ox oy items
  | _,_,.offset x y::items => SumsFit x y items
  | ox,oy,.size::items => SumsFit ox oy items
  | ox,oy,.junk _::items => SumsFit ox oy items

/-- The server that the meaning is about: both optional commands, no
blending, a little-endian host, a connection framebuffer of the same
moderate size as the main one, and a socket that takes what is written. -/
structure Setting (env : NetEnv) (size : FbSize) : Prop where
  /-- `SIZE` is compiled in. -/
  feature_size : env.build.featureSize=true
  /-- `OFFSET` is compiled in. -/
  feature_offset : env.build.featureOffset=true
  /-- Blending is not. -/
  no_blending : env.build.featureAlphaBlending=false
  /-- The host is little-endian. -/
  host : env.build.host=.littleEndian
  /-- Both framebuffers have the same size. -/
  net_size : env.netFb.size=size
  /-- Nine digits suffice. -/
  width_lt : size.width.toNat<10^9
  /-- Nine digits suffice. -/
  height_lt : size.height.toNat<10^9
  /-- Indices do not wrap around. -/
  area_lt : size.width.toNat*size.height.toNat<2^32
  /-- Writing to the client does not fail; it may be partial. -/
  socket_ok : ∀ sent buffer e, env.socket.write sent buffer≠.error e

/-- The screen of a server. -/
def screenOf (env : NetEnv) (size : FbSize) : Screen where
  width := size.width.toNat
  height := size.height.toNat
  picture x y := ((env.netFb.pixels (y*size.width.toNat+x)).abgr .littleEndian).toNat

/-- The effect that an event of a connection has. -/
def effectOf : Event → Option Effect
  | .gotGet _ _ => none
  | .gotSet _ _ _ => none
  | .drew x y pixel => some (.pixel x.toNat y.toNat (pixel.abgr .littleEndian).toNat)
  | .replied bytes => some (.reply bytes)
  | .movedOffset x y => some (.offset x.toNat y.toNat)

/-- A session as a client. -/
def clientOf (session : Session) : Client where
  offsetX := session.offsetX.toNat
  offsetY := session.offsetY.toNat
  pixels := session.fb.pixels
  sent := session.sent
  effects := session.events.filterMap effectOf

/-- Storing and loading the word of a pixel. -/
theorem abgr_ofAbgr (w : UInt32) :
    (FbPixel.ofAbgr .littleEndian w).abgr .littleEndian=w := by
  have hw := w.toNat_lt
  refine UInt32.toNat_inj.mp ?_
  dsimp only [FbPixel.ofAbgr,FbPixel.abgr]
  rw [UInt32.toNat_ofNat',UInt8.toNat_ofNat',UInt8.toNat_ofNat',UInt8.toNat_ofNat',
    UInt8.toNat_ofNat']
  omega

/-- Shifting a six-digit colour and making it opaque. -/
theorem opaque_ofAbgr {v : ℕ} (hv : v<2^24) :
    (FbPixel.ofAbgr .littleEndian (UInt32.ofNat v<<<8)).setAlpha 0xff=
      FbPixel.ofAbgr .littleEndian (UInt32.ofNat (v*256+255)) := by
  have hshift : (UInt32.ofNat v<<<8).toNat=v*256 := by
    have h8 : (8 : UInt32).toNat%32=8 := rfl
    rw [UInt32.toNat_shiftLeft,UInt32.toNat_ofNat',h8,Nat.shiftLeft_eq]
    omega
  have hword : (UInt32.ofNat (v*256+255)).toNat=v*256+255 := by
    rw [UInt32.toNat_ofNat']
    omega
  have hlow : UInt8.ofNat (v*256+255)=0xff := by
    refine UInt8.toNat_inj.mp ?_
    rw [UInt8.toNat_ofNat']
    show _=255
    omega
  have hhigh : (v*256+255)/256=v*256/256 ∧ (v*256+255)/65536=v*256/65536 ∧
      (v*256+255)/16777216=v*256/16777216 := by omega
  dsimp only [FbPixel.ofAbgr,FbPixel.setAlpha]
  rw [hshift,hword,hlow,hhigh.1,hhigh.2.1,hhigh.2.2]

/-- The pixel of a set is the one its digits denote. -/
theorem colour_hex {digits : List (ℕ×Bool)} (hlen : digits.length=6 ∨ digits.length=8)
    (h : ∀ d∈digits,d.1<16) :
    colour .littleEndian (digits.map hexChar)=
        FbPixel.ofAbgr .littleEndian (UInt32.ofNat (colourValue digits)) ∧
      colourValue digits<2^32 := by
  have hbound : denoted 16 (digits.map Prod.fst)<16^digits.length := by
    have hlt := @Nat.ofDigits_lt_base_pow_length 16 (digits.map Prod.fst).reverse (by omega) (by
      intro d hd
      obtain ⟨e,he,rfl⟩ := List.mem_map.mp (List.mem_reverse.mp hd)
      exact h e he)
    rwa [List.length_reverse,List.length_map] at hlt
  unfold colour colourValue
  rw [List.length_map,hexadecimal_hex h]
  rcases hlen with hlen | hlen
  · rw [hlen] at hbound
    rw [if_neg (by omega),if_pos hlen,opaque_ofAbgr (by omega)]
    exact ⟨rfl,by omega⟩
  · rw [hlen] at hbound
    rw [if_pos (by omega),if_neg (by omega)]
    exact ⟨rfl,by omega⟩

/-- A socket that never fails takes the whole text, however often it has to be
asked. -/
theorem netSockWriteLoop_all {socket : Socket}
    (hok : ∀ sent buffer e, socket.write sent buffer≠.error e) {fuel : ℕ}
    {sent rest : List UInt8} (h : rest.length≤fuel) :
    netSockWriteLoop socket fuel sent rest=(0,sent++rest) := by
  induction fuel generalizing sent rest with
  | zero =>
    rw [List.eq_nil_of_length_eq_zero (by omega : rest.length=0),List.append_nil]
    rfl
  | succ fuel ih =>
    rw [netSockWriteLoop]
    by_cases hnil : rest=[]
    · rw [if_pos hnil,hnil,List.append_nil]
    · rw [if_neg hnil]
      cases hw : socket.write sent rest with
      | error e => exact absurd hw (hok sent rest e)
      | ok n =>
        have hpos := socket.taken_pos sent rest n hw hnil
        dsimp only
        rw [ih (by rw [List.length_drop]; omega),List.append_assoc,List.take_append_drop]

/-- Short texts are sent. -/
theorem netReply_sent {env : NetEnv} (hok : ∀ sent buffer e, env.socket.write sent buffer≠.error e)
    (session : Session) {text : List UInt8} (h : text.length<scratchStrMax) :
    netReply env session text=((text.length : ℤ),{session with
      sent := session.sent++text
      events := session.events++[.replied text]}) := by
  unfold netReply netSockPrintf
  rw [if_neg (by omega),netSockWriteLoop_all hok (le_refl _)]
  dsimp only
  rw [if_neg (by omega),List.drop_left]

/-- Written numbers are as long as their digits. -/
theorem formatUnsigned_length {n : ℕ} (h : n<10^9) : (formatUnsigned n).length≤9 := by
  rw [formatUnsigned_eq,List.length_map]
  exact (decDigits_length (by omega) h).2

/-- Six hexadecimal digits are six. -/
theorem formatHex06_length {n : ℕ} (h : n<2^24) : (formatHex06 n).length=6 := by
  have hlen : (Nat.digits 16 n).length≤6 :=
    (Nat.digits_length_le_iff (by omega : 1<16) n).mpr (by omega)
  rw [formatHex06,List.length_map,List.length_append,List.length_replicate,List.length_reverse]
  omega

/-- Every line of a get fits the scratch buffer. -/
theorem pixelLine_length {x y rgb : ℕ} (hx : x<10^9) (hy : y<10^9) (hrgb : rgb<2^24) :
    (pixelLine x y rgb).length<scratchStrMax := by
  have h1 := formatUnsigned_length hx
  have h2 := formatUnsigned_length hy
  have h3 := formatHex06_length hrgb
  simp only [pixelLine,verbPx,scratchStrMax,List.length_append,List.length_cons,List.length_nil]
  omega

/-- Every line of a size request fits the scratch buffer. -/
theorem sizeLine_length {width height : ℕ} (hw : width<10^9) (hh : height<10^9) :
    (sizeLine width height).length<scratchStrMax := by
  have h1 := formatUnsigned_length hw
  have h2 := formatUnsigned_length hh
  simp only [sizeLine,verbSize,scratchStrMax,List.length_append,List.length_cons,List.length_nil]
  omega

/-- A sum below the word size is the sum of the machine words. -/
theorem toNat_sum {n : ℕ} {offset : UInt32} (h : n+offset.toNat<2^32) :
    (UInt32.ofNat n+offset).toNat=n+offset.toNat := by
  rw [toNat_add_offset,wrapped,Nat.mod_eq_of_lt h]

/-- Inside the surface, in words and in numbers. -/
theorem contains_iff {size : FbSize} {x y : UInt32} :
    size.Contains x y ↔ x.toNat<size.width.toNat ∧ y.toNat<size.height.toNat := by
  rw [FbSize.Contains,UInt32.lt_iff_toNat_lt,UInt32.lt_iff_toNat_lt]

/-- What a command must do to perform an item: get done, change the client as
the item means, and keep the size of the surface. -/
structure Performs (env : NetEnv) (size : FbSize) (session : Session) (item : Item)
    (out : CommandEnd×Session) : Prop where
  /-- It gets done. -/
  done : out.1=.done
  /-- It means what the item means. -/
  client : clientOf out.2=perform (screenOf env size) (clientOf session) item
  /-- The surface keeps its size. -/
  size : out.2.fb.size=size

variable {env : NetEnv} {size : FbSize}

/-- A set is performed. -/
theorem set_performs (hset : Setting env size) {session : Session} (hfb : session.fb.size=size)
    {x y : ℕ} {digits : List (ℕ×Bool)} (hwf : (Item.set x y digits).WellFormed)
    (hsum : x+session.offsetX.toNat<2^32 ∧ y+session.offsetY.toNat<2^32) :
    Performs env size session (.set x y digits) (exec env session (Item.set x y digits).command) := by
  obtain ⟨_,hlen,hhex⟩ := hwf
  obtain ⟨hcol,hval⟩ := colour_hex hlen hhex
  have hx := toNat_sum hsum.1
  have hy := toNat_sum hsum.2
  dsimp only [Item.command,exec]
  rw [hset.host,hcol]
  generalize UInt32.ofNat x+session.offsetX=px at hx ⊢
  generalize UInt32.ofNat y+session.offsetY=py at hy ⊢
  by_cases hin : session.fb.size.Contains px py
  · obtain ⟨out,fb,hdraw,hsize,hpixels,hplain⟩ := netDraw_inside env
      (FbPixel.ofAbgr .littleEndian (UInt32.ofNat (colourValue digits))) hin
    have harea : session.fb.size.width.toNat*session.fb.size.height.toNat<2^32 := by
      rw [hfb]
      exact hset.area_lt
    have hindex := fbIndex_eq harea hin
    have habgr : (UInt32.ofNat (colourValue digits)).toNat=colourValue digits := by
      rw [UInt32.toNat_ofNat',Nat.mod_eq_of_lt hval]
    rw [hfb] at hindex
    rw [hplain hset.no_blending] at hdraw hpixels
    have hin' := contains_iff.mp hin
    rw [hfb] at hin'
    rw [hdraw]
    refine ⟨rfl,?_,hsize.trans hfb⟩
    dsimp only [clientOf,perform,screenOf]
    rw [←hx,←hy,if_pos hin',hpixels,hindex,List.filterMap_append,List.filterMap_append]
    simp only [List.filterMap_cons,List.filterMap_nil,effectOf,List.append_nil,abgr_ofAbgr,habgr]
  · have hin' := fun h => hin (contains_iff.mpr h)
    rw [hfb] at hin'
    rw [netDraw_outside env _ hin]
    refine ⟨rfl,?_,hfb⟩
    dsimp only [clientOf,perform,screenOf]
    rw [←hx,←hy,if_neg hin',List.filterMap_append]
    simp only [List.filterMap_cons,List.filterMap_nil,effectOf,List.append_nil]

/-- A get is performed. -/
theorem get_performs (hset : Setting env size) {session : Session} (hfb : session.fb.size=size)
    {x y : ℕ} (hsum : x+session.offsetX.toNat<2^32 ∧ y+session.offsetY.toNat<2^32) :
    Performs env size session (.get x y) (exec env session (Item.get x y).command) := by
  have hx := toNat_sum hsum.1
  have hy := toNat_sum hsum.2
  dsimp only [Item.command,exec]
  generalize UInt32.ofNat x+session.offsetX=px at hx ⊢
  generalize UInt32.ofNat y+session.offsetY=py at hy ⊢
  unfold netGetPixel
  dsimp only
  by_cases hin : session.fb.size.Contains px py
  · have hnet : env.netFb.size.Contains px py := by rw [hset.net_size,←hfb]; exact hin
    have harea : env.netFb.size.width.toNat*env.netFb.size.height.toNat<2^32 := by
      rw [hset.net_size]
      exact hset.area_lt
    have hindex := fbIndex_eq harea hnet
    have hin' := contains_iff.mp hin
    rw [hfb] at hin'
    have hw := hset.width_lt
    have hh := hset.height_lt
    generalize hpixel : env.netFb.pixels (py.toNat*size.width.toNat+px.toNat)=pixel
    have hword := (pixel.abgr .littleEndian).toNat_lt
    have hrgb : (pixel.abgr .littleEndian>>>8).toNat=(pixel.abgr .littleEndian).toNat/256 := by
      have h8 : (8 : UInt32).toNat%32=8 := rfl
      rw [UInt32.toNat_shiftRight,h8,Nat.shiftRight_eq_div_pow]
    have hline : pixelReply px py (pixel.abgr env.build.host>>>8)=
        pixelLine px.toNat py.toNat ((pixel.abgr .littleEndian).toNat/256) := by
      rw [pixelReply,hset.host,hrgb,pixelLine]
    rw [if_pos hin,fbGetPixel,if_pos hnet,hindex,hset.net_size,hpixel]
    dsimp only
    rw [hline,netReply_sent hset.socket_ok _ (pixelLine_length (by omega) (by omega) (by omega)),
      if_neg (by omega)]
    refine ⟨rfl,?_,hfb⟩
    dsimp only [clientOf,perform,screenOf,Client.reply]
    rw [←hx,←hy,if_pos hin',hpixel,List.filterMap_append,List.filterMap_append]
    simp only [List.filterMap_cons,List.filterMap_nil,effectOf,List.append_nil]
  · have hin' := fun h => hin (contains_iff.mpr h)
    rw [hfb] at hin'
    rw [if_neg hin]
    refine ⟨rfl,?_,hfb⟩
    dsimp only [clientOf,perform,screenOf]
    rw [←hx,←hy,if_neg hin',List.filterMap_append]
    simp only [List.filterMap_cons,List.filterMap_nil,effectOf,List.append_nil]

/-- A size request is performed. -/
theorem size_performs (hset : Setting env size) {session : Session} (hfb : session.fb.size=size) :
    Performs env size session .size (exec env session Item.size.command) := by
  have hline : sizeReply session.fb.size=sizeLine size.width.toNat size.height.toNat := by
    rw [sizeReply,hfb,sizeLine]
  dsimp only [Item.command,exec]
  rw [hline,netReply_sent hset.socket_ok session (sizeLine_length hset.width_lt hset.height_lt),
    if_neg (by omega)]
  refine ⟨rfl,?_,hfb⟩
  dsimp only [clientOf,perform,Client.reply,screenOf]
  rw [List.filterMap_append]
  rfl

/-- An offset command is performed. -/
theorem offset_performs {session : Session} (hfb : session.fb.size=size) {x y : ℕ}
    (hwf : x<2^32 ∧ y<2^32) :
    Performs env size session (.offset x y) (exec env session (Item.offset x y).command) := by
  have hx : (UInt32.ofNat x).toNat=x := by rw [UInt32.toNat_ofNat',Nat.mod_eq_of_lt hwf.1]
  have hy : (UInt32.ofNat y).toNat=y := by rw [UInt32.toNat_ofNat',Nat.mod_eq_of_lt hwf.2]
  refine ⟨rfl,?_,hfb⟩
  dsimp only [Item.command,exec,perform,clientOf]
  rw [List.filterMap_append]
  simp only [List.filterMap_cons,List.filterMap_nil,effectOf,hx,hy]

/-- Limits of the sums of one item. -/
theorem item_performs (hset : Setting env size) {session : Session} (hfb : session.fb.size=size)
    {item : Item} {items : List Item} (hwf : item.WellFormed)
    (hsum : SumsFit session.offsetX.toNat session.offsetY.toNat (item::items)) :
    Performs env size session item (exec env session item.command) ∧
      SumsFit (perform (screenOf env size) (clientOf session) item).offsetX
        (perform (screenOf env size) (clientOf session) item).offsetY items := by
  cases item with
  | set x y digits =>
    refine ⟨set_performs hset hfb hwf hsum.1,?_⟩
    dsimp only [perform]
    split <;> exact hsum.2
  | get x y =>
    refine ⟨get_performs hset hfb hsum.1,?_⟩
    dsimp only [perform]
    split <;> exact hsum.2
  | size => exact ⟨size_performs hset hfb,hsum⟩
  | offset x y => exact ⟨offset_performs hfb hwf,hsum⟩
  | junk token => exact ⟨⟨rfl,rfl,hfb⟩,hsum⟩

/-- Draining an encoded stream performs its items. -/
theorem drainAll_encode (hset : Setting env size) {session : Session} (hfb : session.fb.size=size)
    {items : List Item} (hwf : ∀ item∈items,item.WellFormed)
    (hsum : SumsFit session.offsetX.toNat session.offsetY.toNat items) :
    ∃ session', drainAll env session (encode items)=.waiting session' [] ∧
      clientOf session'=items.foldl (perform (screenOf env size)) (clientOf session) ∧
      session'.fb.size=size := by
  induction items generalizing session with
  | nil => exact ⟨session,Grammar.drainAll_nil session,rfl,hfb⟩
  | cons item items ih =>
    have htail : ∀ item'∈items,item'.WellFormed := fun item' hmem =>
      hwf item' (List.mem_cons_of_mem item hmem)
    have hrest := blanks_encode htail
    have hscan := scan_item hset.feature_size hset.feature_offset (hwf item List.mem_cons_self) hrest
    have hne : item.text++0x0a::encode items≠[] :=
      List.append_ne_nil_of_right_ne_nil _ (List.cons_ne_nil _ _)
    obtain ⟨hperf,hnext⟩ := item_performs hset hfb (hwf item List.mem_cons_self) hsum
    rw [←hperf.client] at hnext
    obtain ⟨session',hdrain,hclient,hsize⟩ := ih hperf.size htail hnext
    refine ⟨session',?_,?_,hsize⟩
    · rw [encode_cons,drainAll,Grammar.drainAll_item hne hscan]
      dsimp only [consumer]
      rw [if_pos hperf.done,rest_item env.build item hrest]
      exact hdrain
    · rw [hclient,hperf.client,List.foldl_cons]

/-- The events of commands only add effects. -/
theorem effects_mono {session session' : Session} (h : session.events<+:session'.events) :
    (clientOf session).effects<+:(clientOf session').effects := h.filterMap effectOf

/-- As long as something of the stream is missing, a ring larger than every
item has space behind what is pending. -/
theorem pending_room (hset : Setting env size) {items : List Item}
    (hwf : ∀ item∈items,item.WellFormed) (hne : items≠[]) {session : Session} {ringSize : ℕ}
    (hring : ∀ item∈items,item.bytes.length<ringSize) {pending back : List UInt8}
    (hscan : pending=[] ∨ scan env.build pending=.wait)
    (hrem : Remaining items session (pending++back)) : pending.length+1<ringSize := by
  by_cases hnil : pending=[]
  · obtain ⟨item,items,rfl⟩ := List.exists_cons_of_ne_nil hne
    have hlen := hring item List.mem_cons_self
    obtain ⟨a,tail,htext,_⟩ := text_cons (hwf item List.mem_cons_self)
    rw [Item.bytes,htext,List.length_append,List.length_cons,List.length_singleton] at hlen
    rw [hnil,List.length_nil]
    omega
  · obtain ⟨item,hmem,hlt⟩ := pending_length_lt hset.feature_size hset.feature_offset hwf hnil
      (hscan.resolve_left hnil) hrem
    have hlen := hring item hmem
    omega

/-- However an encoded stream is cut into reads, the receive loop keeps
reading, has space for more as long as something is missing, and performs the
items in order and nothing else. -/
theorem encoded_stream_performed (hset : Setting env size) {items : List Item}
    (hwf : ∀ item∈items,item.WellFormed) {conn : Conn} (hr : RingInv conn.reader.ring)
    (hempty : content conn.reader.ring=[]) (hfb : conn.session.fb.size=size)
    (hsum : SumsFit conn.session.offsetX.toNat conn.session.offsetY.toNat items)
    (hring : ∀ item∈items,item.bytes.length<conn.reader.ring.size)
    {reads : List (List UInt8)} {back : List UInt8} (hcut : reads.flatten++back=encode items)
    (hfit : ReadsFit env conn reads) :
    (netReceiveLoop env conn (reads.map .data)).1=.reading ∧
    (back≠[] → 0<ringFreeSpaceContig (netReceiveLoop env conn (reads.map .data)).2.reader.ring) ∧
    (clientOf (netReceiveLoop env conn (reads.map .data)).2.session).effects<+:
      (items.foldl (perform (screenOf env size)) (clientOf conn.session)).effects ∧
    (back=[] →
      content (netReceiveLoop env conn (reads.map .data)).2.reader.ring=[] ∧
      clientOf (netReceiveLoop env conn (reads.map .data)).2.session=
        items.foldl (perform (screenOf env size)) (clientOf conn.session)) := by
  have hguards := guards_encode hset.feature_size hset.feature_offset hwf
  have hremaining : Remaining items conn.session ([]++(reads.flatten++back)) := by
    rw [List.nil_append,hcut]
    exact ⟨items,fun _ hmem => hmem,dropWhile_of_blanks (blanks_encode hwf)⟩
  obtain ⟨session',hdrain,hclient,_⟩ := drainAll_encode hset hfb hwf hsum
  have hfeed := netReceiveLoop_feeds env hr hfit
  rw [hempty] at hfeed
  obtain ⟨hwait,hclosed,hex⟩ := Grammar.foldl_feed_append hguards hremaining
  rw [List.nil_append,hcut] at hwait hclosed
  have hwhole : (grammar env.build).drainAll (consumer env) conn.session (encode items)=
      .waiting session' [] := hdrain
  cases hres : reads.foldl ((grammar env.build).feed (consumer env)) (.waiting conn.session []) with
  | exhausted => exact absurd hres hex
  | closed why t =>
    have he := hclosed why t hres
    rw [hwhole] at he
    cases he
  | waiting t pending =>
    obtain ⟨hgo,hrem⟩ := hwait t pending hres
    rw [hwhole] at hgo
    rw [hres] at hfeed
    obtain ⟨hend,hsess,hinv,hcont,hsize,_⟩ := hfeed
    have hscan := Grammar.scan_of_feeding (Or.inl rfl) hres
    have hstate : (drainAll env t (pending++back)).state?=some session' := by
      rw [drainAll,←hgo]
      rfl
    rw [hsess,hcont,←hclient]
    refine ⟨hend,fun hback => ?_,effects_mono (drainAll_events env hstate),
      fun hback => ?_⟩
    · have hne : items≠[] := by
        rintro rfl
        exact hback (List.append_eq_nil_iff.mp hcut).2
      have hroom := pending_room hset hwf hne hring hscan hrem
      have hsum := available_add_freeSpace hinv
      rw [←content_length,hcont,hsize] at hsum
      exact freeSpaceContig_pos hinv (by omega)
    · subst hback
      rw [List.append_nil] at hgo
      obtain ⟨rfl,rfl⟩ := Grammar.pending_of_drainAll hscan hgo.symm
      exact ⟨rfl,rfl⟩

/-- The server with default features on a picture of four by four pixels. -/
theorem plainEnv_setting : Setting (plainEnv 4 4) ⟨4,4⟩ :=
  ⟨rfl,rfl,rfl,rfl,rfl,by decide,by decide,by decide,fun _ _ _ h => by cases h⟩

/-- `PX 1 2 ff8000`, junk and a size request, cut inside the first command. -/
def smallItems : List Item :=
  [.set 1 2 [(15,false),(15,true),(8,false),(0,false),(0,false),(0,false)],.junk [0x78],.size]

/-- The two reads. -/
def smallReads : List (List UInt8) := [(encode smallItems).take 5,(encode smallItems).drop 5]

/-- The connection that receives them. -/
def smallConn : Conn := freshConn (newRing 64) (freshSession (blankFb 4 4))

/-- They are performed. -/
theorem encoded_stream_performed_small :
    (netReceiveLoop (plainEnv 4 4) smallConn (smallReads.map .data)).1=.reading ∧
      clientOf (netReceiveLoop (plainEnv 4 4) smallConn (smallReads.map .data)).2.session=
        smallItems.foldl (perform (screenOf (plainEnv 4 4) ⟨4,4⟩)) (clientOf smallConn.session) := by
  have hlens : smallItems.map (fun item => item.bytes.length)=[14,2,5] := by decide +kernel
  have hlen : (encode smallItems).length=21 := by
    rw [encode,List.length_flatMap,hlens]
    rfl
  have hwf : ∀ item∈smallItems,item.WellFormed := by
    simp only [smallItems,List.forall_mem_cons]
    exact ⟨⟨by decide,Or.inl rfl,by decide⟩,⟨word_of_any (List.cons_ne_nil _ _) (by decide) rfl,by decide⟩,trivial,
      fun _ h => absurd h List.not_mem_nil⟩
  have hring : ∀ item∈smallItems,item.bytes.length<64 := fun item hmem => by
    have hin := @List.mem_map_of_mem _ _ _ _ (fun item : Item => item.bytes.length) hmem
    rw [hlens] at hin
    simp only [List.mem_cons,List.not_mem_nil,or_false] at hin
    omega
  have hcut : smallReads.flatten=encode smallItems := by
    rw [smallReads,List.flatten_cons,List.flatten_singleton,List.take_append_drop]
  have hne : ∀ bytes∈smallReads,bytes≠[] := by
    intro bytes hmem
    refine List.ne_nil_of_length_pos ?_
    simp only [smallReads,List.mem_cons,List.not_mem_nil,or_false] at hmem
    rcases hmem with rfl | rfl <;> simp only [List.length_take,List.length_drop,hlen] <;> omega
  have hlt : (encode smallItems).length<64 := by omega
  have hinv : RingInv smallConn.reader.ring := (ready_newRing _ hlt).inv
  have hfit : ReadsFit (plainEnv 4 4) smallConn smallReads := readsFit_newRing _ _ hcut hlt hne
  have hsum : SumsFit 0 0 smallItems := ⟨⟨by omega,by omega⟩,trivial⟩
  have hdone := encoded_stream_performed plainEnv_setting hwf hinv rfl rfl hsum hring
    ((List.append_nil _).trans hcut) hfit
  exact ⟨hdone.1,(hdone.2.2.2 rfl).2⟩

end Shoreline.Protocol
