import Shoreline.OverlaidServer
import Shoreline.SharedCanvas

/-!
# Interleaved streams on the shared canvas

Any number of clients send encoded streams, cut into reads anywhere, while
rounds of all connections, arrivals, coalesces and the texts of the main loop
come in any order. There is one log of strokes, in the order of the steps that
did them, that holds the items of every client in their order, and the server
shows what the canvas shows after that log.
-/

namespace Shoreline.CanvasLog

open IncrementalReader RingBuffer RingContent NetToken NetConnection TokenScan CommandScan
open CommandGrammar CommandLoop CommandText ItemText Protocol Framebuffer Coalesce StateMachine WriteBuffer
open Drawing ServerRun Resizing ByteServer TextOverlay OverlaidServer SharedCanvas

/-- The bytes of a connection that a step receives. -/
def receivedOf (k : ℕ) : SceneEvent → List UInt8
  | .byte (.read j (.data bytes)) => if j=k then bytes else []
  | _ => []

/-- The bytes of a connection that steps receive. -/
def received (k : ℕ) (events : List SceneEvent) : List UInt8 := events.flatMap (receivedOf k)

/-- The item of one client that a stroke is, if it is one. -/
def itemBy (k : ℕ) : Stroke → Option Item
  | .item j item => if j=k then some item else none
  | _ => none

/-- The items of one client in a log. -/
def itemsBy (k : ℕ) (log : List Stroke) : List Item := log.filterMap (itemBy k)

/-- The strokes that make sense on a canvas: a client comes on a layer in use or
on a new one, a client that is there does something, all layers are merged. -/
def Valid (c : Canvas) : Stroke → Prop
  | .join found => ∀ node∈found,node<c.nodes
  | .item k _ => k<c.painters.length
  | .merge order => order.Perm (List.range c.nodes)
  | .texts _ => True

/-- The strokes that a step may stand for: a connection joins unless memory is
short, a round does one item of its client or none, a coalesce merges all
layers in some order, and texts are drawn over the picture. -/
def Stands (host : Host) (size : FbSize) (c : Canvas) : SceneEvent → List Stroke → Prop
  | .byte (.connect _ _ _ _ _),strokes =>
    strokes=[] ∨ ∃ found, Valid c (.join found) ∧ strokes=[.join found]
  | .byte (.read _ _),strokes => strokes=[]
  | .byte (.round k),strokes =>
    strokes=[] ∨ ∃ item, Valid c (.item k item) ∧ strokes=[.item k item]
  | .byte (.other _),strokes => ∃ order, Valid c (.merge order) ∧ strokes=[.merge order]
  | .draw overlays,strokes => strokes=[.texts (textsOf host size overlays)]

/-- A log is made of what the steps stand for, in their order. -/
def Follows (host : Host) (size : FbSize) : Canvas → List SceneEvent → List Stroke → Prop
  | _,[],log => log=[]
  | c,e::es,log => ∃ strokes rest, log=strokes++rest ∧ Stands host size c e strokes ∧
      Follows host size
        (strokes.foldl (canvasStep size.width.toNat size.height.toNat) c) es rest

/-- The canvas of a server that has just started. -/
def blankCanvas (main : Fb) : Canvas := ⟨⟨fun i => main.pixels (i.getD 0),fun _ _ => none⟩,0,[]⟩

/-- The unread bytes of a connection. -/
def contentOf (s : ByteState) (k : ℕ) : List UInt8 :=
  (s.wires[k]?.map fun w => content w.reader.ring).getD []

/-- The offset of a connection. -/
def offsetOf (s : ByteState) (k : ℕ) : ℕ×ℕ :=
  (s.server.clients[k]?.map fun client =>
    (client.session.offsetX.toNat,client.session.offsetY.toNat)).getD (0,0)

/-- What is known of a connection's ring and thread. -/
structure Polite (setup : ByteSetup) (w : Wire) : Prop where
  /-- Its size. -/
  size : w.reader.ring.size=setup.ringSize
  /-- Back at reading, no command is left in the unread bytes. -/
  waits : w.state≠.parsing → content w.reader.ring=[] ∨ scan setup.build (content w.reader.ring)=.wait

/-- The server shows the canvas, and what is unread or still to come of every
stream are the items that its client has not done yet. -/
structure Draws (setup : ByteSetup) (size : FbSize) (s : ByteState) (c : Canvas)
    (rest : ℕ → List Item) (coming : ℕ → List UInt8) : Prop where
  /-- Rings and sessions are in order. -/
  bytes : ByteInv s
  /-- Nothing is resized. -/
  unresized : Unresized s.server
  /-- The picture, its layers and the clients. -/
  shown : Shown size s.server c
  /-- What is not done yet can be encoded. -/
  wf : ∀ k, ∀ item∈rest k,item.WellFormed
  /-- Its sums of coordinates and offsets do not wrap around. -/
  sums : ∀ k, SumsFit (offsetOf s k).1 (offsetOf s k).2 (rest k)
  /-- It is what is unread or still to come, perhaps behind a line end. -/
  pending : ∀ k, (contentOf s k++coming k).dropWhile netIsWhitespace=encode (rest k)
  /-- Connections go back to reading only without a command. -/
  polite : ∀ w∈s.wires,Polite setup w

variable {setup : ByteSetup} {size : FbSize} {s s' : ByteState} {c : Canvas}
  {rest : ℕ → List Item} {coming : ℕ → List UInt8}

/-- Leading whitespace of the first part of a text can be dropped first. -/
theorem dropWhile_append_idem (xs ys : List UInt8) :
    (xs.dropWhile netIsWhitespace++ys).dropWhile netIsWhitespace=
      (xs++ys).dropWhile netIsWhitespace := by
  induction xs with
  | nil => rfl
  | cons a xs ih =>
    cases ha : netIsWhitespace a with
    | true => rw [List.dropWhile_cons_of_pos ha,List.cons_append,List.dropWhile_cons_of_pos ha,ih]
    | false =>
      have hneg : ¬netIsWhitespace a=true := by rw [ha]; exact Bool.false_ne_true
      rw [List.dropWhile_cons_of_neg hneg]

/-- A round that recognises a command that gets done executes it, and consumes
it with the whitespace behind it. -/
theorem byteRound_item {k : ℕ} {w : Wire} (hw : s.wires[k]?=some w) {client : ServerRun.Client}
    (hclient : s.server.clients[k]?=some client) {fb : Fb} (hfb : s.server.fbs[client.fb]?=some fb)
    (hr : RingInv w.reader.ring) {cmd : Command} {n : ℕ}
    (hscan : scan setup.build (content w.reader.ring)=.item cmd n)
    (hne : content w.reader.ring≠[]) {server : Server}
    (hcommand : serverCommand setup.toSetup s.server k cmd=some (.ended .done,server)) :
    byteRound setup s k=some ⟨server,s.wires.set k {w with
      reader := w.reader.skip (n+blanks ((content w.reader.ring).drop n)), state := .parsing}⟩ := by
  have hit := @netIteration_exact (setup.env s k) (w.conn (client.enter fb)) hr cmd n hscan
  have hdrew := exec_drew (setup.env s k) (client.enter fb) cmd
  rw [serverCommand,hclient] at hcommand
  dsimp only at hcommand
  rw [hfb] at hcommand
  dsimp only at hcommand
  have hdone : (exec (setup.env s k) (client.enter fb) cmd).1=.done := by
    split at hcommand
    · cases hcommand
    · exact ServerReply.ended.inj (congrArg Prod.fst (Option.some.inj hcommand))
  change netIteration (setup.env s k) (w.conn (client.enter fb))=
    ((exec (setup.env s k) (client.enter fb) cmd).1,after (w.conn (client.enter fb))
      (taken (content w.reader.ring) cmd n (exec (setup.env s k) (client.enter fb) cmd).1)
      (exec (setup.env s k) (client.enter fb) cmd).2) at hit
  rw [show (exec ⟨_,_,_⟩ (client.enter fb) cmd).1=.done from hdone] at hcommand
  rw [hdone,taken,if_pos rfl] at hit
  cases hcommand
  rw [byteRound,hw,hclient]
  dsimp only
  rw [hfb]
  dsimp only
  rw [anyAvailable_of_ne_nil hr hne,if_pos rfl,hit,←hdrew]
  rfl

/-- A round in front of an incomplete command goes back to reading. -/
theorem byteRound_wait {k : ℕ} {w : Wire} (hw : s.wires[k]?=some w) {client : ServerRun.Client}
    (hclient : s.server.clients[k]?=some client) {fb : Fb} (hfb : s.server.fbs[client.fb]?=some fb)
    (hr : RingInv w.reader.ring) (hscan : scan setup.build (content w.reader.ring)=.wait)
    (hne : content w.reader.ring≠[]) {server : Server}
    (hcommand : serverCommand setup.toSetup s.server k .unknown=some (.ended .done,server)) :
    byteRound setup s k=some ⟨server,s.wires.set k {w with state := .reading}⟩ := by
  have hit := @netIteration_wait (setup.env s k) (w.conn (client.enter fb)) hr hscan
  have hdrew := exec_drew (setup.env s k) (client.enter fb) .unknown
  rw [serverCommand,hclient] at hcommand
  dsimp only at hcommand
  rw [hfb] at hcommand
  cases hcommand
  rw [byteRound,hw,hclient]
  dsimp only
  rw [hfb]
  dsimp only
  rw [anyAvailable_of_ne_nil hr hne,if_pos rfl,hit,←hdrew]
  rfl

/-- Junk leaves the canvas alone. -/
theorem canvasStep_junk (width height : ℕ) (c : Canvas) (k : ℕ) (token : List UInt8) :
    canvasStep width height c (.item k (.junk token))=c := by
  have hops : opsOf width height c (.item k (.junk token))=[] := by
    dsimp only [opsOf,putsOf]
    cases c.painters[k]? <;> rfl
  have hpainters : paintersOf width height c (.item k (.junk token))=c.painters :=
    List.modify_id k c.painters
  dsimp only [canvasStep]
  rw [hops,hpainters]
  rfl

/-- A round that executes nothing leaves the canvas alone. -/
theorem shown_unknown {server : Server} (hset : Settings setup.toSetup server.main size)
    (h : Shown size server c) {k : ℕ} {client : ServerRun.Client}
    (hclient : server.clients[k]?=some client) {fb : Fb} (hfb : server.fbs[client.fb]?=some fb)
    {items : List Item}
    (hsum : SumsFit client.session.offsetX.toNat client.session.offsetY.toNat items) :
    ∃ server' client', serverCommand setup.toSetup server k .unknown=some (.ended .done,server') ∧
      server'.clients=server.clients.set k client' ∧
      SumsFit client'.session.offsetX.toNat client'.session.offsetY.toNat items ∧
      Shown size server' c := by
  have hwf : (Item.junk [0x78]).WellFormed :=
    ⟨word_of_any (List.cons_ne_nil _ _) (by decide) rfl,by decide⟩
  obtain ⟨server',client',hcommand,_,hclients,hsum',hshown⟩ :=
    @Shown.item setup.toSetup size server c hset h k client hclient fb hfb _ items hwf hsum
  rw [canvasStep_junk] at hshown
  exact ⟨server',client',hcommand,hclients,hsum',hshown⟩

/-- What is known of all connections is kept when one of them changes. -/
theorem Draws.set (h : Draws setup size s c rest coming) {k : ℕ} {w w' : Wire}
    (hw : s.wires[k]?=some w) (hwires : s'.wires=s.wires.set k w') {client : ServerRun.Client}
    (hclient : s'.server.clients[k]?=some client)
    (hothers : ∀ j≠k,s'.server.clients[j]?=s.server.clients[j]?) (hbytes : ByteInv s')
    (hunresized : Unresized s'.server) {c' : Canvas} (hshown : Shown size s'.server c')
    {items : List Item} (hwf : ∀ item∈items,item.WellFormed)
    (hsums : SumsFit client.session.offsetX.toNat client.session.offsetY.toNat items)
    {coming' : ℕ → List UInt8} (hcoming : ∀ j≠k,coming' j=coming j)
    (hpending : (content w'.reader.ring++coming' k).dropWhile netIsWhitespace=encode items)
    (hpolite : Polite setup w') :
    Draws setup size s' c' (Function.update rest k items) coming' where
  bytes := hbytes
  unresized := hunresized
  shown := hshown
  wf j := by
    by_cases hj : j=k
    · rw [hj,Function.update_self]
      exact hwf
    · rw [Function.update_of_ne hj]
      exact h.wf j
  sums j := by
    unfold offsetOf
    by_cases hj : j=k
    · rw [hj,Function.update_self,hclient]
      exact hsums
    · rw [Function.update_of_ne hj,hothers j hj]
      exact h.sums j
  pending j := by
    unfold contentOf
    rw [hwires]
    by_cases hj : j=k
    · rw [hj,Function.update_self,List.getElem?_set_self (List.getElem?_eq_some_iff.mp hw).1]
      exact hpending
    · rw [Function.update_of_ne hj,List.getElem?_set_ne (Ne.symm hj),hcoming j hj]
      exact h.pending j
  polite v hv := by
    rw [hwires] at hv
    rcases List.mem_or_eq_of_mem_set hv with hold | rfl
    · exact h.polite v hold
    · exact hpolite

/-- A read appends what is received to what is unread. -/
theorem byteRead_wire (h : ByteInv s) {k : ℕ} {found : Recv} (hp : BytePossible s (.read k found))
    (hstep : byteStep setup s (.read k found)=some ((),s')) :
    ∃ w w', s.wires[k]?=some w ∧ w.state=.reading ∧ s'.wires=s.wires.set k w' ∧
      s'.server=s.server ∧ w'.reader.ring.size=w.reader.ring.size ∧
      content w'.reader.ring=content w.reader.ring++receivedOf k (.byte (.read k found)) ∧
      (w'.state=.parsing ∨ content w'.reader.ring=content w.reader.ring) := by
  obtain ⟨w,client,fb,hw,hstate,hclient,_,hr⟩ := h.at_wire hp.1
  rw [byteStep,byteRead,hw,hclient] at hstep
  refine ⟨w,?_⟩
  cases found with
  | shutdown =>
    cases hstep
    exact ⟨_,hw,hstate,rfl,rfl,rfl,(List.append_nil _).symm,Or.inr rfl⟩
  | closed =>
    cases hstep
    exact ⟨_,hw,hstate,rfl,rfl,rfl,(List.append_nil _).symm,Or.inr rfl⟩
  | data bytes =>
    obtain ⟨conn,hconn,hrec⟩ := @netAcknowledge_received (setup.env s k) (w.conn client.session) hr
      bytes (hp.2 w hw).2
    dsimp only at hstep
    rw [hconn,Option.map_some,Option.map_some] at hstep
    cases hstep
    refine ⟨_,hw,hstate,rfl,rfl,hrec.appends.size,?_,Or.inl rfl⟩
    rw [receivedOf,if_pos rfl]
    exact hrec.appends.content

/-- Received bytes of a client are no longer to come, and nothing else changes. -/
theorem Draws.read {k : ℕ} {found : Recv}
    (h : Draws setup size s c rest fun j => receivedOf j (.byte (.read k found))++coming j)
    (hp : BytePossible s (.read k found)) (hstep : byteStep setup s (.read k found)=some ((),s'))
    (hbytes : ByteInv s') (hunresized : Unresized s'.server) : Draws setup size s' c rest coming := by
  obtain ⟨w,w',hw,hstate,hwires,hserver,hsize,hcontent,hparsing⟩ := byteRead_wire h.bytes hp hstep
  have hlt := (List.getElem?_eq_some_iff.mp hw).1
  rw [h.bytes.length] at hlt
  have hclient := List.getElem?_eq_getElem hlt
  have hpolite := h.polite w (List.mem_of_getElem? hw)
  have hsums := h.sums k
  have hpending := h.pending k
  rw [offsetOf,hclient] at hsums
  rw [contentOf,hw,Option.map_some,Option.getD_some,←List.append_assoc,←hcontent] at hpending
  rw [←Function.update_eq_self k rest]
  refine h.set hw hwires (by rw [hserver]; exact hclient) (fun _ _ => by rw [hserver]) hbytes
    hunresized (by rw [hserver]; exact h.shown) (h.wf k) hsums (fun j hj => ?_) hpending
    ⟨hsize.trans hpolite.size,fun hne => ?_⟩
  · cases found with
    | data bytes => rw [receivedOf,if_neg (Ne.symm hj),List.nil_append]
    | _ => rfl
  · rcases hparsing with hparsing | hsame
    · exact absurd hparsing hne
    · rw [hsame]
      exact hpolite.waits (by rw [hstate]; exact fun hc => by cases hc)

/-- What remains of a stream, as items of the stream. -/
theorem Draws.remaining (h : Draws setup size s c rest coming) (k : ℕ) (session : Session) :
    Remaining (rest k) session (contentOf s k++coming k) :=
  ⟨rest k,fun _ hmem => hmem,h.pending k⟩

/-- What a round recognises in the unread bytes: whitespace, which is skipped,
or the next item. -/
theorem scanned_item (hset : Settings setup.toSetup s.server.main size)
    (h : Draws setup size s c rest coming) {k : ℕ} (hne : contentOf s k≠[]) :
    match scan setup.build (contentOf s k) with
    | .wait => True
    | .reject => False
    | .item cmd n =>
      (cmd=.unknown ∧ n=0 ∧ (((contentOf s k).dropWhile netIsWhitespace)++coming k).dropWhile
          netIsWhitespace=encode (rest k)) ∨
        ∃ item items, rest k=item::items ∧ cmd=item.command ∧
          ((grammar setup.build).rest (contentOf s k) n++coming k).dropWhile netIsWhitespace=
            encode items := by
  have hsettled := @Remaining.settled setup.build (rest k) (h.wf k) (freshSession s.server.main) _
    (h.remaining k _) (contentOf s k) (coming k) hne rfl
  have hpending := h.pending k
  obtain ⟨a,bytes,hcons⟩ := List.exists_cons_of_ne_nil hne
  cases ha : netIsWhitespace a with
  | true =>
    rw [hcons,scan_whitespace setup.build ha,←hcons]
    exact Or.inl ⟨rfl,rfl,(dropWhile_append_idem _ _).trans hpending⟩
  | false =>
    have hwhole : contentOf s k++coming k=encode (rest k) := by
      rw [hcons,List.cons_append,dropWhile_of_blanks (blanks_cons_of_not ha _)] at hpending
      rw [hcons,List.cons_append]
      exact hpending
    cases hrest : rest k with
    | nil =>
      rw [hrest,hcons] at hwhole
      cases hwhole
    | cons item items =>
      have hwf := h.wf k
      rw [hrest,List.forall_mem_cons] at hwf
      have hblanks := blanks_encode hwf.2
      have hscan := scan_item (hset 0).feature_size (hset 0).feature_offset hwf.1 hblanks
      rw [←encode_cons,←hrest,←hwhole] at hscan
      cases hfront : scan setup.build (contentOf s k) with
      | wait => trivial
      | reject =>
        have hreject := hsettled.2 hfront
        change scan setup.build _=_ at hreject
        rw [hscan] at hreject
        cases hreject
      | item cmd n =>
        have hitem := hsettled.1 cmd n hfront
        change scan setup.build _=_ at hitem
        rw [hscan] at hitem
        cases hitem
        refine Or.inr ⟨item,items,rfl,rfl,?_⟩
        have hused := scan_used_le hfront
        have hdrop : (contentOf s k).drop item.text.length++coming k=0x0a::encode items := by
          rw [←List.drop_append_of_le_length hused,hwhole,hrest,encode_cons,List.drop_left]
        rw [Grammar.rest]
        change (((contentOf s k).drop item.text.length).dropWhile netIsWhitespace++coming k).dropWhile
          netIsWhitespace=_
        rw [dropWhile_append_idem,hdrop,List.dropWhile_cons_of_pos rfl,dropWhile_of_blanks hblanks]

/-- A client that a round leaves with given items to do. -/
theorem Draws.afterRound (h : Draws setup size s c rest coming) {k : ℕ} {w w' : Wire}
    (hw : s.wires[k]?=some w) {server : Server} {client : ServerRun.Client}
    (hclients : server.clients=s.server.clients.set k client)
    (hs' : s'=⟨server,s.wires.set k w'⟩) (hbytes : ByteInv s') (hunresized : Unresized s'.server)
    {c' : Canvas} (hshown : Shown size server c') {items : List Item}
    (hwf : ∀ item∈items,item.WellFormed)
    (hsums : SumsFit client.session.offsetX.toNat client.session.offsetY.toNat items)
    (hpending : (content w'.reader.ring++coming k).dropWhile netIsWhitespace=encode items)
    (hpolite : Polite setup w') : Draws setup size s' c' (Function.update rest k items) coming := by
  have hlt := (List.getElem?_eq_some_iff.mp hw).1
  rw [h.bytes.length] at hlt
  subst hs'
  have hget : server.clients[k]?=some client := by rw [hclients,List.getElem?_set_self hlt]
  refine h.set hw rfl hget (fun j hj => ?_) hbytes hunresized hshown hwf hsums
    (fun _ _ => rfl) hpending hpolite
  rw [hclients,List.getElem?_set_ne (Ne.symm hj)]

/-- A round does the next item of its client, or nothing. -/
theorem Draws.round (hset : Settings setup.toSetup s.server.main size)
    (h : Draws setup size s c rest coming) {k : ℕ} (hp : BytePossible s (.round k))
    (hstep : byteStep setup s (.round k)=some ((),s')) (hbytes : ByteInv s')
    (hunresized : Unresized s'.server) :
    Draws setup size s' c rest coming ∨ ∃ item items, rest k=item::items ∧
      Valid c (.item k item) ∧
      Draws setup size s' (canvasStep size.width.toNat size.height.toNat c (.item k item))
        (Function.update rest k items) coming := by
  obtain ⟨w,client,fb,hw,_,hclient,hfb,hr⟩ := h.bytes.at_wire hp
  have hcontent : contentOf s k=content w.reader.ring := by
    rw [contentOf,hw,Option.map_some,Option.getD_some]
  have hsums := h.sums k
  rw [offsetOf,hclient] at hsums
  have hpolite := h.polite w (List.mem_of_getElem? hw)
  have hpending := h.pending k
  rw [hcontent] at hpending
  obtain ⟨s'',hround,hout⟩ := Option.map_eq_some_iff.mp hstep
  obtain rfl : s''=s' := congrArg Prod.snd hout
  obtain ⟨idle,idleClient,hidle,hclients,hsums',hshown⟩ := shown_unknown hset h.shown hclient hfb hsums
  by_cases hnil : content w.reader.ring=[]
  · -- the ring is empty
    rw [byteRound_empty hw hclient hfb (anyAvailable_nil hr hnil)] at hround
    rw [←Function.update_eq_self k rest]
    have hsame : s.server.clients=s.server.clients.set k client := by
      obtain ⟨hlt,hget⟩ := List.getElem?_eq_some_iff.mp hclient
      rw [←hget,List.set_getElem_self]
    exact Or.inl (h.afterRound hw hsame (Option.some.inj hround).symm hbytes hunresized h.shown
      (h.wf k) hsums hpending ⟨hpolite.size,fun _ => Or.inl hnil⟩)
  · have hscanned := scanned_item hset h (k := k) (by rw [hcontent]; exact hnil)
    rw [hcontent] at hscanned
    cases hscan : scan setup.build (content w.reader.ring) with
    | reject =>
      rw [hscan] at hscanned
      exact hscanned.elim
    | wait =>
      rw [byteRound_wait hw hclient hfb hr hscan hnil hidle] at hround
      rw [←Function.update_eq_self k rest]
      exact Or.inl (h.afterRound hw hclients (Option.some.inj hround).symm hbytes hunresized hshown
        (h.wf k) hsums' hpending ⟨hpolite.size,fun _ => Or.inr hscan⟩)
    | item cmd n =>
      rw [hscan] at hscanned
      have hused := scan_blanks_le hscan
      rw [content_length] at hused
      have hskip : ∀ server, content ({w with
          reader := w.reader.skip (n+blanks ((content w.reader.ring).drop n)), state := server} :
            Wire).reader.ring=(grammar setup.build).rest (content w.reader.ring) n := fun _ => by
        rw [rest_eq_drop]
        exact content_reader_skip hr hused
      rcases hscanned with ⟨rfl,rfl,hafter⟩ | ⟨item,items,hrest,rfl,hafter⟩
      · -- whitespace in front is skipped
        rw [byteRound_item hw hclient hfb hr hscan hnil hidle] at hround
        rw [←Function.update_eq_self k rest]
        refine Or.inl (h.afterRound hw hclients (Option.some.inj hround).symm hbytes hunresized hshown
          (h.wf k) hsums' ?_ ⟨hpolite.size,fun hne => absurd rfl hne⟩)
        rw [hskip]
        exact hafter
      · have hwf := h.wf k
        rw [hrest,List.forall_mem_cons] at hwf
        rw [hrest] at hsums
        obtain ⟨server,client',hcommand,_,hclients,hsums',hshown⟩ :=
          h.shown.item hset hclient hfb hwf.1 hsums
        rw [byteRound_item hw hclient hfb hr hscan hnil hcommand] at hround
        have hvalid : k<c.painters.length := by
          rw [h.shown.painters,List.length_map]
          exact (List.getElem?_eq_some_iff.mp hclient).1
        refine Or.inr ⟨item,items,hrest,hvalid,h.afterRound hw hclients (Option.some.inj hround).symm hbytes
          hunresized hshown hwf.2 hsums' ?_ ⟨hpolite.size,fun hne => absurd rfl hne⟩⟩
        rw [hskip]
        exact hafter

/-- A new connection has nothing to read and no offset. -/
theorem Draws.connect (hset : Settings setup.toSetup s.server.main size)
    (h : Draws setup size s c rest coming) (look : ℕ) (node : Option UInt32)
    (block : Option (ℕ → FbPixel)) (numaNode : ℕ) (data : CircularMemory.Memory UInt8)
    (hstep : byteStep setup s (.connect look node block numaNode data)=some ((),s'))
    (hbytes : ByteInv s') (hunresized : Unresized s'.server) :
    Draws setup size s' c rest coming ∨ ∃ found, Valid c (.join found) ∧ Draws setup size s'
      (canvasStep size.width.toNat size.height.toNat c (.join found)) rest coming := by
  obtain rfl : byteConnect setup s look node block numaNode data=s' :=
    congrArg Prod.snd (Option.some.inj hstep)
  rcases h.shown.connect hset look node block numaNode with
    hfailed | ⟨hcode,_,⟨client,hx,hy,hclients⟩,found,hfound,hshown⟩
  · have hsame : byteConnect setup s look node block numaNode data=s := by
      rw [byteConnect,hfailed]
      rfl
    rw [hsame]
    exact Or.inl h
  · have hnew : byteConnect setup s look node block numaNode data=
        ⟨(serverConnect setup.toSetup s.server look node block numaNode).2,
          s.wires++[newWire setup.ringSize data]⟩ := by
      rw [byteConnect,hcode]
      rfl
    rw [hnew] at hbytes hunresized ⊢
    refine Or.inr ⟨found,hfound,hbytes,hunresized,hshown,h.wf,fun k => ?_,fun k => ?_,fun w hw => ?_⟩
    · have hsums := h.sums k
      unfold offsetOf at hsums ⊢
      dsimp only
      rw [hclients]
      rcases Nat.lt_trichotomy k s.server.clients.length with hlt | rfl | hgt
      · rw [List.getElem?_append_left hlt]
        exact hsums
      · rw [List.getElem?_eq_none (le_refl _)] at hsums
        rw [List.getElem?_concat_length,Option.map_some,Option.getD_some,hx,hy]
        exact hsums
      · rw [List.getElem?_eq_none (by omega)] at hsums
        rw [List.getElem?_eq_none (by rw [List.length_append,List.length_singleton]; omega)]
        exact hsums
    · have hpending := h.pending k
      unfold contentOf at hpending ⊢
      dsimp only
      rcases Nat.lt_trichotomy k s.wires.length with hlt | rfl | hgt
      · rw [List.getElem?_append_left hlt]
        exact hpending
      · rw [List.getElem?_eq_none (le_refl _)] at hpending
        rw [List.getElem?_concat_length]
        exact hpending
      · rw [List.getElem?_eq_none (by omega)] at hpending
        rw [List.getElem?_eq_none (by rw [List.length_append,List.length_singleton]; omega)]
        exact hpending
    · rcases List.mem_append.mp hw with hold | hmem
      · exact h.polite w hold
      · rw [List.mem_singleton.mp hmem]
        exact ⟨rfl,fun _ => Or.inl rfl⟩

/-- Without a resize event the main thread only coalesces. -/
theorem Draws.other (hset : Settings setup.toSetup s.server.main size)
    (h : Draws setup size s c rest coming) {e : ServerEvent} (hpoll : ∀ size, e≠.pollResize size)
    (hp : BytePossible s (.other e)) (hstep : byteStep setup s (.other e)=some ((),s'))
    (hbytes : ByteInv s') (hunresized : Unresized s'.server) :
    ∃ order, Valid c (.merge order) ∧ Draws setup size s'
      (canvasStep size.width.toNat size.height.toNat c (.merge order)) rest coming := by
  have hidle := h.unresized.idle
  cases e with
  | coalesce rand =>
    obtain ⟨server,order,hserver,_,hclients,hperm,hshown⟩ := h.shown.coalesce hset rand
    rw [byteStep,hserver] at hstep
    obtain rfl : {s with server := server}=s' := congrArg Prod.snd (Option.some.inj hstep)
    refine ⟨order,hperm,hbytes,hunresized,hshown,h.wf,fun k => ?_,h.pending,h.polite⟩
    have hsums := h.sums k
    unfold offsetOf at hsums ⊢
    dsimp only
    rw [hclients]
    exact hsums
  | connect => exact hp.1.elim
  | command => exact hp.1.elim
  | pollResize size => exact absurd rfl (hpoll size)
  | queueResize priv entry =>
    obtain ⟨_,_,hphase,_⟩ := possible_queueResize hp.2
    rw [hidle] at hphase
    cases hphase
  | leaveQueueing =>
    obtain ⟨_,_,hphase,_⟩ := possible_leaveQueueing hp.2
    rw [hidle] at hphase
    cases hphase
  | resizeMain texture block =>
    obtain ⟨_,hphase⟩ := possible_resizeMain hp.2
    rw [hidle] at hphase
    cases hphase
  | work queue block => exact absurd (h.unresized.queues queue) hp.2.2

/-- The canvas under the texts is drawn over as the framebuffer is. -/
theorem Draws.texts (h : Draws setup size s c rest coming) (overlays : Overlays) :
    Draws setup size (drawScene setup.build.host overlays s)
      (canvasStep size.width.toNat size.height.toNat c
        (.texts (textsOf setup.build.host size overlays))) rest coming := by
  have hmain := h.shown.shows.uniform.main
  have hdrawn := mainLoopDraws_texts setup.build.host overlays hmain
  have hpixels : s.server.main.pixels=fun cell => c.buffer.base (some cell) :=
    funext h.shown.shows.base
  have hserver : ResizeInv (drawScene setup.build.host overlays s).server := by
    refine ⟨h.bytes.server.clients,h.bytes.server.queues,fun k size node hk hreached hmissed => ?_⟩
    have hasked := h.bytes.server.asked k size node hk hreached hmissed
    rw [drawScene,mainLoopDraws_size]
    exact hasked
  refine ⟨⟨hserver,h.bytes.length,h.bytes.ring,h.bytes.overruns,h.bytes.strayPeeks,h.bytes.live⟩,
    ⟨h.unresized.idle,h.unresized.queues,h.unresized.missed⟩,
    ⟨⟨⟨?_,h.shown.shows.uniform.fbs⟩,h.shown.shows.length,fun cell => ?_,h.shown.shows.layer,
      h.shown.shows.beyond⟩,h.shown.painters⟩,h.wf,h.sums,h.pending,h.polite⟩
  · exact (mainLoopDraws_size setup.build.host overlays s.server.main).trans hmain
  · rw [drawScene,hdrawn,hpixels]
    rfl

/-- A step of the server without texts goes through, and does the strokes that it
stands for. -/
theorem Draws.byte (hset : Settings setup.toSetup s.server.main size) (hring : 0<setup.ringSize)
    {e : ByteEvent} (h : Draws setup size s c rest fun k => receivedOf k (.byte e)++coming k)
    (hpoll : ∀ size, e≠.other (.pollResize size)) (hp : BytePossible s e) :
    ∃ s' strokes rest', byteStep setup s e=some ((),s') ∧
      Stands setup.build.host size c (.byte e) strokes ∧
      (∀ k, rest k=itemsBy k strokes++rest' k) ∧
      Draws setup size s' (strokes.foldl (canvasStep size.width.toNat size.height.toNat) c) rest'
        coming := by
  obtain ⟨_,s',hstep,hbytes,hunresized⟩ := byteStep_unresized hring h.bytes h.unresized hpoll hp
  refine ⟨s',?_⟩
  cases e with
  | connect look node block numaNode data =>
    rcases h.connect hset look node block numaNode data hstep hbytes hunresized with
      hsame | ⟨found,hfound,hjoin⟩
    · exact ⟨[],rest,hstep,Or.inl rfl,fun _ => rfl,hsame⟩
    · exact ⟨[.join found],rest,hstep,Or.inr ⟨found,hfound,rfl⟩,fun _ => rfl,hjoin⟩
  | read k found =>
    exact ⟨[],rest,hstep,rfl,fun _ => rfl,h.read hp hstep hbytes hunresized⟩
  | round k =>
    rcases h.round hset hp hstep hbytes hunresized with hsame | ⟨item,items,hrest,hvalid,hdone⟩
    · exact ⟨[],rest,hstep,Or.inl rfl,fun _ => rfl,hsame⟩
    · refine ⟨[.item k item],_,hstep,Or.inr ⟨item,hvalid,rfl⟩,fun j => ?_,hdone⟩
      by_cases hj : j=k
      · have hself : itemBy k (.item k item)=some item := if_pos rfl
        rw [hj,hrest,Function.update_self,itemsBy,List.filterMap_cons_some hself]
        rfl
      · have hother : itemBy j (.item k item)=none := if_neg (Ne.symm hj)
        rw [Function.update_of_ne hj,itemsBy,List.filterMap_cons_none hother]
        rfl
  | other e =>
    obtain ⟨order,hperm,hmerge⟩ := h.other hset
      (fun size he => hpoll size (congrArg ByteEvent.other he)) hp hstep hbytes hunresized
    exact ⟨[.merge order],rest,hstep,⟨order,hperm,rfl⟩,fun _ => rfl,hmerge⟩

/-- Every step goes through, and does the strokes that it stands for. -/
theorem Draws.step (hset : Settings setup.toSetup s.server.main size) (hring : 0<setup.ringSize)
    {e : SceneEvent} (h : Draws setup size s c rest fun k => receivedOf k e++coming k)
    (hpoll : ∀ size, e≠.byte (.other (.pollResize size))) (hp : ScenePossible s e) :
    ∃ s' strokes rest', sceneStep setup s e=some ((),s') ∧
      Stands setup.build.host size c e strokes ∧
      (∀ k, rest k=itemsBy k strokes++rest' k) ∧
      Draws setup size s' (strokes.foldl (canvasStep size.width.toNat size.height.toNat) c) rest'
        coming := by
  cases e with
  | byte e => exact h.byte hset hring (fun size he => hpoll size (congrArg SceneEvent.byte he)) hp
  | draw overlays => exact ⟨_,[_],rest,rfl,rfl,fun _ => rfl,h.texts overlays⟩

/-- Every run goes through, and does the strokes of a log. -/
theorem Draws.run {main : Fb} (hset : Settings setup.toSetup main size) (hring : 0<setup.ringSize)
    {events : List SceneEvent} {back : ℕ → List UInt8}
    (h : Draws setup size s c rest fun k => received k events++back k)
    (hadm : Admitted ScenePossible (sceneStep setup) s events)
    (hpoll : ∀ size, .byte (.other (.pollResize size))∉events) :
    ∃ replies s' log rest', StateMachine.run (sceneStep setup) s events=some (replies,s') ∧
      Follows setup.build.host size c events log ∧
      (∀ k, rest k=itemsBy k log++rest' k) ∧
      Draws setup size s' (log.foldl (canvasStep size.width.toNat size.height.toNat) c) rest' back := by
  induction events generalizing s c rest with
  | nil => exact ⟨[],s,[],rest,rfl,rfl,fun _ => rfl,h⟩
  | cons e events ih =>
    have hfirst : Draws setup size s c rest fun k => receivedOf k e++(received k events++back k) := by
      refine cast (congrArg (Draws setup size s c rest) (funext fun k => ?_)) h
      rw [received,List.flatMap_cons,List.append_assoc]
      rfl
    have hpoll' : ∀ size, e≠.byte (.other (.pollResize size)) := fun size he =>
      hpoll size (List.mem_cons.mpr (Or.inl he.symm))
    obtain ⟨s₁,strokes,rest₁,hstep,hstands,hitems,hmid⟩ :=
      hfirst.step (hset.of_size h.shown.shows.uniform.main) hring hpoll' hadm.1
    obtain ⟨replies,s',log,rest',hrun,hfollows,hitems',hend⟩ := ih hmid (hadm.2 () s₁ hstep)
      fun size hmem => hpoll size (List.mem_cons_of_mem e hmem)
    refine ⟨()::replies,s',strokes++log,rest',?_,⟨strokes,log,rfl,hstands,hfollows⟩,fun k => ?_,?_⟩
    · rw [run_cons events hstep,hrun,Option.map_some]
    · rw [hitems k,hitems' k,itemsBy,itemsBy,itemsBy,List.filterMap_append,List.append_assoc]
    · rw [List.foldl_append]
      exact hend

/-- The server starts as the blank canvas, with all streams still to come. -/
theorem draws_listening (setup : ByteSetup) (main : Fb) {streams : ℕ → List Item}
    (hwf : ∀ k, ∀ item∈streams k,item.WellFormed) (hsum : ∀ k, SumsFit 0 0 (streams k))
    {coming : ℕ → List UInt8} (hcoming : ∀ k, coming k=encode (streams k)) :
    Draws setup main.size (listening main) (blankCanvas main) streams coming where
  bytes := byteInv_listening main
  unresized := ⟨rfl,fun _ => rfl,fun _ => rfl⟩
  shown := by
    refine ⟨⟨⟨rfl,fun _ hmem => absurd hmem List.not_mem_nil⟩,rfl,fun _ => rfl,fun node fb hget => ?_,
      fun _ _ _ => rfl⟩,rfl⟩
    cases hget
  wf := hwf
  sums := hsum
  pending k := by
    rw [hcoming k]
    exact dropWhile_of_blanks (blanks_encode (hwf k))
  polite _ hmem := absurd hmem List.not_mem_nil

/-- A client back at reading with everything received has nothing left to do. -/
theorem Draws.finished (hset : Settings setup.toSetup s.server.main size)
    (h : Draws setup size s c rest coming) {k : ℕ} {w : Wire} (hw : s.wires[k]?=some w)
    (hstate : w.state≠.parsing) (hcoming : coming k=[]) : rest k=[] := by
  have hpending := h.pending k
  rw [contentOf,hw,hcoming,List.append_nil,Option.map_some,Option.getD_some] at hpending
  cases hrest : rest k with
  | nil => rfl
  | cons item items =>
    have hwf := h.wf k
    rw [hrest,List.forall_mem_cons] at hwf
    have hblanks := blanks_encode hwf.2
    rw [hrest,encode_cons] at hpending
    rcases (h.polite w (List.mem_of_getElem? hw)).waits hstate with hnil | hwait
    · rw [hnil] at hpending
      exact absurd hpending.symm (List.append_ne_nil_of_right_ne_nil _ (List.cons_ne_nil _ _))
    · obtain ⟨a,bytes,hcons⟩ : ∃ a bytes, content w.reader.ring=a::bytes := by
        refine List.exists_cons_of_ne_nil fun hnil => ?_
        rw [hnil] at hpending
        exact absurd hpending.symm (List.append_ne_nil_of_right_ne_nil _ (List.cons_ne_nil _ _))
      cases ha : netIsWhitespace a with
      | true =>
        rw [hcons,scan_whitespace setup.build ha] at hwait
        cases hwait
      | false =>
        rw [hcons,dropWhile_of_blanks (blanks_cons_of_not ha _),←hcons] at hpending
        rw [hpending,scan_item (hset 0).feature_size (hset 0).feature_offset hwf.1 hblanks] at hwait
        cases hwait

/-- A client at reading has space for what is still to come, in a ring larger
than each of its items. -/
theorem Draws.room (hset : Settings setup.toSetup s.server.main size) (hring : 1<setup.ringSize)
    (h : Draws setup size s c rest coming) {k : ℕ} {w : Wire} (hw : s.wires[k]?=some w)
    (hstate : w.state≠.parsing) (hfits : ∀ item∈rest k,item.bytes.length<setup.ringSize) :
    0<ringFreeSpaceContig w.reader.ring := by
  have hmem := List.mem_of_getElem? hw
  have hpolite := h.polite w hmem
  have hr := h.bytes.ring w hmem
  have hsum := available_add_freeSpace hr
  rw [←content_length,hpolite.size] at hsum
  refine freeSpaceContig_pos hr ?_
  have hremaining := h.remaining k (freshSession s.server.main)
  have hpending := h.pending k
  rw [contentOf,hw,Option.map_some,Option.getD_some] at hremaining hpending
  by_cases hnil : rest k=[]
  · -- only whitespace is left, which is not waited for
    have hempty : content w.reader.ring=[] := by
      rcases hpolite.waits hstate with hempty | hwait
      · exact hempty
      · cases hcons : content w.reader.ring with
        | nil => rfl
        | cons a bytes =>
          rw [hcons] at hwait hpending
          cases ha : netIsWhitespace a with
          | true =>
            rw [scan_whitespace setup.build ha] at hwait
            cases hwait
          | false =>
            rw [hnil,List.cons_append,dropWhile_of_blanks (blanks_cons_of_not ha _)] at hpending
            cases hpending
    rw [hempty,List.length_nil] at hsum
    omega
  · have hroom := pending_room (hset 0) (h.wf k) hnil hfits (hpolite.waits hstate) hremaining
    omega

/-- Any number of clients draw encoded streams on one canvas, and the main loop
its texts: every run goes through, and has a log of strokes in the order of its
steps which holds the items of every client in their order, of which the server
shows the result. A client that is back at reading has done all it sent, and has
space to send more. -/
theorem streams_painted (setup : ByteSetup) (hring : 1<setup.ringSize) (main : Fb)
    (hset : Settings setup.toSetup main main.size) (streams : ℕ → List Item)
    (hwf : ∀ k, ∀ item∈streams k,item.WellFormed) (hsum : ∀ k, SumsFit 0 0 (streams k))
    {events : List SceneEvent} (hadm : Admitted ScenePossible (sceneStep setup) (listening main) events)
    (hpoll : ∀ size, .byte (.other (.pollResize size))∉events) {back : ℕ → List UInt8}
    (hback : ∀ k, received k events++back k=encode (streams k)) :
    ∃ replies s log, run (sceneStep setup) (listening main) events=some (replies,s) ∧
      Follows setup.build.host main.size (blankCanvas main) events log ∧
      Shown main.size s.server
        (log.foldl (canvasStep main.size.width.toNat main.size.height.toNat) (blankCanvas main)) ∧
      ∀ k, itemsBy k log<+:streams k ∧ ∀ w∈s.wires[k]?,w.state≠.parsing →
        (back k=[] → itemsBy k log=streams k) ∧
        ((∀ item∈streams k,item.bytes.length<setup.ringSize) →
          0<ringFreeSpaceContig w.reader.ring) := by
  obtain ⟨replies,s,log,rest,hrun,hfollows,hitems,hend⟩ :=
    (draws_listening setup main hwf hsum hback).run hset (by omega) hadm hpoll
  refine ⟨replies,s,log,hrun,hfollows,hend.shown,fun k => ⟨⟨rest k,(hitems k).symm⟩,
    fun w hw hstate => ⟨fun hnone => ?_,fun hfits => ?_⟩⟩⟩
  · have hset' := hset.of_size hend.shown.shows.uniform.main
    rw [hitems k,hend.finished hset' hw hstate hnone,List.append_nil]
  · refine hend.room (hset.of_size hend.shown.shows.uniform.main) hring hw hstate fun item hmem => ?_
    exact hfits item (by rw [hitems k]; exact List.mem_append_right _ hmem)

/-- Without a renderer. -/
def noTexts : Overlays := ⟨none,[],none⟩

/-- `PX 1 1 ff0000` of one client and `PX 0 2 00ff00` of another. -/
def twoStreams : ℕ → List Item
  | 0 => [.set 1 1 [(15,false),(15,false),(0,false),(0,false),(0,false),(0,false)]]
  | 1 => [.set 0 2 [(0,false),(0,false),(15,false),(15,false),(0,false),(0,false)]]
  | _ => []

/-- The first is cut, with a round of the main loop and the other client in
between. -/
def twoEvents : List SceneEvent :=
  [.byte (.connect 0 (some 0) (some fun _ => ⟨0,0,0,0⟩) 0 fun _ => 0),
    .byte (.connect 0 (some 0) (some fun _ => ⟨0,0,0,0⟩) 0 fun _ => 0),
    .byte (.read 0 (.data ((encode (twoStreams 0)).take 7))),
    .byte (.read 1 (.data (encode (twoStreams 1)))),.byte (.round 1),.byte (.round 0),
    .byte (.other (.coalesce zeroRand)),.draw noTexts,
    .byte (.read 0 (.data ((encode (twoStreams 0)).drop 7))),.byte (.round 0),.byte (.round 1),
    .byte (.round 0)]

/-- All of both streams is received. -/
theorem received_two (k : ℕ) : received k twoEvents++[]=encode (twoStreams k) := by
  rw [List.append_nil]
  match k with
  | 0 => decide +kernel
  | 1 => decide +kernel
  | k+2 => rfl

/-- The items of both can be encoded. -/
theorem twoStreams_wellFormed (k : ℕ) : ∀ item∈twoStreams k,item.WellFormed := by
  match k with
  | 0 => exact List.forall_mem_singleton.mpr ⟨by decide,Or.inl rfl,by decide⟩
  | 1 => exact List.forall_mem_singleton.mpr ⟨by decide,Or.inl rfl,by decide⟩
  | k+2 => exact fun item hmem => absurd hmem List.not_mem_nil

/-- Their sums do not wrap around. -/
theorem twoStreams_sumsFit (k : ℕ) : SumsFit 0 0 (twoStreams k) := by
  match k with
  | 0 => exact ⟨⟨by omega,by omega⟩,trivial⟩
  | 1 => exact ⟨⟨by omega,by omega⟩,trivial⟩
  | k+2 => trivial

/-- The settings of the small server. -/
theorem smallSettings : Settings smallSetup.toSetup (blackFb 4 4) ⟨4,4⟩ := fun _ =>
  ⟨rfl,rfl,rfl,rfl,rfl,by decide,by decide,by decide,fun _ _ _ h => by cases h⟩

/-- Nothing is resized. -/
theorem twoEvents_unresized (size : FbSize) : .byte (.other (.pollResize size))∉twoEvents :=
  fun hmem => by
    simp only [twoEvents,List.mem_cons,reduceCtorEq,SceneEvent.byte.injEq,ByteEvent.other.injEq,
      List.not_mem_nil,or_self] at hmem

/-- Both are painted. -/
theorem streams_painted_two :
    ∃ replies s log, run (sceneStep smallSetup) (listening (blackFb 4 4)) twoEvents=some (replies,s) ∧
      Shown ⟨4,4⟩ s.server (log.foldl (canvasStep 4 4) (blankCanvas (blackFb 4 4))) ∧
      ∀ k, itemsBy k log<+:twoStreams k := by
  have hadm : Admitted ScenePossible (sceneStep smallSetup) (listening (blackFb 4 4)) twoEvents := by
    decide +kernel
  obtain ⟨replies,s,log,hrun,_,hshown,hitems⟩ := streams_painted smallSetup (by decide) (blackFb 4 4)
    smallSettings twoStreams twoStreams_wellFormed twoStreams_sumsFit hadm twoEvents_unresized
    received_two
  exact ⟨replies,s,log,hrun,hshown,fun k => (hitems k).1⟩

end Shoreline.CanvasLog
