import Shoreline.Drawing
import Shoreline.ServerRun

/-!
# A framebuffer joins the list

What a coalesce does to pixels that no client drew on, over whole runs of
connections, commands and coalesces. A new node framebuffer is opaque black
on a little-endian host, so the coalesce after its arrival blacks out what is
on the screen, unless that is black already.
-/

namespace Shoreline.NodeArrival

open Framebuffer NetConnection CommandScan Coalesce StateMachine Drawing ServerRun

/-- Steps without resizing. -/
def Quiet : ServerEvent → Prop
  | .connect _ _ _ _ => True
  | .command _ _ => True
  | .coalesce _ => True
  | _ => False

/-- A set since the last coalesce stored to the pixel. -/
def DrawnAt (s : Server) (x y : UInt32) : Prop :=
  ∃ p∈s.drawn, cell s.main.size p.1 p.2=cell s.main.size x y

/-- A coalesce changed only what was drawn. -/
def Kept (s s' : Server) : Prop :=
  ∀ x y, s.main.size.Contains x y → fbGetPixel s'.main x y≠fbGetPixel s.main x y → DrawnAt s x y

/-- The pixel `0x000000ff` in the byte order of the screen. -/
def opaqueBlack : FbPixel := ⟨0xff,0,0,0⟩

/-- The host is big-endian, no framebuffer has joined since the last coalesce,
or everything that was not drawn since then is black already. -/
def Calm (host : Host) (s : Server) : Prop :=
  host=.bigEndian ∨ s.joined=false ∨
    ∀ x y, s.main.size.Contains x y → cell s.main.size x y<s.main.size.product →
      ¬DrawnAt s x y → fbGetPixel s.main x y=some opaqueBlack

/-- A pixel of a framebuffer that `fb_alloc` has just returned. -/
def freshPixel (host : Host) : FbPixel :=
  if isBigEndian host then (⟨0,0,0,0⟩ : FbPixel).setAlphaBe 0xff else (⟨0,0,0,0⟩ : FbPixel).setAlpha 0xff

variable {setup : Setup} {size : FbSize} {s s' : Server}

/-- The loop of `fb_alloc` stores an alpha into every pixel. -/
theorem fbAllocFill_eq (host : Host) (n : ℕ) (pixels : ℕ → FbPixel) (i : ℕ) :
    fbAllocFill host n pixels i=
      if i<n then
        if isBigEndian host then (pixels i).setAlphaBe 0xff else (pixels i).setAlpha 0xff
      else pixels i := by
  induction n generalizing pixels with
  | zero => exact (if_neg (Nat.not_lt_zero i)).symm
  | succ n ih =>
    rw [fbAllocFill,ih]
    by_cases hi : i=n
    · rw [hi,if_neg (lt_irrefl n),if_pos (Nat.lt_succ_self n),writePixel,if_pos rfl]
    · have hlt : i<n+1 ↔ i<n := by omega
      simp only [hlt,writePixel,if_neg hi]

/-- A new framebuffer has fresh pixels only. -/
theorem fbAlloc_fresh {host : Host} {node : Option UInt32} {block : Option (ℕ → FbPixel)}
    {numaNode : ℕ} {fb : Fb} (h : fbAlloc host node block numaNode size=.ok fb) {i : ℕ}
    (hi : i<size.product) : fb.pixels i=freshPixel host := by
  cases node with
  | none => cases h
  | some garbage =>
    cases block with
    | none => cases h
    | some heap =>
      cases h
      dsimp only
      rw [fbAllocFill_eq,if_pos hi,zeroBlock,if_pos hi]
      rfl

/-- What holds while connections, commands and coalesces are the only steps. -/
structure QuietInv (host : Host) (size : FbSize) (s : Server) : Prop where
  /-- The main framebuffer has the size. -/
  main : s.main.size=size
  /-- So have the others. -/
  fbs : ∀ fb∈s.fbs,fb.size=size
  /-- Every connection has a framebuffer. -/
  clients : ∀ client∈s.clients,client.fb<s.fbs.length
  /-- Recorded sets are in bounds. -/
  drawn : ∀ p∈s.drawn,size.Contains p.1 p.2
  /-- Where nothing was drawn, pixels are not marked, or still fresh. -/
  untouched : ∀ (k : ℕ) (fb : Fb), s.fbs[k]?=some fb → ∀ i<size.product,
    (∀ p∈s.drawn,cell size p.1 p.2≠i) →
      (fb.pixels i).alpha=0 ∨ s.joined=true ∧ fb.pixels i=freshPixel host
  /-- A framebuffer that has joined is still fresh where nothing was drawn. -/
  newcomer : s.joined=true → ∃ (k : ℕ) (fb : Fb), s.fbs[k]?=some fb ∧ ∀ i<size.product,
    (∀ p∈s.drawn,cell size p.1 p.2≠i) → fb.pixels i=freshPixel host

/-- It holds at the start. -/
theorem quietInv_started (host : Host) (main : Fb) : QuietInv host main.size (started main) where
  main := rfl
  fbs _ h := absurd h List.not_mem_nil
  clients _ h := absurd h List.not_mem_nil
  drawn _ h := absurd h List.not_mem_nil
  untouched _ _ h := by cases h
  newcomer h := by cases h

/-- A connection keeps it. -/
theorem QuietInv.connect (h : QuietInv setup.build.host size s) (look : ℕ) (node : Option UInt32)
    (block : Option (ℕ → FbPixel)) (numaNode : ℕ) :
    QuietInv setup.build.host size (serverConnect setup s look node block numaNode).2 := by
  unfold serverConnect
  cases hfind : fbGetFbOnNode s.fbs look with
  | some k =>
    have hk : k<s.fbs.length := (List.findIdx?_eq_some_iff_findIdx_eq.mp hfind).1
    refine ⟨h.main,h.fbs,fun client hmem => ?_,h.drawn,h.untouched,h.newcomer⟩
    rcases List.mem_append.mp hmem with hold | hnew
    · exact h.clients client hold
    · rw [List.mem_singleton.mp hnew]
      exact hk
  | none =>
    cases halloc : fbAlloc setup.build.host node block numaNode s.main.size with
    | error e => exact h
    | ok fb =>
      dsimp only
      rw [h.main] at halloc
      have hsize : fb.size=size := congrArg Prod.fst (fbAlloc_shape halloc)
      refine ⟨h.main,fun other hmem => ?_,fun client hmem => ?_,h.drawn,
        fun k other hget i hi hno => ?_,fun _ => ⟨s.fbs.length,fb,?_,fun i hi _ => fbAlloc_fresh halloc hi⟩⟩
      · rcases List.mem_append.mp hmem with hold | hnew
        · exact h.fbs other hold
        · rw [List.mem_singleton.mp hnew]
          exact hsize
      · rw [List.length_append,List.length_singleton]
        rcases List.mem_append.mp hmem with hold | hnew
        · exact Nat.lt_succ_of_lt (h.clients client hold)
        · rw [List.mem_singleton.mp hnew]
          exact Nat.lt_succ_self _
      · by_cases hk : k<s.fbs.length
        · rw [List.getElem?_append_left hk] at hget
          exact (h.untouched k other hget i hi hno).imp_right fun hold => ⟨rfl,hold.2⟩
        · rw [List.getElem?_append_right (Nat.le_of_not_lt hk)] at hget
          have hmem := List.mem_of_getElem? hget
          rw [List.mem_singleton.mp hmem]
          exact Or.inr ⟨rfl,fbAlloc_fresh halloc hi⟩
      · rw [List.getElem?_append_right (le_refl _),Nat.sub_self]
        rfl

/-- Storing a framebuffer that changed only where sets are recorded keeps it. -/
theorem QuietInv.store {host : Host} (h : QuietInv host size s) {k : ℕ} {fb out : Fb}
    (hfb : s.fbs[k]?=some fb) (hsize : out.size=size) {new : List (UInt32×UInt32)}
    (hnew : ∀ p∈new,size.Contains p.1 p.2)
    (hsame : ∀ j, (∀ p∈new,cell size p.1 p.2≠j) → out.pixels j=fb.pixels j)
    {clients : List Client} (hclients : ∀ client∈clients,client.fb<s.fbs.length) :
    QuietInv host size
      {s with fbs := s.fbs.set k out, clients := clients, drawn := s.drawn++new} := by
  have hlt : k<s.fbs.length := (List.getElem?_eq_some_iff.mp hfb).1
  have hold : ∀ {j : ℕ}, (∀ p∈s.drawn++new,cell size p.1 p.2≠j) →
      ∀ p∈s.drawn,cell size p.1 p.2≠j := fun hno p hp => hno p (List.mem_append_left _ hp)
  have hkept : ∀ (l : ℕ) (fb' : Fb), (s.fbs.set k out)[l]?=some fb' → ∃ old : Fb,
      s.fbs[l]?=some old ∧ ∀ j, (∀ p∈s.drawn++new,cell size p.1 p.2≠j) →
        fb'.pixels j=old.pixels j := by
    intro l fb' hget
    by_cases hl : l=k
    · rw [hl,List.getElem?_set_self hlt] at hget
      cases hget
      exact ⟨fb,hl ▸ hfb,fun j hno => hsame j fun p hp => hno p (List.mem_append_right _ hp)⟩
    · rw [List.getElem?_set_ne fun hc => hl hc.symm] at hget
      exact ⟨fb',hget,fun _ _ => rfl⟩
  refine ⟨h.main,fun other hmem => ?_,fun client hmem => ?_,fun p hmem => ?_,
    fun l fb' hget j hj hno => ?_,fun hjoined => ?_⟩
  · rcases List.mem_or_eq_of_mem_set hmem with hother | rfl
    · exact h.fbs other hother
    · exact hsize
  · dsimp only
    rw [List.length_set]
    exact hclients client hmem
  · rcases List.mem_append.mp hmem with hp | hp
    · exact h.drawn p hp
    · exact hnew p hp
  · obtain ⟨old,hget',hpix⟩ := hkept l fb' hget
    rw [hpix j hno]
    exact h.untouched l old hget' j hj (hold hno)
  · obtain ⟨l,old,hget,hfresh⟩ := h.newcomer hjoined
    have hl : l<(s.fbs.set k out).length := by
      rw [List.length_set]
      exact (List.getElem?_eq_some_iff.mp hget).1
    obtain ⟨old',hget',hpix⟩ := hkept l _ (List.getElem?_eq_getElem hl)
    rw [hget] at hget'
    cases hget'
    refine ⟨l,_,List.getElem?_eq_getElem hl,fun j hj hno => ?_⟩
    rw [hpix j hno]
    exact hfresh j hj (hold hno)

/-- A command of a connection that still lives succeeds and keeps it. -/
theorem QuietInv.command (h : QuietInv setup.build.host size s) {i : ℕ} {c : Command}
    (hpossible : Possible s (.command i c)) :
    ∃ reply s', serverCommand setup s i c=some (reply,s') ∧ QuietInv setup.build.host size s' := by
  obtain ⟨client,hclient⟩ := possible_command hpossible
  have hlt := h.clients client (List.mem_of_getElem? hclient)
  have hfb := List.getElem?_eq_getElem hlt
  have hsize : s.fbs[client.fb].size=size := h.fbs _ (List.getElem_mem hlt)
  have hsome : serverCommand setup s i c≠none := fun hnone => by
    obtain ⟨x,y,_,hin,hout⟩ := (serverCommand_none_iff hclient hfb).mp hnone
    rw [hsize] at hin
    rw [h.main] at hout
    exact hout hin
  obtain ⟨⟨reply,s'⟩,hrun⟩ := Option.ne_none_iff_exists'.mp hsome
  obtain ⟨client',fb',live,hclient',hfb',rfl⟩ := serverCommand_some hrun
  cases hclient.symm.trans hclient'
  cases hfb.symm.trans hfb'
  obtain ⟨hshape,hpixels⟩ := exec_fb ⟨setup.build,s.main,setup.socket i⟩
    (client.enter s.fbs[client.fb]) c
  refine ⟨reply,_,hrun,h.store hfb ((congrArg Prod.fst hshape).trans hsize) ?_ ?_ ?_⟩
  · intro p hp
    rcases hpixels with ⟨_,hnil⟩ | ⟨x,y,_,hdrawn,hin,_⟩
    · rw [hnil] at hp
      exact absurd hp List.not_mem_nil
    · rw [hdrawn] at hp
      rw [List.mem_singleton.mp hp,←hsize]
      exact hin
  · -- where the command does not draw, the framebuffer stays as it is
    intro j hno
    rcases hpixels with ⟨hold,_⟩ | ⟨x,y,pixel,hdrawn,_,hwrite⟩
    · exact congrFun hold j
    · rw [hwrite,writePixel]
      refine if_neg fun hj => hno (x,y) ?_ ?_
      · rw [hdrawn]
        exact List.mem_cons_self
      · rw [hj,←hsize]
        rfl
  · intro client' hmem
    rcases List.mem_or_eq_of_mem_set hmem with hold | rfl
    · exact h.clients client' hold
    · exact hlt

/-- Pixels that are not marked leave the main framebuffer alone. -/
theorem mergeAll_of_alpha (build : Build) (fbs : List Fb) {order : List ℕ} {i : ℕ} (pixel : FbPixel)
    (h : ∀ k∈order,(pixelOn fbs k i).alpha=0) : mergeAll build fbs order i pixel=pixel := by
  induction order with
  | nil => rfl
  | cons k order ih =>
    rw [mergeAll,List.foldl_cons,mergePixel,if_pos (h k List.mem_cons_self)]
    exact ih fun l hl => h l (List.mem_cons_of_mem k hl)

/-- An opaque black pixel is taken over as it is, blending or not. -/
theorem mergePixel_black (build : Build) (under : FbPixel) :
    mergePixel build under opaqueBlack=opaqueBlack := by
  unfold mergePixel
  rw [if_neg (by decide)]
  split
  · exact if_pos rfl
  · rfl

/-- Unmarked and opaque black pixels leave opaque black, if there is any. -/
theorem mergeAll_black (build : Build) (fbs : List Fb) {order : List ℕ} {i : ℕ} (pixel : FbPixel)
    (h : ∀ k∈order,(pixelOn fbs k i).alpha=0 ∨ pixelOn fbs k i=opaqueBlack)
    (hblack : pixel=opaqueBlack ∨ ∃ k∈order,pixelOn fbs k i=opaqueBlack) :
    mergeAll build fbs order i pixel=opaqueBlack :=
  mergeAll_of_only build fbs (mergePixel_black build) pixel h hblack

/-- What a coalesce does when there is no resizing, and that it keeps the
invariant. -/
theorem QuietInv.coalesce (h : QuietInv setup.build.host size s) (rand : Rand) :
    ∃ order s', order.Perm (List.range s.fbs.length) ∧
      serverStep setup s (.coalesce rand)=some (.code 0,s') ∧
      s'.main=merged setup.build size.product s.fbs order s.main ∧
      QuietInv setup.build.host size s' := by
  obtain ⟨order,_,hperm,hrun⟩ := fbCoalesce_eq setup.build rand h.main h.fbs
  refine ⟨order,_,hperm,by rw [serverStep,hrun]; rfl,rfl,?_⟩
  refine ⟨h.main,fun other hmem => ?_,fun client hmem => ?_,fun p hp => absurd hp List.not_mem_nil,
    fun k fb hget i hi _ => Or.inl ?_,fun hjoined => by cases hjoined⟩
  · obtain ⟨fb,hfb,rfl⟩ := List.mem_map.mp hmem
    exact h.fbs fb hfb
  · dsimp only
    rw [List.length_map]
    exact h.clients client hmem
  · dsimp only at hget
    rw [List.getElem?_map,Option.map_eq_some_iff] at hget
    obtain ⟨old,_,rfl⟩ := hget
    dsimp only [cleared]
    rw [if_pos hi]
    rfl

/-- Where nothing was drawn, node framebuffers hold unmarked or fresh pixels. -/
theorem QuietInv.pixelOn (h : QuietInv setup.build.host size s) {k i : ℕ} (hi : i<size.product)
    (hno : ∀ p∈s.drawn,cell size p.1 p.2≠i) :
    (pixelOn s.fbs k i).alpha=0 ∨
      s.joined=true ∧ Coalesce.pixelOn s.fbs k i=freshPixel setup.build.host := by
  unfold Coalesce.pixelOn
  cases hget : s.fbs[k]? with
  | none => exact Or.inl rfl
  | some fb => exact h.untouched k fb hget i hi hno

/-- What a coalesce shows. -/
theorem QuietInv.coalesce_shows (h : QuietInv setup.build.host size s) {rand : Rand}
    {reply : ServerReply} (hstep : serverStep setup s (.coalesce rand)=some (reply,s')) :
    ∃ order : List ℕ, order.Perm (List.range s.fbs.length) ∧ ∀ x y, size.Contains x y →
      fbGetPixel s'.main x y=some (if cell size x y<size.product then
        mergeAll setup.build s.fbs order (cell size x y) (s.main.pixels (cell size x y))
      else s.main.pixels (cell size x y)) := by
  obtain ⟨order,t,hperm,hrun,hmain,hinv⟩ := h.coalesce rand
  rw [hstep] at hrun
  cases hrun
  refine ⟨order,hperm,fun x y hin => ?_⟩
  rw [fbGetPixel_of_contains hinv.main hin,hmain]
  rfl

/-- A coalesce that is not calm blacks out a pixel. -/
theorem calm_of_kept (h : QuietInv setup.build.host size s) {rand : Rand} {reply : ServerReply}
    (hstep : serverStep setup s (.coalesce rand)=some (reply,s')) (hkept : Kept s s') :
    Calm setup.build.host s := by
  obtain ⟨order,hperm,hshows⟩ := h.coalesce_shows hstep
  by_contra hcalm
  unfold Calm at hcalm
  push Not at hcalm
  obtain ⟨hhost,hjoined,x,y,hin,hcell,hundrawn,hne⟩ := hcalm
  have hsize := h.main
  subst hsize
  have hlittle : freshPixel setup.build.host=opaqueBlack := by
    cases hbuild : setup.build.host with
    | littleEndian => rfl
    | bigEndian => exact absurd hbuild hhost
  have hno : ∀ p∈s.drawn,cell s.main.size p.1 p.2≠cell s.main.size x y :=
    fun p hp hc => hundrawn ⟨p,hp,hc⟩
  -- the framebuffer that has joined is opaque black there
  obtain ⟨k,fb,hfb,hfresh⟩ := h.newcomer (eq_true_of_ne_false hjoined)
  have hk : k∈order := hperm.mem_iff.mpr
    (List.mem_range.mpr (List.getElem?_eq_some_iff.mp hfb).1)
  have hblack : pixelOn s.fbs k (cell s.main.size x y)=opaqueBlack := by
    rw [pixelOn,hfb,Option.map_some,Option.getD_some,hfresh _ hcell hno,hlittle]
  refine hundrawn (hkept x y hin ?_)
  rw [hshows x y hin,if_pos hcell,mergeAll_black setup.build s.fbs _
    (fun l _ => (h.pixelOn hcell hno).imp_right fun hf => hf.2.trans hlittle)
    (Or.inr ⟨k,hk,hblack⟩)]
  exact fun hc => hne hc.symm

/-- A calm coalesce changes only what was drawn. -/
theorem kept_of_calm (h : QuietInv setup.build.host size s) {rand : Rand} {reply : ServerReply}
    (hstep : serverStep setup s (.coalesce rand)=some (reply,s'))
    (hcalm : Calm setup.build.host s) : Kept s s' := by
  obtain ⟨order,_,hshows⟩ := h.coalesce_shows hstep
  intro x y hin hchanged
  by_contra hundrawn
  have hsize := h.main
  subst hsize
  have hno : ∀ p∈s.drawn,cell s.main.size p.1 p.2≠cell s.main.size x y :=
    fun p hp hc => hundrawn ⟨p,hp,hc⟩
  rw [hshows x y hin,fbGetPixel_of_contains rfl hin] at hchanged
  by_cases hcell : cell s.main.size x y<s.main.size.product
  · rw [if_pos hcell] at hchanged
    refine hchanged (congrArg some ?_)
    -- without fresh marked pixels, nothing is merged there
    have hclear : setup.build.host=.bigEndian ∨ s.joined=false →
        mergeAll setup.build s.fbs order (cell s.main.size x y)
          (s.main.pixels (cell s.main.size x y))=s.main.pixels (cell s.main.size x y) := by
      intro hquiet
      refine mergeAll_of_alpha setup.build s.fbs _ fun k _ => (h.pixelOn hcell hno).elim id ?_
      rintro ⟨hjoined,hfresh⟩
      rcases hquiet with hbig | hnone
      · rw [hfresh,hbig]
        rfl
      · rw [hnone] at hjoined
        cases hjoined
    rcases hcalm with hbig | hnone | hpicture
    · exact hclear (Or.inl hbig)
    · exact hclear (Or.inr hnone)
    · have hblack := hpicture x y hin hcell hundrawn
      rw [fbGetPixel_of_contains rfl hin] at hblack
      cases hbuild : setup.build.host with
      | littleEndian =>
        rw [mergeAll_black setup.build s.fbs _ (fun k _ => (h.pixelOn hcell hno).imp_right
          fun hf => hf.2.trans (by rw [hbuild]; rfl)) (Or.inl (Option.some.inj hblack))]
        exact (Option.some.inj hblack).symm
      | bigEndian => exact hclear (Or.inl hbuild)
  · rw [if_neg hcell] at hchanged
    exact hchanged rfl

/-- Every possible step without resizing succeeds and keeps the invariant. -/
theorem quietStep (h : QuietInv setup.build.host size s) {e : ServerEvent} (hquiet : Quiet e)
    (hpossible : Possible s e) :
    ∃ reply s', serverStep setup s e=some (reply,s') ∧ QuietInv setup.build.host size s' := by
  cases e with
  | connect look node block numaNode => exact ⟨_,_,rfl,h.connect look node block numaNode⟩
  | command i c => exact h.command hpossible
  | coalesce rand =>
    obtain ⟨_,s',_,hrun,_,hinv⟩ := h.coalesce rand
    exact ⟨_,s',hrun,hinv⟩
  | _ => exact hquiet.elim

/-- So does every run. -/
theorem quietRun (h : QuietInv setup.build.host size s) {events : List ServerEvent}
    (hquiet : ∀ e∈events,Quiet e) (hadm : Admitted Possible (serverStep setup) s events) :
    ∃ replies s', run (serverStep setup) s events=some (replies,s') ∧
      QuietInv setup.build.host size s' := by
  exact run_total (fun _ _ hinv hpre => quietStep hinv hpre.1 hpre.2) h (hadm.and_forall hquiet)

/-- In every run of connections, commands and coalesces, all coalesces change
only what was drawn since the previous one exactly when all of them are calm.
Pixels below the word size are told apart by their coordinates. -/
theorem coalesces_keep_iff (setup : Setup) (main : Fb) {events : List ServerEvent}
    (hquiet : ∀ e∈events,Quiet e)
    (hadm : Admitted Possible (serverStep setup) (started main) events) :
    (∃ replies s, run (serverStep setup) (started main) events=some (replies,s)) ∧
    ((∀ before rand after replies s reply s', events=before++.coalesce rand::after →
        run (serverStep setup) (started main) before=some (replies,s) →
        serverStep setup s (.coalesce rand)=some (reply,s') → Kept s s') ↔
      ∀ before rand after replies s, events=before++.coalesce rand::after →
        run (serverStep setup) (started main) before=some (replies,s) →
        Calm setup.build.host s) ∧
    (main.size.width.toNat*main.size.height.toNat<2^32 →
      ∀ before after replies s, events=before++after →
        run (serverStep setup) (started main) before=some (replies,s) →
        ∀ x y, s.main.size.Contains x y → (DrawnAt s x y ↔ (x,y)∈s.drawn)) := by
  have hinv : ∀ before after replies s, events=before++after →
      run (serverStep setup) (started main) before=some (replies,s) →
      QuietInv setup.build.host main.size s := by
    rintro before after replies s rfl hrun
    obtain ⟨_,_,hrun',h⟩ := quietRun (quietInv_started setup.build.host main)
      (fun e he => hquiet e (List.mem_append_left _ he)) hadm.append_left
    rw [hrun] at hrun'
    cases hrun'
    exact h
  refine ⟨?_,⟨fun hkept before rand after replies s hsplit hrun => ?_,
    fun hcalm before rand after replies s reply s' hsplit hrun hstep => ?_⟩,
    fun hfit before after replies s hsplit hrun x y hin => ?_⟩
  · obtain ⟨replies,s,hrun,_⟩ := quietRun (quietInv_started setup.build.host main) hquiet hadm
    exact ⟨replies,s,hrun⟩
  · have h := hinv before _ replies s hsplit hrun
    obtain ⟨_,s',_,hstep,_⟩ := h.coalesce rand
    exact calm_of_kept h hstep (hkept before rand after replies s _ s' hsplit hrun hstep)
  · exact kept_of_calm (hinv before _ replies s hsplit hrun) hstep
      (hcalm before rand after replies s hsplit hrun)
  · have h := hinv before after replies s hsplit hrun
    rw [h.main] at hin
    constructor
    · rintro ⟨p,hp,he⟩
      rw [h.main] at he
      obtain ⟨hx,hy⟩ := (cell_inj hfit (h.drawn p hp) hin).mp he
      rw [←hx,←hy]
      exact hp
    · intro hmem
      exact ⟨(x,y),hmem,rfl⟩

/-- A client on node 0 draws one red pixel, which is shown; then a client
connects on node 1. -/
def arrivalEvents : List ServerEvent :=
  [arrival 0,.command 0 (.set 1 2 [0x66,0x66,0x30,0x30,0x30,0x30]),.coalesce zeroRand,arrival 1]

/-- There is no resizing in it, nor in a coalesce behind it. -/
theorem arrivalEvents_quiet : ∀ e∈arrivalEvents++[.coalesce zeroRand],Quiet e := by
  simp only [arrivalEvents,List.cons_append,List.nil_append,List.forall_mem_cons]
  exact ⟨trivial,trivial,trivial,trivial,trivial,fun e he => absurd he List.not_mem_nil⟩

/-- These steps, and a coalesce behind them, are possible. -/
theorem coalesces_keep_arrival :
    ∃ replies s, run (serverStep plainSetup) (started (blackFb 4 4))
      (arrivalEvents++[.coalesce zeroRand])=some (replies,s) :=
  (coalesces_keep_iff plainSetup (blackFb 4 4) arrivalEvents_quiet (by decide +kernel)).1

/-- That coalesce blacks out the red pixel, which nobody drew on again. -/
theorem arrival_blackens :
    (∀ e∈arrivalEvents++[.coalesce zeroRand],Quiet e) ∧
    Admitted Possible (serverStep plainSetup) (started (blackFb 4 4))
      (arrivalEvents++[.coalesce zeroRand]) ∧
    ¬∀ before rand after replies s reply s',
      arrivalEvents++[.coalesce zeroRand]=before++.coalesce rand::after →
      run (serverStep plainSetup) (started (blackFb 4 4)) before=some (replies,s) →
      serverStep plainSetup s (.coalesce rand)=some (reply,s') → Kept s s' := by
  refine ⟨arrivalEvents_quiet,by decide +kernel,fun h => ?_⟩
  have hbefore : (run (serverStep plainSetup) (started (blackFb 4 4)) arrivalEvents).map
      (fun out => (out.2.drawn,out.2.main.size,fbGetPixel out.2.main 1 2,
        (serverStep plainSetup out.2 (.coalesce zeroRand)).map
          fun out' => fbGetPixel out'.2.main 1 2))=
      some ([],⟨4,4⟩,some ⟨0xff,0,0,0xff⟩,some (some ⟨0xff,0,0,0⟩)) := by decide +kernel
  obtain ⟨out,hrun,he⟩ := Option.map_eq_some_iff.mp hbefore
  simp only [Prod.mk.injEq] at he
  obtain ⟨hdrawn,hsize,hred,hafter⟩ := he
  obtain ⟨out',hstep,hblack⟩ := Option.map_eq_some_iff.mp hafter
  have hkept := h arrivalEvents zeroRand [] out.1 out.2 out'.1 out'.2 rfl hrun hstep 1 2
    (by rw [hsize]; decide) (by rw [hred,hblack]; decide)
  obtain ⟨p,hp,_⟩ := hkept
  rw [hdrawn] at hp
  exact absurd hp List.not_mem_nil

end Shoreline.NodeArrival
