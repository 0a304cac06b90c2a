import Mathlib.Data.List.Basic
import Mathlib.Tactic.Common

/-!
# Incremental readers

A reader keeps the input it could not use yet, appends each new chunk and
drains what it can: it scans the front, executes the item found there and
drops the separators behind it. The chunking is irrelevant exactly as far as
a scan of a prefix is never contradicted by more input; this is stated for
the positions that a drain of the whole input reaches. Alphabets, items and
consumers are arbitrary.
-/

namespace IncrementalReader

variable {α γ σ ε : Type*}

/-- What a scanner finds at the front of the input received so far. -/
inductive Scan (γ : Type*) where
  | wait
  | reject
  | item (command : γ) (used : ℕ)

/-- A scanner with separators between items. -/
structure Grammar (α γ : Type*) where
  /-- Elements dropped between items. -/
  sep : α → Bool
  /-- The front of a non-empty input. -/
  scan : List α → Scan γ
  /-- The item without effect that a leading separator counts as. -/
  blank : γ
  /-- A leading separator is a blank item. -/
  scan_sep : ∀ a x, sep a=true → scan (a::x)=.item blank 0
  /-- Items lie inside the input. -/
  used_le : ∀ x c n, scan x=.item c n → n≤x.length
  /-- Any other item uses input. -/
  progress : ∀ a x c n, sep a=false → scan (a::x)=.item c n → 0<n
  /-- An item is found as soon as the element behind its separators is there. -/
  determined : ∀ x y c n, scan (x++y)=.item c n → (∃ a∈x.drop n,sep a=false) → scan x=.item c n

/-- A consumer executes items, and may stop with a reason. -/
structure Consumer (γ σ ε : Type*) (blank : γ) where
  /-- New state, and the reason to stop if there is one. -/
  exec : σ → γ → σ×Option ε
  /-- Blank items have no effect. -/
  exec_blank : ∀ s, exec s blank=(s,none)

/-- Where a drain ends: waiting with unused input, or closed, without a
reason when the scanner rejected the input. -/
inductive Result (α σ ε : Type*) where
  | waiting (state : σ) (pending : List α)
  | closed (why : Option ε) (state : σ)
  | exhausted

/-- The state in which a drain ends. -/
def Result.state? : Result α σ ε → Option σ
  | .waiting s _ => some s
  | .closed _ s => some s
  | .exhausted => none

namespace Grammar

variable (G : Grammar α γ) (C : Consumer γ σ ε G.blank)

/-- The input behind an item and its separators. -/
def rest (x : List α) (n : ℕ) : List α := (x.drop n).dropWhile G.sep

/-- Drain with one unit of fuel per item. -/
def drain : ℕ → σ → List α → Result α σ ε
  | fuel,s,x =>
    if x.isEmpty then .waiting s []
    else
      match fuel with
      | 0 => .exhausted
      | fuel+1 =>
        match G.scan x with
        | .wait => .waiting s x
        | .reject => .closed none s
        | .item c n =>
          match C.exec s c with
          | (s',none) => drain fuel s' (G.rest x n)
          | (s',some why) => .closed (some why) s'

/-- Drain the whole input; its length is always enough fuel. -/
def drainAll (s : σ) (x : List α) : Result α σ ε := G.drain C x.length s x

variable {G C}

/-- The input behind an item is shorter. -/
theorem rest_length_lt {x : List α} (hx : x≠[]) {c : γ} {n : ℕ} (h : G.scan x=.item c n) :
    (G.rest x n).length<x.length := by
  have hdrop : (G.rest x n).length≤(x.drop n).length := (List.dropWhile_suffix G.sep).length_le
  rw [List.length_drop] at hdrop
  have hpos : 0<x.length := List.length_pos_iff.mpr hx
  cases x with
  | nil => exact absurd rfl hx
  | cons a x =>
    cases ha : G.sep a with
    | false =>
      have hn := G.progress a x c n ha h
      omega
    | true =>
      have he := G.scan_sep a x ha
      rw [h] at he
      cases he
      have ht : (x.dropWhile G.sep).length≤x.length := (List.dropWhile_suffix G.sep).length_le
      rw [rest,List.drop_zero,List.dropWhile_cons_of_pos ha,List.length_cons]
      omega

/-- More fuel than input elements changes nothing. -/
theorem drain_eq_drainAll {fuel : ℕ} {s : σ} {x : List α} (h : x.length≤fuel) :
    G.drain C fuel s x=G.drainAll C s x := by
  unfold drainAll
  induction hl : x.length using Nat.strongRecOn generalizing fuel s x with
  | ind len ih =>
    by_cases hx : x=[]
    · subst hx
      unfold drain
      rfl
    · have hpos : 0<x.length := List.length_pos_iff.mpr hx
      obtain ⟨fuel,rfl⟩ : ∃ k, fuel=k+1 := ⟨fuel-1,by omega⟩
      obtain ⟨len,rfl⟩ : ∃ k, len=k+1 := ⟨len-1,by omega⟩
      unfold drain
      cases hscan : G.scan x with
      | wait => rfl
      | reject => rfl
      | item c n =>
        have hlt := rest_length_lt hx hscan
        dsimp only
        cases hexec : C.exec s c with
        | mk s' why =>
          cases why with
          | some why => rfl
          | none =>
            dsimp only
            rw [ih _ (by omega) (by omega : (G.rest x n).length≤fuel) rfl,
              ih _ (by omega) (by omega : (G.rest x n).length≤len) rfl]

/-- An empty input waits. -/
@[simp] theorem drainAll_nil (s : σ) : G.drainAll C s []=.waiting s [] := by
  unfold drainAll drain
  rfl

/-- Incomplete input is kept. -/
theorem drainAll_wait {s : σ} {x : List α} (hx : x≠[]) (h : G.scan x=.wait) :
    G.drainAll C s x=.waiting s x := by
  obtain ⟨len,hlen⟩ : ∃ k, x.length=k+1 :=
    ⟨x.length-1,by have := List.length_pos_iff.mpr hx; omega⟩
  unfold drainAll drain
  rw [List.isEmpty_eq_false_iff.mpr hx,hlen]
  simp only [Bool.false_eq_true,if_false,h]

/-- Rejected input closes the reader. -/
theorem drainAll_reject {s : σ} {x : List α} (hx : x≠[]) (h : G.scan x=.reject) :
    G.drainAll C s x=.closed none s := by
  obtain ⟨len,hlen⟩ : ∃ k, x.length=k+1 :=
    ⟨x.length-1,by have := List.length_pos_iff.mpr hx; omega⟩
  unfold drainAll drain
  rw [List.isEmpty_eq_false_iff.mpr hx,hlen]
  simp only [Bool.false_eq_true,if_false,h]

/-- An item is executed, then the drain goes on or stops. -/
theorem drainAll_item {s : σ} {x : List α} (hx : x≠[]) {c : γ} {n : ℕ}
    (h : G.scan x=.item c n) :
    G.drainAll C s x=
      match C.exec s c with
      | (s',none) => G.drainAll C s' (G.rest x n)
      | (s',some why) => .closed (some why) s' := by
  have hlt := rest_length_lt hx h
  obtain ⟨len,hlen⟩ : ∃ k, x.length=k+1 := ⟨x.length-1,by omega⟩
  conv_lhs => unfold drainAll drain
  rw [List.isEmpty_eq_false_iff.mpr hx,hlen]
  simp only [Bool.false_eq_true,if_false,h]
  cases C.exec s c with
  | mk s' why =>
    cases why with
    | some why => rfl
    | none => exact drain_eq_drainAll (by omega)

/-- Input that is kept as incomplete, or empty, is kept whole. -/
theorem pending_of_drainAll {s t : σ} {x p : List α} (hx : x=[] ∨ G.scan x=.wait)
    (h : G.drainAll C s x=.waiting t p) : t=s ∧ p=x := by
  have hkept : G.drainAll C s x=.waiting s x := by
    by_cases hnil : x=[]
    · rw [hnil,drainAll_nil]
    · exact drainAll_wait hnil (hx.resolve_left hnil)
  rw [hkept] at h
  cases h
  exact ⟨rfl,rfl⟩

/-- Leading separators do not matter. -/
theorem drainAll_dropWhile (s : σ) (x : List α) :
    G.drainAll C s (x.dropWhile G.sep)=G.drainAll C s x := by
  cases x with
  | nil => rfl
  | cons a x =>
    cases ha : G.sep a with
    | false => rw [List.dropWhile_cons_of_neg (by simp only [ha,Bool.false_eq_true,not_false_eq_true])]
    | true =>
      rw [drainAll_item (List.cons_ne_nil a x) (G.scan_sep a x ha),C.exec_blank,rest,
        List.drop_zero]

/-- Positions that a drain reaches before it waits or closes. -/
inductive Reaches (G : Grammar α γ) (C : Consumer γ σ ε G.blank) :
    σ → List α → σ → List α → Prop where
  | here (s : σ) (x : List α) : Reaches G C s x s x
  | item {s s' t : σ} {x y : List α} {c : γ} {n : ℕ} (hx : x≠[]) (hscan : G.scan x=.item c n)
      (hexec : C.exec s c=(s',none)) (htail : Reaches G C s' (G.rest x n) t y) :
      Reaches G C s x t y

/-- More input does not contradict what the scan of a prefix finds. -/
def Settled (G : Grammar α γ) (x : List α) : Prop :=
  ∀ p y, p≠[] → x=p++y →
    (∀ c n, G.scan p=.item c n → G.scan x=.item c n) ∧ (G.scan p=.reject → G.scan x=.reject)

/-- Every position that the drain of the whole input reaches is settled. -/
def Tidy (G : Grammar α γ) (C : Consumer γ σ ε G.blank) (s : σ) (x : List α) : Prop :=
  ∀ t y, Reaches G C s x t y → G.Settled y

/-- A drain goes on from every position it reaches. -/
theorem drainAll_of_reaches {s t : σ} {x y : List α} (h : Reaches G C s x t y) :
    G.drainAll C s x=G.drainAll C t y := by
  induction h with
  | here => rfl
  | item hx hscan hexec _ ih => rw [drainAll_item hx hscan,hexec]; exact ih

/-- A leading separator settles the position. -/
theorem settled_of_sep {a : α} (ha : G.sep a=true) (x : List α) : G.Settled (a::x) := by
  intro p y hp he
  cases p with
  | nil => exact absurd rfl hp
  | cons b p =>
    obtain ⟨rfl,_⟩ := List.cons.inj (he.trans (List.cons_append))
    rw [G.scan_sep a x ha,G.scan_sep a p ha]
    exact ⟨fun c n h => h,fun h => by cases h⟩

/-- Tidiness passes along the positions of a drain. -/
theorem Tidy.of_reaches {s t : σ} {x y : List α} (h : Tidy G C s x) (hr : Reaches G C s x t y) :
    Tidy G C t y := by
  induction hr with
  | here => exact h
  | item hx hscan hexec _ ih => exact ih fun t y hty => h t y (.item hx hscan hexec hty)

/-- Leading separators do not affect tidiness. -/
theorem tidy_of_dropWhile {s : σ} {x : List α} (h : Tidy G C s (x.dropWhile G.sep)) :
    Tidy G C s x := by
  cases x with
  | nil => exact h
  | cons a x =>
    cases ha : G.sep a with
    | false =>
      rwa [List.dropWhile_cons_of_neg (by simp only [ha,Bool.false_eq_true,not_false_eq_true])] at h
    | true =>
      rw [List.dropWhile_cons_of_pos ha] at h
      intro t y hty
      cases hty with
      | here => exact settled_of_sep ha x
      | item hx hscan hexec htail =>
        rw [G.scan_sep a x ha] at hscan
        cases hscan
        rw [C.exec_blank] at hexec
        cases hexec
        rw [rest,List.drop_zero,List.dropWhile_cons_of_pos ha] at htail
        exact h t y htail

/-- A property of states and inputs that is passed along the positions of a
drain and settles each of them. -/
structure Guards (G : Grammar α γ) (C : Consumer γ σ ε G.blank) (I : σ → List α → Prop) : Prop where
  /-- It settles the scan. -/
  settled : ∀ s x, I s x → G.Settled x
  /-- It is passed to the position behind an item. -/
  step : ∀ s s' x c n, I s x → x≠[] → G.scan x=.item c n → C.exec s c=(s',none) →
    I s' (G.rest x n)
  /-- Leading separators do not affect it. -/
  undrop : ∀ s x, I s (x.dropWhile G.sep) → I s x

/-- Tidiness guards. -/
theorem tidy_guards : Guards G C (Tidy G C) where
  settled s x h := h s x (.here s x)
  step _ _ _ _ _ h hx hscan hexec := h.of_reaches (.item hx hscan hexec (.here _ _))
  undrop _ _ h := tidy_of_dropWhile h

/-- The input behind an item of a prefix, when more input follows. -/
theorem rest_append {x y : List α} {n : ℕ} (hn : n≤x.length) :
    G.rest (x++y) n=if (G.rest x n).isEmpty then y.dropWhile G.sep else G.rest x n++y := by
  rw [rest,List.drop_append_of_le_length hn,List.dropWhile_append,rest]

/-- A drain of a guarded input goes through the drain of every prefix. -/
theorem drainAll_append {I : σ → List α → Prop} (hI : Guards G C I) {s : σ} {x y : List α}
    (h : I s (x++y)) :
    (∀ t p, G.drainAll C s x=.waiting t p →
      G.drainAll C s (x++y)=G.drainAll C t (p++y) ∧ I t (p++y)) ∧
    (∀ why t, G.drainAll C s x=.closed why t → G.drainAll C s (x++y)=.closed why t) ∧
    G.drainAll C s x≠.exhausted := by
  induction hl : x.length using Nat.strongRecOn generalizing s x with
  | ind len ih =>
    by_cases hx : x=[]
    · subst hx
      rw [drainAll_nil]
      refine ⟨fun t p he => ?_,fun why t he => (nomatch he),fun he => (nomatch he)⟩
      cases he
      exact ⟨rfl,h⟩
    · have hxy : x++y≠[] := List.append_ne_nil_of_left_ne_nil hx y
      have hset := hI.settled s (x++y) h x y hx rfl
      cases hscan : G.scan x with
      | wait =>
        rw [drainAll_wait hx hscan]
        refine ⟨fun t p he => ?_,fun why t he => (nomatch he),fun he => (nomatch he)⟩
        cases he
        exact ⟨rfl,h⟩
      | reject =>
        rw [drainAll_reject hx hscan,drainAll_reject hxy (hset.2 hscan)]
        exact ⟨fun t p he => (nomatch he),fun why t he => he,fun he => (nomatch he)⟩
      | item c n =>
        have hwhole := hset.1 c n hscan
        have hlt := rest_length_lt hx hscan
        have hrest := @rest_append _ _ G x y n (G.used_le x c n hscan)
        rw [drainAll_item hx hscan,drainAll_item hxy hwhole]
        cases hexec : C.exec s c with
        | mk s' why =>
          cases why with
          | some why => exact ⟨fun t p he => (nomatch he),fun why t he => he,fun he => (nomatch he)⟩
          | none =>
            dsimp only
            have htail : I s' (G.rest (x++y) n) := hI.step s s' (x++y) c n h hxy hwhole hexec
            cases hemp : (G.rest x n).isEmpty with
            | true =>
              rw [hemp,if_pos rfl] at hrest
              rw [hrest] at htail ⊢
              rw [List.isEmpty_iff.mp hemp,drainAll_nil,drainAll_dropWhile]
              refine ⟨fun t p he => ?_,fun why t he => (nomatch he),fun he => (nomatch he)⟩
              cases he
              exact ⟨rfl,hI.undrop _ _ htail⟩
            | false =>
              rw [hemp,if_neg Bool.false_ne_true] at hrest
              rw [hrest] at htail ⊢
              exact ih _ (by omega) htail rfl

variable (G C) in
/-- A drain of the whole input always ends in a state. -/
theorem drainAll_state (s : σ) (x : List α) : ∃ t, (G.drainAll C s x).state?=some t := by
  induction hl : x.length using Nat.strongRecOn generalizing s x with
  | ind len ih =>
    by_cases hx : x=[]
    · subst hx
      exact ⟨s,by rw [drainAll_nil]; rfl⟩
    · cases hscan : G.scan x with
      | wait => exact ⟨s,by rw [drainAll_wait hx hscan]; rfl⟩
      | reject => exact ⟨s,by rw [drainAll_reject hx hscan]; rfl⟩
      | item c n =>
        have hlt := rest_length_lt hx hscan
        rw [drainAll_item hx hscan]
        cases C.exec s c with
        | mk s' why =>
          cases why with
          | some why => exact ⟨s',rfl⟩
          | none => exact ih _ (by omega) s' _ rfl

/-- A drain waits for an incomplete item, or has used everything. -/
theorem scan_of_waiting {s t : σ} {x p : List α} (h : G.drainAll C s x=.waiting t p) :
    p=[] ∨ G.scan p=.wait := by
  induction hl : x.length using Nat.strongRecOn generalizing s x with
  | ind len ih =>
    by_cases hx : x=[]
    · subst hx
      rw [drainAll_nil] at h
      cases h
      exact Or.inl rfl
    · cases hscan : G.scan x with
      | wait =>
        rw [drainAll_wait hx hscan] at h
        cases h
        exact Or.inr hscan
      | reject =>
        rw [drainAll_reject hx hscan] at h
        cases h
      | item c n =>
        have hlt := rest_length_lt hx hscan
        rw [drainAll_item hx hscan] at h
        cases hexec : C.exec s c with
        | mk s' why =>
          rw [hexec] at h
          cases why with
          | some why => cases h
          | none => exact ih _ (by omega) h rfl

/-- One more chunk: drain the pending input with the chunk behind it. -/
def feed (G : Grammar α γ) (C : Consumer γ σ ε G.blank) : Result α σ ε → List α → Result α σ ε
  | .waiting s p,chunk => G.drainAll C s (p++chunk)
  | r,_ => r

/-- A closed reader ignores further chunks. -/
theorem foldl_feed_closed (why : Option ε) (s : σ) (chunks : List (List α)) :
    chunks.foldl (feed G C) (.closed why s)=.closed why s := by
  induction chunks with
  | nil => rfl
  | cons chunk chunks ih => exact ih

/-- After any chunks, a reader waits for an incomplete item or has used
everything. -/
theorem scan_of_feeding {s t : σ} {p q : List α} {chunks : List (List α)}
    (hp : p=[] ∨ G.scan p=.wait)
    (h : chunks.foldl (feed G C) (.waiting s p)=.waiting t q) : q=[] ∨ G.scan q=.wait := by
  induction chunks generalizing s p with
  | nil =>
    rw [List.foldl_nil] at h
    cases h
    exact hp
  | cons chunk chunks ih =>
    rw [List.foldl_cons,feed] at h
    cases hd : G.drainAll C s (p++chunk) with
    | waiting s' p' =>
      rw [hd] at h
      exact ih (scan_of_waiting hd) h
    | closed why s' =>
      rw [hd,foldl_feed_closed] at h
      cases h
    | exhausted =>
      obtain ⟨u,hu⟩ := drainAll_state G C s (p++chunk)
      rw [hd] at hu
      cases hu

/-- However a guarded input is cut into chunks, feeding some of them goes
through the drain of the whole input. -/
theorem foldl_feed_append {I : σ → List α → Prop} (hI : Guards G C I) {s : σ} {p z : List α}
    {chunks : List (List α)} (h : I s (p++(chunks.flatten++z))) :
    (∀ t q, chunks.foldl (feed G C) (.waiting s p)=.waiting t q →
      G.drainAll C s (p++(chunks.flatten++z))=G.drainAll C t (q++z) ∧ I t (q++z)) ∧
    (∀ why t, chunks.foldl (feed G C) (.waiting s p)=.closed why t →
      G.drainAll C s (p++(chunks.flatten++z))=.closed why t) ∧
    chunks.foldl (feed G C) (.waiting s p)≠.exhausted := by
  induction chunks generalizing s p with
  | nil =>
    refine ⟨fun t q he => ?_,fun why t he => (nomatch he),fun he => (nomatch he)⟩
    cases he
    exact ⟨rfl,h⟩
  | cons chunk chunks ih =>
    rw [List.flatten_cons,List.append_assoc,←List.append_assoc] at h ⊢
    obtain ⟨hwait,hclosed,hex⟩ := drainAll_append hI h
    rw [List.foldl_cons,feed]
    cases hd : G.drainAll C s (p++chunk) with
    | waiting t q =>
      obtain ⟨he,ht⟩ := hwait t q hd
      rw [he]
      exact ih ht
    | closed why t =>
      rw [foldl_feed_closed,hclosed why t hd]
      exact ⟨fun _ _ he => (nomatch he),fun _ _ he => he,fun he => (nomatch he)⟩
    | exhausted => exact absurd hd hex

/-- Feeding all chunks of a guarded input ends as draining it at once. -/
theorem foldl_feed {I : σ → List α → Prop} (hI : Guards G C I) {s : σ} {chunks : List (List α)}
    (h : I s chunks.flatten) :
    chunks.foldl (feed G C) (.waiting s [])=G.drainAll C s chunks.flatten := by
  have h' : I s ([]++(chunks.flatten++[])) := by rwa [List.append_nil,List.nil_append]
  obtain ⟨hwait,hclosed,hex⟩ := foldl_feed_append hI h'
  rw [List.append_nil,List.nil_append] at hwait hclosed
  cases hf : chunks.foldl (feed G C) (.waiting s []) with
  | waiting t q =>
    obtain ⟨he,_⟩ := hwait t q hf
    rw [he,List.append_nil]
    rcases scan_of_feeding (Or.inl rfl) hf with hq | hq
    · rw [hq,drainAll_nil]
    · by_cases hnil : q=[]
      · rw [hnil,drainAll_nil]
      · rw [drainAll_wait hnil hq]
  | closed why t => rw [hclosed why t hf]
  | exhausted => exact absurd hf hex

/-- A drain relates its start to its end by any preorder that its commands
respect. -/
theorem drainAll_related {R : σ → σ → Prop} (hrefl : ∀ s, R s s)
    (htrans : ∀ s t u, R s t → R t u → R s u) (hexec : ∀ s c, R s (C.exec s c).1)
    {s t : σ} {x : List α} (h : (G.drainAll C s x).state?=some t) : R s t := by
  induction hl : x.length using Nat.strongRecOn generalizing s x with
  | ind len ih =>
    by_cases hx : x=[]
    · subst hx
      rw [drainAll_nil] at h
      cases h
      exact hrefl _
    · cases hscan : G.scan x with
      | wait =>
        rw [drainAll_wait hx hscan] at h
        cases h
        exact hrefl _
      | reject =>
        rw [drainAll_reject hx hscan] at h
        cases h
        exact hrefl _
      | item c n =>
        have hlt := rest_length_lt hx hscan
        have hstep := hexec s c
        rw [drainAll_item hx hscan] at h
        cases hout : C.exec s c with
        | mk s' why =>
          rw [hout] at h hstep
          cases why with
          | some why =>
            cases h
            exact hstep
          | none => exact htrans s s' t hstep (ih _ (by omega) h rfl)

/-- Feeding more chunks keeps that relation. -/
theorem foldl_feed_related {R : σ → σ → Prop} (hrefl : ∀ s, R s s)
    (htrans : ∀ s t u, R s t → R t u → R s u) (hexec : ∀ s c, R s (C.exec s c).1)
    {r : Result α σ ε} {s t : σ} (hs : r.state?=some s) {chunks : List (List α)}
    (h : (chunks.foldl (feed G C) r).state?=some t) : R s t := by
  induction chunks generalizing r s with
  | nil =>
    rw [List.foldl_nil,hs] at h
    cases h
    exact hrefl _
  | cons chunk chunks ih =>
    rw [List.foldl_cons] at h
    have hmid : ∃ u, (feed G C r chunk).state?=some u ∧ R s u := by
      cases r with
      | waiting s' p =>
        cases hs
        obtain ⟨u,hu⟩ := drainAll_state G C s (p++chunk)
        exact ⟨u,hu,drainAll_related hrefl htrans hexec hu⟩
      | closed why s' => exact ⟨s,hs,hrefl s⟩
      | exhausted => cases hs
    obtain ⟨u,hu,hsu⟩ := hmid
    exact htrans s u t hsu (ih hu h)

/-- What follows the dropped separators of a prefix. -/
theorem dropWhile_of_isPrefix {x u z : List α} (h : x.dropWhile G.sep=u++z) (hu : u≠[]) :
    (x.takeWhile G.sep++u).dropWhile G.sep=u := by
  rw [List.dropWhile_append_of_pos fun b hb => (List.all_eq_true.mp List.all_takeWhile) b hb]
  cases u with
  | nil => exact absurd rfl hu
  | cons b u =>
    have hhead := @List.head_dropWhile_not _ G.sep x (by rw [h]; exact List.cons_ne_nil b _)
    simp only [h,List.cons_append,List.head_cons] at hhead
    exact List.dropWhile_cons_of_neg (by rw [hhead]; exact Bool.false_ne_true)

/-- Cutting the input behind a prefix of a reached position lets the drain
of the cut input reach that prefix. -/
theorem drainAll_truncate {s t : σ} {x y p z : List α} (h : Reaches G C s x t y)
    (hy : y=p++z) {a : α} (ha : a∈p) (hsep : G.sep a=false) :
    ∃ u, x=u++y ∧ G.drainAll C s (u++p)=G.drainAll C t p := by
  induction h with
  | here s x => exact ⟨[],rfl,rfl⟩
  | @item s s' t x y c n hx hscan hexec _ ih =>
    obtain ⟨u,hu,hd⟩ := ih hy
    rw [hy,←List.append_assoc] at hu
    have hup : u++p≠[] := List.append_ne_nil_of_right_ne_nil u (List.ne_nil_of_mem ha)
    have hn := G.used_le x c n hscan
    have hsplit : x=(x.take n++((x.drop n).takeWhile G.sep++(u++p)))++z := by
      calc
        x=x.take n++((x.drop n).takeWhile G.sep++(x.drop n).dropWhile G.sep) := by
          rw [List.takeWhile_append_dropWhile,List.take_append_drop]
        _=_ := by rw [show (x.drop n).dropWhile G.sep=u++p++z from hu]; simp only [List.append_assoc]
    have hlen : (x.take n).length=n := by rw [List.length_take]; omega
    have hdrop : (x.take n++((x.drop n).takeWhile G.sep++(u++p))).drop n=
        (x.drop n).takeWhile G.sep++(u++p) := List.drop_left' hlen
    have hcut : G.scan (x.take n++((x.drop n).takeWhile G.sep++(u++p)))=.item c n := by
      refine G.determined _ z c n (hsplit ▸ hscan) ⟨a,?_,hsep⟩
      rw [hdrop]
      simp only [List.mem_append,ha,or_true]
    have hrest : G.rest (x.take n++((x.drop n).takeWhile G.sep++(u++p))) n=u++p := by
      rw [rest,hdrop,dropWhile_of_isPrefix hu hup]
    have hne : x.take n++((x.drop n).takeWhile G.sep++(u++p))≠[] :=
      List.append_ne_nil_of_right_ne_nil _ (List.append_ne_nil_of_right_ne_nil _ hup)
    refine ⟨x.take n++((x.drop n).takeWhile G.sep++u),?_,?_⟩
    · rw [hy]
      simpa only [List.append_assoc] using hsplit
    · have hassoc : x.take n++((x.drop n).takeWhile G.sep++u)++p=
          x.take n++((x.drop n).takeWhile G.sep++(u++p)) := by simp only [List.append_assoc]
      rw [hassoc,drainAll_item hne hcut,hexec]
      dsimp only
      rw [hrest,hd]

end Grammar

end IncrementalReader
