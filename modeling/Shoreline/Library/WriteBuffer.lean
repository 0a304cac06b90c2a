import Mathlib.Data.List.Induction
import Mathlib.Tactic.Common

/-!
# Write buffers over a shared base

Every writer puts values into a layer of its own; a merge moves the pending
values into the base, writer by writer in some order, and empties the
layers. A writer may also take a pending value back. What the base shows
after merges is described by the writes alone, for arbitrary writers, cells
and values.
-/

namespace WriteBuffer

variable {ν κ α β : Type*} [DecidableEq ν] [DecidableEq κ]

/-- A base under one layer of pending values for every writer. -/
structure Buffer (ν κ α : Type*) where
  /-- The merged values. -/
  base : κ → α
  /-- The pending values. -/
  layer : ν → κ → Option α

/-- A writer puts a value or takes its pending one back, or layers are
merged in the given order. -/
inductive Op (ν κ α : Type*) where
  | put (n : ν) (k : κ) (v : Option α)
  | merge (order : List ν)

/-- The value seen through layers, the last one outermost. -/
def overlay (under : α) (layers : List (Option α)) : α :=
  layers.foldl (fun under v => v.getD under) under

/-- One operation. -/
def Buffer.step (b : Buffer ν κ α) : Op ν κ α → Buffer ν κ α
  | .put n k v => {b with layer := fun m i => if m=n ∧ i=k then v else b.layer m i}
  | .merge order =>
    ⟨fun k => overlay (b.base k) (order.map fun n => b.layer n k),
      fun n k => if n∈order then none else b.layer n k⟩

/-- What a writer has pending at a cell after one more operation. -/
def pendingStep (n : ν) (k : κ) (pending : Option α) : Op ν κ α → Option α
  | .put m i v => if n=m ∧ k=i then v else pending
  | .merge order => if n∈order then none else pending

/-- Empty layers show the base. -/
theorem overlay_of_none (under : α) {layers : List (Option α)} (h : ∀ v∈layers,v=none) :
    overlay under layers=under := by
  induction layers with
  | nil => rfl
  | cons v layers ih =>
    rw [overlay,List.foldl_cons,h v List.mem_cons_self]
    exact ih fun w hw => h w (List.mem_cons_of_mem v hw)

/-- What is seen through layers is the base or a pending value. -/
theorem overlay_cases (under : α) (layers : List (Option α)) :
    (∀ v∈layers,v=none) ∨ some (overlay under layers)∈layers := by
  induction layers generalizing under with
  | nil => exact Or.inl fun v hv => absurd hv List.not_mem_nil
  | cons v layers ih =>
    rcases ih (v.getD under) with hnone | hmem
    · cases v with
      | none => exact Or.inl (List.forall_mem_cons.mpr ⟨rfl,hnone⟩)
      | some a =>
        have hsee : overlay under (some a::layers)=a := overlay_of_none a hnone
        rw [hsee]
        exact Or.inr List.mem_cons_self
    · exact Or.inr (List.mem_cons_of_mem v hmem)

/-- A layer after any operations, from what the writer did. -/
theorem layer_foldl (b : Buffer ν κ α) (ops : List (Op ν κ α)) (n : ν) (k : κ) :
    (ops.foldl Buffer.step b).layer n k=ops.foldl (pendingStep n k) (b.layer n k) := by
  induction ops generalizing b with
  | nil => rfl
  | cons op ops ih =>
    rw [List.foldl_cons,List.foldl_cons,ih]
    cases op <;> rfl

/-- After a merge every cell holds a value that some merged writer had
pending, or what it held before when none of them had any. -/
theorem merge_base (b : Buffer ν κ α) (order : List ν) (k : κ) :
    (∃ n∈order,b.layer n k=some ((b.step (.merge order)).base k)) ∨
      ((∀ n∈order,b.layer n k=none) ∧ (b.step (.merge order)).base k=b.base k) := by
  dsimp only [Buffer.step]
  rcases overlay_cases (b.base k) (order.map fun n => b.layer n k) with hnone | hmem
  · exact Or.inr ⟨fun n hn => hnone _ (List.mem_map_of_mem hn),overlay_of_none _ hnone⟩
  · obtain ⟨n,hn,he⟩ := List.mem_map.mp hmem
    exact Or.inl ⟨n,hn,he⟩

/-- Every layer that is merged becomes empty. -/
theorem merge_layer (b : Buffer ν κ α) {order : List ν} {n : ν} (hn : n∈order) (k : κ) :
    (b.step (.merge order)).layer n k=none := if_pos hn

/-- One writer puts one value into several cells. -/
theorem foldl_put_all (b : Buffer ν κ α) (n : ν) (v : Option α) (ks : List κ) :
    ((ks.map fun k => Op.put n k v).foldl Buffer.step b).base=b.base ∧
      ∀ m k, ((ks.map fun k => Op.put n k v).foldl Buffer.step b).layer m k=
        if m=n ∧ k∈ks then v else b.layer m k := by
  induction ks generalizing b with
  | nil => exact ⟨rfl,fun m k => (if_neg fun hc => List.not_mem_nil hc.2).symm⟩
  | cons i ks ih =>
    obtain ⟨hbase,hlayer⟩ := ih (b.step (.put n i v))
    rw [List.map_cons,List.foldl_cons]
    refine ⟨hbase,fun m k => (hlayer m k).trans ?_⟩
    simp only [Buffer.step,List.mem_cons]
    by_cases hks : m=n ∧ k∈ks
    · rw [if_pos hks,if_pos ⟨hks.1,Or.inr hks.2⟩]
    · rw [if_neg hks]
      by_cases hi : m=n ∧ k=i
      · rw [if_pos hi,if_pos ⟨hi.1,Or.inl hi.2⟩]
      · rw [if_neg hi,if_neg fun hc => hc.2.elim (fun h => hi ⟨hc.1,h⟩) fun h => hks ⟨hc.1,h⟩]

section OneWriter

variable (n : ν)

/-- What a single writer's operations are: values put, and merges. -/
def ByWriter : Op ν κ α → Prop
  | .put m _ v => m=n ∧ v≠none
  | .merge order => order=[n]

/-- A cell when every value is put into the base at once. -/
def directStep (k : κ) (under : α) : Op ν κ α → α
  | .put _ i v => if k=i then v.getD under else under
  | .merge _ => under

/-- A single writer sees, through its layer, what putting every value into
the base would give, wherever merges fall. -/
theorem direct_of_byWriter (b : Buffer ν κ α) {ops : List (Op ν κ α)} (h : ∀ op∈ops,ByWriter n op)
    (k : κ) :
    ((ops.foldl Buffer.step b).layer n k).getD ((ops.foldl Buffer.step b).base k)=
      ops.foldl (directStep k) ((b.layer n k).getD (b.base k)) := by
  induction ops generalizing b with
  | nil => rfl
  | cons op ops ih =>
    obtain ⟨hop,hrest⟩ := List.forall_mem_cons.mp h
    rw [List.foldl_cons,List.foldl_cons,ih _ hrest]
    congr 1
    cases op with
    | put m i v =>
      obtain ⟨rfl,hv⟩ := hop
      obtain ⟨a,rfl⟩ := Option.ne_none_iff_exists'.mp hv
      by_cases hk : k=i
      · simp only [Buffer.step,directStep,hk,and_self,if_true,Option.getD_some]
      · simp only [Buffer.step,directStep,hk,and_false,if_false]
    | merge order =>
      cases (show order=[n] from hop)
      rw [merge_layer b List.mem_cons_self k]
      rfl

end OneWriter

section Seen

/-- What a writer sees through its own layer. -/
def Buffer.seen (b : Buffer ν κ α) (n : ν) (k : κ) : α := (b.layer n k).getD (b.base k)

/-- A writer sees the values that it puts. -/
theorem seen_put (b : Buffer ν κ α) (n : ν) (i k : κ) (a : α) :
    (b.step (.put n i (some a))).seen n k=if k=i then a else b.seen n k := by
  unfold Buffer.seen
  dsimp only [Buffer.step]
  by_cases hk : k=i
  · rw [if_pos ⟨rfl,hk⟩,if_pos hk,Option.getD_some]
  · rw [if_neg fun hc => hk hc.2,if_neg hk]

/-- Merging no other layer changes nothing of what a writer sees. -/
theorem seen_merge (b : Buffer ν κ α) {order : List ν} {n : ν} (h : ∀ m∈order,m=n) (k : κ) :
    (b.step (.merge order)).seen n k=b.seen n k := by
  by_cases hn : n∈order
  · unfold Buffer.seen
    rw [merge_layer b hn k,Option.getD_none]
    rcases merge_base b order k with ⟨m,hm,hlayer⟩ | ⟨hnone,hbase⟩
    · rw [h m hm] at hlayer
      rw [hlayer,Option.getD_some]
    · rw [hbase,hnone n hn,Option.getD_none]
  · have hnil : order=[] := List.eq_nil_iff_forall_not_mem.mpr fun m hm => hn (h m hm ▸ hm)
    rw [hnil]
    rfl

/-- A merge of its layer shows what a writer sees. -/
theorem base_of_seen (b : Buffer ν κ α) {order : List ν} {n : ν} (hn : n∈order) (k : κ) :
    (b.step (.merge order)).base k=(b.step (.merge order)).seen n k := by
  unfold Buffer.seen
  rw [merge_layer b hn k,Option.getD_none]

end Seen

section Schedules

/-- What a block of writes leaves pending at a cell. -/
def lastPut (k : κ) (writes : List (κ×Option α)) (pending : Option α) : Option α :=
  writes.foldl (fun pending w => if w.1=k then w.2 else pending) pending

/-- A cell after blocks of writes, each followed by a merge. -/
def play (k : κ) (under : α) (blocks : List (List (κ×Option α))) : α :=
  blocks.foldl (fun under writes => (lastPut k writes none).getD under) under

/-- The first write comes first. -/
theorem lastPut_cons (k : κ) (w : κ×Option α) (ws : List (κ×Option α)) (pending : Option α) :
    lastPut k (w::ws) pending=lastPut k ws (if w.1=k then w.2 else pending) := rfl

/-- Blocks of writes one after the other. -/
theorem lastPut_append (k : κ) (ws vs : List (κ×Option α)) (pending : Option α) :
    lastPut k (ws++vs) pending=lastPut k vs (lastPut k ws pending) := List.foldl_append

/-- Either no write addresses the cell, or what was pending does not matter. -/
theorem lastPut_cases (k : κ) (ws : List (κ×Option α)) :
    (∀ w∈ws,w.1≠k) ∨ ∀ p q, lastPut k ws p=lastPut k ws q := by
  induction ws with
  | nil => exact Or.inl fun w hw => absurd hw List.not_mem_nil
  | cons w ws ih =>
    rcases ih with hno | hany
    · by_cases hw : w.1=k
      · refine Or.inr fun p q => ?_
        simp only [lastPut,List.foldl_cons,hw,if_true]
      · exact Or.inl (List.forall_mem_cons.mpr ⟨hw,hno⟩)
    · exact Or.inr fun p q => hany _ _

/-- Writes elsewhere leave the pending value alone. -/
theorem lastPut_of_untouched {k : κ} {ws : List (κ×Option α)} (h : ∀ w∈ws,w.1≠k)
    (pending : Option α) : lastPut k ws pending=pending := by
  induction ws with
  | nil => rfl
  | cons w ws ih =>
    rw [lastPut_cons,if_neg (h w List.mem_cons_self)]
    exact ih fun v hv => h v (List.mem_cons_of_mem w hv)

/-- A pending value was put. -/
theorem mem_of_lastPut {k : κ} {ws : List (κ×Option α)} {v : α} (h : lastPut k ws none=some v) :
    (k,some v)∈ws := by
  induction ws using List.reverseRecOn with
  | nil => cases h
  | append_singleton ws w ih =>
    rw [lastPut_append] at h
    dsimp only [lastPut,List.foldl_cons,List.foldl_nil] at h
    by_cases hw : w.1=k
    · rw [if_pos hw] at h
      rw [←hw,←h]
      exact List.mem_append_right ws List.mem_cons_self
    · rw [if_neg hw] at h
      exact List.mem_append_left _ (ih h)

/-- Blocks without a write to the cell leave it alone. -/
theorem play_of_untouched {k : κ} {blocks : List (List (κ×Option α))}
    (h : ∀ w∈blocks.flatten,w.1≠k) (under : α) : play k under blocks=under := by
  induction blocks with
  | nil => rfl
  | cons ws blocks ih =>
    rw [List.flatten_cons,List.forall_mem_append] at h
    rw [play,List.foldl_cons,lastPut_of_untouched h.1]
    exact ih h.2

/-- A value that is pending in the end is shown, whatever the schedule. -/
theorem play_of_lastPut {k : κ} {blocks : List (List (κ×Option α))} {v : α}
    (h : lastPut k blocks.flatten none=some v) (under : α) : play k under blocks=v := by
  induction blocks generalizing under with
  | nil => cases h
  | cons ws blocks ih =>
    rw [List.flatten_cons,lastPut_append] at h
    rw [play,List.foldl_cons]
    rcases lastPut_cases k blocks.flatten with hno | hany
    · rw [lastPut_of_untouched hno] at h
      rw [h]
      exact play_of_untouched hno v
    · rw [hany _ none] at h
      exact ih h _

/-- When every value ever put looks like the base, the cell looks like it. -/
theorem play_of_looks {f : α → β} {k : κ} {blocks : List (List (κ×Option α))} {under : α}
    (h : ∀ v, (k,some v)∈blocks.flatten → f v=f under) : f (play k under blocks)=f under := by
  induction blocks generalizing under with
  | nil => rfl
  | cons ws blocks ih =>
    rw [play,List.foldl_cons]
    have hfirst : f ((lastPut k ws none).getD under)=f under := by
      cases hl : lastPut k ws none with
      | none => rfl
      | some v => exact h v (List.mem_append_left _ (mem_of_lastPut hl))
    have hrest : ∀ v, (k,some v)∈blocks.flatten → f v=f ((lastPut k ws none).getD under) :=
      fun v hv => (h v (List.mem_append_right _ hv)).trans hfirst.symm
    exact (ih hrest).trans hfirst

/-- All schedules of the same writes look alike at a cell exactly when a
value is pending there in the end, or every value put there looks like the
base. -/
theorem schedules_agree_iff (f : α → β) (k : κ) (under : α) (writes : List (κ×Option α)) :
    (∀ one two : List (List (κ×Option α)), one.flatten=writes → two.flatten=writes →
        f (play k under one)=f (play k under two)) ↔
      lastPut k writes none≠none ∨ ∀ v, (k,some v)∈writes → f v=f under := by
  constructor
  · intro h
    by_cases hlast : lastPut k writes none=none
    · refine Or.inr fun v hv => ?_
      obtain ⟨before,after,rfl⟩ := List.append_of_mem hv
      -- merging only at the end shows the base, merging behind the value shows it
      have hall := h [before++(k,some v)::after] [before++[(k,some v)],after]
        (by simp only [List.flatten_cons,List.flatten_nil,List.append_nil])
        (by simp only [List.flatten_cons,List.flatten_nil,List.append_nil,List.append_assoc,
          List.singleton_append])
      have hmid : lastPut k (before++[(k,some v)]) none=some v := by
        rw [lastPut_append]
        dsimp only [lastPut,List.foldl_cons,List.foldl_nil]
        rw [if_pos rfl]
      have hsplit : before++(k,some v)::after=(before++[(k,some v)])++after := by
        rw [List.append_assoc,List.singleton_append]
      have hafter : lastPut k after none=none := by
        rw [hsplit,lastPut_append,hmid] at hlast
        rcases lastPut_cases k after with hno | hany
        · rw [lastPut_of_untouched hno] at hlast
          cases hlast
        · rw [hany none (some v)]
          exact hlast
      dsimp only [play,List.foldl_cons,List.foldl_nil] at hall
      rw [hlast,hmid,hafter] at hall
      exact hall.symm
    · exact Or.inl hlast
  · rintro (hlast | hlooks) one two rfl htwo
    · obtain ⟨v,hv⟩ := Option.ne_none_iff_exists'.mp hlast
      rw [play_of_lastPut hv under]
      rw [←htwo] at hv
      rw [play_of_lastPut hv under]
    · rw [play_of_looks hlooks]
      rw [←htwo] at hlooks
      rw [play_of_looks hlooks]

/-- The operations of a single writer that plays blocks of writes. -/
def blockOps (n : ν) (blocks : List (List (κ×Option α))) : List (Op ν κ α) :=
  blocks.flatMap fun writes => writes.map (fun w => Op.put n w.1 w.2)++[.merge [n]]

/-- Writes of one writer leave the base alone and their last value pending. -/
theorem foldl_put (b : Buffer ν κ α) (n : ν) (writes : List (κ×Option α)) (k : κ) :
    ((writes.map fun w => Op.put n w.1 w.2).foldl Buffer.step b).base k=b.base k ∧
      ((writes.map fun w => Op.put n w.1 w.2).foldl Buffer.step b).layer n k=
        lastPut k writes (b.layer n k) := by
  induction writes generalizing b with
  | nil => exact ⟨rfl,rfl⟩
  | cons w writes ih =>
    obtain ⟨hbase,hlayer⟩ := ih (b.step (.put n w.1 w.2))
    rw [List.map_cons,List.foldl_cons]
    refine ⟨hbase,hlayer.trans ?_⟩
    simp only [Buffer.step,lastPut,List.foldl_cons,true_and,eq_comm]

/-- A single writer's base after blocks of writes, each merged. -/
theorem base_blockOps (b : Buffer ν κ α) (n : ν) (blocks : List (List (κ×Option α))) (k : κ)
    (hclean : b.layer n k=none) :
    ((blockOps n blocks).foldl Buffer.step b).base k=play k (b.base k) blocks := by
  induction blocks generalizing b with
  | nil => rfl
  | cons writes blocks ih =>
    obtain ⟨hbase,hlayer⟩ := foldl_put b n writes k
    rw [hclean] at hlayer
    rw [blockOps,List.flatMap_cons,List.foldl_append,List.foldl_append,List.foldl_cons,
      List.foldl_nil]
    refine (ih _ (merge_layer _ List.mem_cons_self k)).trans ?_
    have hseen : (((writes.map fun w => Op.put n w.1 w.2).foldl Buffer.step b).step
        (.merge [n])).base k=(lastPut k writes none).getD (b.base k) := by
      rw [←hbase,←hlayer]
      rfl
    rw [hseen]
    rfl

end Schedules

end WriteBuffer
