import Mathlib.Logic.Function.Basic
import Shoreline.Library.LinkedSequence
import Shoreline.Library.StateMachine

/-!
# The intrusive list

Entries and lists in a heap, with every store of `llist_append` and
`llist_remove` in the order of the C code. Using memory that is not there, a
null pointer or a failing assertion is a fault, `none`. What the lists are is
stated by sequences: every list represents one, and the operations are those
of sequences.
-/

namespace Shoreline.LinkedList

open StateMachine LinkedSequence

/-- `struct llist_entry`. -/
structure LlistEntry where
  next : Option ℕ
  prev : Option ℕ
  list : Option ℕ
  deriving DecidableEq

/-- `struct llist` without its lock. -/
structure Llist where
  head : Option ℕ
  tail : Option ℕ
  deriving DecidableEq

/-- The memory of entries and lists. -/
structure Heap where
  /-- Entries by address; there is none where nothing is allocated. -/
  entries : ℕ → Option LlistEntry
  /-- Lists by address. -/
  lists : ℕ → Llist

/-- `llist_init`. -/
def llistInit : Llist := ⟨none,none⟩

/-- `llist_entry_init` and `LLIST_ENTRY_INIT`. -/
def llistEntryInit : LlistEntry := ⟨none,none,none⟩

/-- Store to an entry. -/
def Heap.modify (h : Heap) (e : ℕ) (f : LlistEntry → LlistEntry) : Option Heap :=
  (h.entries e).map fun entry => {h with entries := Function.update h.entries e (some (f entry))}

/-- Store to the entry behind a pointer unless that is null. -/
def Heap.modifyAt (h : Heap) : Option ℕ → (LlistEntry → LlistEntry) → Option Heap
  | none,_ => some h
  | some e,f => h.modify e f

/-- Store to a list. -/
def Heap.setList (h : Heap) (l : ℕ) (list : Llist) : Heap :=
  {h with lists := Function.update h.lists l list}

/-- Give an entry back. -/
def Heap.free (h : Heap) (e : ℕ) : Option Heap :=
  (h.entries e).map fun _ => {h with entries := Function.update h.entries e none}

/-- `llist_append`. -/
def llistAppend (h : Heap) (l e : ℕ) : Option Heap :=
  (h.modify e fun entry => {entry with list := some l}).bind fun h =>
    match (h.lists l).head,(h.lists l).tail with
    | _,none =>
      (h.modify e fun entry => {entry with next := none, prev := none}).map fun h =>
        h.setList l ⟨some e,some e⟩
    | none,some _ => none
    | some head,some tail =>
      (h.modify e fun entry => {entry with next := none}).bind fun h =>
        (h.modify tail fun entry => {entry with next := some e}).bind fun h =>
          (h.modify e fun entry => {entry with prev := some tail}).map fun h =>
            h.setList l ⟨some head,some e⟩

/-- `llist_remove`. -/
def llistRemove (h : Heap) (e : ℕ) : Option Heap :=
  (h.entries e).bind fun entry =>
    entry.list.bind fun l =>
      let list := h.lists l
      let h := h.setList l ⟨if list.head=some e then entry.next else list.head,
        if list.tail=some e then entry.prev else list.tail⟩
      (h.modifyAt entry.next fun next => {next with prev := entry.prev}).bind fun h =>
        (h.entries e).bind fun entry =>
          (h.modifyAt entry.prev fun prev => {prev with next := entry.next}).bind fun h =>
            h.modify e fun _ => llistEntryInit

/-- `llist_is_empty`. -/
def llistIsEmpty (h : Heap) (l : ℕ) : Bool := (h.lists l).head.isNone

/-- `llist_for_each` from a cursor, one unit of fuel per round; the body may
return from inside the loop. -/
def llistForEach {σ ρ : Type} (h : Heap) (body : σ → ℕ → Except ρ σ) :
    ℕ → Option ℕ → σ → Option (Except ρ σ)
  | _,none,acc => some (.ok acc)
  | 0,some _,_ => none
  | fuel+1,some cursor,acc =>
    match body acc cursor with
    | .error result => some (.error result)
    | .ok acc => (h.entries cursor).bind fun entry => llistForEach h body fuel entry.next acc

/-- `llist_length`. -/
def llistLength (h : Heap) (fuel l : ℕ) : Option ℕ :=
  (llistForEach (ρ:=Empty) h (fun len _ => .ok (len+1)) fuel (h.lists l).head 0).map fun
    | .ok len => len

/-- `llist_get_entry`; the inner `none` is the null pointer. -/
def llistGetEntry (h : Heap) (fuel l : ℕ) (index : UInt32) : Option (Option ℕ) :=
  (llistForEach h (fun (index : UInt32) cursor => if index=0 then .error cursor else .ok (index-1))
    fuel (h.lists l).head index).map fun
    | .error cursor => some cursor
    | .ok _ => none

/-- What is read as the successor of an entry. -/
def readNext (h : Heap) (e : ℕ) : Option (Option ℕ) := (h.entries e).map LlistEntry.next

/-- What is read as the predecessor of an entry. -/
def readPrev (h : Heap) (e : ℕ) : Option (Option ℕ) := (h.entries e).map LlistEntry.prev

/-- The successor of a cursor, null for a null cursor. -/
def nextOf (h : Heap) : Option ℕ → Option (Option ℕ)
  | none => some none
  | some cursor => readNext h cursor

/-- The rounds of `llist_for_each_safe` from a cursor and its successor, one
unit of fuel per round: the visited entries and the heap behind the loop. -/
def llistForEachSafeLoop (body : Heap → ℕ → Option Heap) :
    ℕ → Heap → Option ℕ → Option ℕ → Option (List ℕ×Heap)
  | _,h,none,_ => some ([],h)
  | 0,_,some _,_ => none
  | fuel+1,h,some cursor,nxt =>
    match body h cursor with
    | none => none
    | some h =>
      match nextOf h nxt with
      | none => none
      | some nxt' => (llistForEachSafeLoop body fuel h nxt nxt').map (Prod.map (cursor::·) id)

/-- `llist_for_each_safe`. -/
def llistForEachSafe (body : Heap → ℕ → Option Heap) (fuel : ℕ) (h : Heap) (l : ℕ) :
    Option (List ℕ×Heap) :=
  (nextOf h (h.lists l).head).bind (llistForEachSafeLoop body fuel h (h.lists l).head)

/-- The lists of a heap are these sequences. -/
structure Represents (h : Heap) (seqs : ℕ → List ℕ) : Prop where
  /-- A list knows its first entry. -/
  head : ∀ l, (h.lists l).head=(seqs l).head?
  /-- It knows its last entry. -/
  tail : ∀ l, (h.lists l).tail=(seqs l).getLast?
  /-- The entries between are linked. -/
  linked : ∀ l, Linked (readNext h) (readPrev h) (seqs l)
  /-- An entry knows the list that it is in. -/
  owner : ∀ l, ∀ e∈seqs l, (h.entries e).map LlistEntry.list=some (some l)
  /-- An entry in no list is as after its initialisation. -/
  loose : ∀ e entry, h.entries e=some entry → (∀ l, e∉seqs l) → entry=llistEntryInit

variable {h h' : Heap} {seqs : ℕ → List ℕ} {l e : ℕ}

/-- The memory of an entry that is stored to. -/
theorem modify_eq {entry : LlistEntry} (he : h.entries e=some entry)
    (f : LlistEntry → LlistEntry) :
    h.modify e f=some {h with entries := Function.update h.entries e (some (f entry))} := by
  rw [Heap.modify,he,Option.map_some]

/-- An entry of a list, with all its links. -/
theorem Represents.entry (h : Represents h' seqs) {i : ℕ} (hi : (seqs l)[i]?=some e) :
    ∃ prev, h'.entries e=some ⟨(seqs l)[i+1]?,prev,some l⟩ ∧ readPrev h' e=some prev := by
  have hnext := (h.linked l).next i e hi
  have howner := h.owner l e (List.mem_of_getElem? hi)
  unfold readNext at hnext
  cases hentry : h'.entries e with
  | none => simp [hentry] at hnext
  | some entry =>
    rw [hentry,Option.map_some,Option.some.injEq] at hnext howner
    refine ⟨entry.prev,?_,by rw [readPrev,hentry,Option.map_some]⟩
    rw [←hnext,←howner]

/-- An entry is in one list at most. -/
theorem Represents.unique (h : Represents h' seqs) {l' : ℕ} (hl : e∈seqs l) (hl' : e∈seqs l') :
    l=l' := by
  have he := (h.owner l e hl).symm.trans (h.owner l' e hl')
  simpa using he

/-- A list is empty when it has no first entry. -/
theorem Represents.isEmpty (h : Represents h' seqs) (l : ℕ) :
    llistIsEmpty h' l=(seqs l).isEmpty := by
  rw [llistIsEmpty,h.head]
  cases seqs l <;> rfl

/-- What an append does to the heap. -/
structure Appended (h h' : Heap) (seq : List ℕ) (l e : ℕ) : Prop where
  /-- The entry is the last one. -/
  new : h'.entries e=some ⟨none,seq.getLast?,some l⟩
  /-- It follows the one that was last. -/
  last : ∀ t, seq.getLast?=some t →
    h'.entries t=(h.entries t).map fun entry => {entry with next := some e}
  /-- Other entries are left alone. -/
  same : ∀ x, x≠e → seq.getLast?≠some x → h'.entries x=h.entries x
  /-- The list ends with the entry. -/
  list : h'.lists l=⟨(seq++[e]).head?,some e⟩
  /-- Other lists are left alone. -/
  lists : ∀ k, k≠l → h'.lists k=h.lists k

/-- Appending an entry that is in no list succeeds. -/
theorem Represents.appended (hrep : Represents h seqs) {entry : LlistEntry}
    (he : h.entries e=some entry) (hfresh : ∀ k, e∉seqs k) (l : ℕ) :
    ∃ h', llistAppend h l e=some h' ∧ Appended h h' (seqs l) l e := by
  have hhead := hrep.head l
  have htail := hrep.tail l
  unfold llistAppend
  rw [modify_eq he,Option.bind_some]
  dsimp only
  cases hlast : (seqs l).getLast? with
  | none =>
    have hnil : seqs l=[] := List.getLast?_eq_none_iff.mp hlast
    rw [htail,hlast]
    dsimp only
    rw [modify_eq (Function.update_self _ _ _),Option.map_some]
    refine ⟨_,rfl,?_,fun t ht => ?_,fun x hx _ => ?_,?_,fun k hk => ?_⟩
    · simp [Heap.setList,hnil]
    · simp [hlast] at ht
    · simp [Heap.setList,Function.update_of_ne hx]
    · simp [Heap.setList,hnil]
    · simp [Heap.setList,Function.update_of_ne hk]
  | some t =>
    have ht := List.mem_of_getLast? hlast
    have hte : t≠e := by
      rintro rfl
      exact hfresh l ht
    obtain ⟨first,hfirst⟩ : ∃ first, (seqs l).head?=some first := by
      cases hseq : seqs l with
      | nil => simp [hseq] at ht
      | cons first rest => exact ⟨first,rfl⟩
    obtain ⟨i,hi⟩ := List.mem_iff_getElem?.mp ht
    obtain ⟨prev,htentry,_⟩ := hrep.entry hi
    rw [htail,hlast,hhead,hfirst]
    dsimp only
    rw [modify_eq (Function.update_self _ _ _),Option.bind_some]
    dsimp only
    rw [@modify_eq _ t ⟨(seqs l)[i+1]?,prev,some l⟩ (by simp [Function.update_of_ne hte,htentry]),
      Option.bind_some]
    dsimp only
    rw [@modify_eq _ e ⟨none,entry.prev,some l⟩ (by simp [Function.update_of_ne hte.symm]),
      Option.map_some]
    refine ⟨_,rfl,?_,fun t' ht' => ?_,fun x hx hxt => ?_,?_,fun k hk => ?_⟩
    · simp [Heap.setList,hlast]
    · rw [hlast] at ht'
      cases ht'
      simp [Heap.setList,Function.update_of_ne hte,htentry]
    · have hxt' : x≠t := by
        rintro rfl
        exact hxt hlast
      simp [Heap.setList,Function.update_of_ne hx,Function.update_of_ne hxt']
    · simp [Heap.setList,hfirst]
    · simp [Heap.setList,Function.update_of_ne hk]

/-- An append allocates and frees nothing. -/
theorem Appended.there (happ : Appended h h' (seqs l) l e) (he : h.entries e≠none) (x : ℕ) :
    h'.entries x=none ↔ h.entries x=none := by
  by_cases hx : x=e
  · rw [hx,happ.new]
    simp [he]
  · by_cases hlast : (seqs l).getLast?=some x
    · rw [happ.last x hlast,Option.map_eq_none_iff]
    · rw [happ.same x hx hlast]

/-- It becomes the last one of its list. -/
theorem Represents.append (hrep : Represents h seqs) (hfresh : ∀ k, e∉seqs k)
    (happ : Appended h h' (seqs l) l e) :
    Represents h' (Function.update seqs l (seqs l++[e])) := by
  have hne : ∀ k, ∀ x∈seqs k,x≠e := by
    rintro k x hx rfl
    exact hfresh k hx
  have hothers : ∀ k, k≠l → ∀ x∈seqs k,h'.entries x=h.entries x := by
    intro k hk x hx
    refine happ.same x (hne k x hx) fun hc => hk (hrep.unique hx (List.mem_of_getLast? hc))
  -- of the entries that were there only the last one changes, and only its successor
  have hlast : ∀ x∈seqs l,(h'.entries x).map LlistEntry.prev=(h.entries x).map LlistEntry.prev ∧
      (h'.entries x).map LlistEntry.list=(h.entries x).map LlistEntry.list := by
    intro x hx
    by_cases hc : (seqs l).getLast?=some x
    · rw [happ.last x hc,Option.map_map,Option.map_map]
      exact ⟨rfl,rfl⟩
    · rw [happ.same x (hne l x hx) hc]
      exact ⟨rfl,rfl⟩
  refine ⟨fun k => ?_,fun k => ?_,fun k => ?_,fun k x hx => ?_,fun x entry hx hloose => ?_⟩
  · by_cases hk : k=l
    · rw [hk,Function.update_self,happ.list]
    · rw [Function.update_of_ne hk,happ.lists k hk]
      exact hrep.head k
  · by_cases hk : k=l
    · rw [hk,Function.update_self,happ.list,List.getLast?_concat]
    · rw [Function.update_of_ne hk,happ.lists k hk]
      exact hrep.tail k
  · by_cases hk : k=l
    · subst hk
      rw [Function.update_self]
      refine (hrep.linked k).append (hfresh k) (fun t ht => ?_) (fun x hx hc => ?_)
        (fun x hx => (hlast x hx).1) ?_ ?_
      · obtain ⟨i,hi⟩ := List.mem_iff_getElem?.mp (List.mem_of_getLast? ht)
        obtain ⟨prev,htentry,_⟩ := hrep.entry hi
        rw [readNext,happ.last t ht,htentry]
        rfl
      · rw [readNext,happ.same x (hne k x hx) hc,readNext]
      · rw [readNext,happ.new,Option.map_some]
      · rw [readPrev,happ.new,Option.map_some]
    · rw [Function.update_of_ne hk]
      refine (hrep.linked k).congr (fun x hx => ?_) fun x hx => ?_
      · rw [readNext,hothers k hk x hx,readNext]
      · rw [readPrev,hothers k hk x hx,readPrev]
  · by_cases hk : k=l
    · subst hk
      rw [Function.update_self,List.mem_append,List.mem_singleton] at hx
      rcases hx with hx | rfl
      · rw [(hlast x hx).2]
        exact hrep.owner k x hx
      · rw [happ.new,Option.map_some]
    · rw [Function.update_of_ne hk] at hx
      rw [hothers k hk x hx]
      exact hrep.owner k x hx
  · have hl := hloose l
    rw [Function.update_self,List.mem_append,List.mem_singleton,not_or] at hl
    rw [happ.same x hl.2 fun hc => hl.1 (List.mem_of_getLast? hc)] at hx
    refine hrep.loose x entry hx fun k => ?_
    by_cases hk : k=l
    · rw [hk]
      exact hl.1
    · have hout := hloose k
      rwa [Function.update_of_ne hk] at hout

/-- What a removal does to the heap. -/
structure Removed (h h' : Heap) (l e : ℕ) (entry : LlistEntry) : Prop where
  /-- The entry is as after its initialisation. -/
  gone : h'.entries e=some llistEntryInit
  /-- Those beside it are linked to each other, the others are left alone. -/
  linked : ∀ x, x≠e → h'.entries x=(h.entries x).map fun other =>
    {other with
      next := if entry.prev=some x then entry.next else other.next
      prev := if entry.next=some x then entry.prev else other.prev}
  /-- The list does not begin or end with the entry any more. -/
  list : h'.lists l=⟨if (h.lists l).head=some e then entry.next else (h.lists l).head,
    if (h.lists l).tail=some e then entry.prev else (h.lists l).tail⟩
  /-- Other lists are left alone. -/
  lists : ∀ k, k≠l → h'.lists k=h.lists k

/-- Nor does a removal. -/
theorem Removed.there {entry : LlistEntry} (hrem : Removed h h' l e entry)
    (he : h.entries e≠none) (x : ℕ) : h'.entries x=none ↔ h.entries x=none := by
  by_cases hx : x=e
  · rw [hx,hrem.gone]
    simp [he]
  · rw [hrem.linked x hx,Option.map_eq_none_iff]

/-- A store behind a pointer to an entry that is there. -/
theorem modifyAt_eq {pointer : Option ℕ} (hthere : ∀ x, pointer=some x → h.entries x≠none)
    (f : LlistEntry → LlistEntry) :
    ∃ h', h.modifyAt pointer f=some h' ∧ h'.lists=h.lists ∧
      ∀ x, h'.entries x=(h.entries x).map fun other => if pointer=some x then f other else other := by
  cases pointer with
  | none => exact ⟨h,rfl,rfl,fun x => by simp⟩
  | some y =>
    obtain ⟨other,hother⟩ := Option.ne_none_iff_exists'.mp (hthere y rfl)
    refine ⟨_,modify_eq hother f,rfl,fun x => ?_⟩
    by_cases hx : x=y
    · simp [hx,hother]
    · simp [Function.update_of_ne hx,Ne.symm hx]

/-- The entries beside an entry of a list are there. -/
theorem Represents.beside (hrep : Represents h seqs) (he : e∈seqs l) {entry : LlistEntry}
    (hentry : h.entries e=some entry) :
    (∀ x, entry.next=some x → x∈seqs l) ∧ (∀ x, entry.prev=some x → x∈seqs l) := by
  obtain ⟨i,hi⟩ := List.mem_iff_getElem?.mp he
  have hnext := (hrep.linked l).next i e hi
  rw [readNext,hentry,Option.map_some,Option.some.injEq] at hnext
  refine ⟨fun x hx => ?_,fun x hx => ?_⟩
  · rw [hnext] at hx
    exact List.mem_of_getElem? hx
  · cases i with
    | zero =>
      have hfirst := (hrep.linked l).first e hi
      rw [readPrev,hentry,Option.map_some,Option.some.injEq,hx] at hfirst
      cases hfirst
    | succ i =>
      have hprev := (hrep.linked l).prev i e hi
      rw [readPrev,hentry,Option.map_some,Option.some.injEq,hx] at hprev
      exact List.mem_of_getElem? hprev.symm

/-- The entries of a list are there. -/
theorem Represents.there (hrep : Represents h seqs) (he : e∈seqs l) : h.entries e≠none := by
  have howner := hrep.owner l e he
  intro hc
  rw [hc] at howner
  cases howner

/-- An entry in no list can be given back, or be there as after its
initialisation. -/
theorem Represents.update (hrep : Represents h seqs) (hout : ∀ l, e∉seqs l)
    {cell : Option LlistEntry} (hcell : ∀ entry, cell=some entry → entry=llistEntryInit) :
    Represents {h with entries := Function.update h.entries e cell} seqs := by
  have hsame : ∀ l, ∀ x∈seqs l,Function.update h.entries e cell x=h.entries x := by
    intro l x hx
    refine Function.update_of_ne ?_ _ _
    rintro rfl
    exact hout l hx
  refine ⟨hrep.head,hrep.tail,fun l => ?_,fun l x hx => ?_,fun x entry hx hloose => ?_⟩
  · exact (hrep.linked l).congr (fun x hx => congrArg (Option.map _) (hsame l x hx))
      fun x hx => congrArg (Option.map _) (hsame l x hx)
  · exact (congrArg (Option.map _) (hsame l x hx)).trans (hrep.owner l x hx)
  · dsimp only at hx
    by_cases hxe : x=e
    · rw [hxe,Function.update_self] at hx
      exact hcell entry hx
    · rw [Function.update_of_ne hxe] at hx
      exact hrep.loose x entry hx hloose

/-- Removing an entry of a list succeeds. -/
theorem Represents.removed (hrep : Represents h seqs) (he : e∈seqs l) :
    ∃ entry h', h.entries e=some entry ∧ llistRemove h e=some h' ∧ Removed h h' l e entry := by
  obtain ⟨entry,hentry⟩ := Option.ne_none_iff_exists'.mp (hrep.there he)
  obtain ⟨hnext,hprev⟩ := hrep.beside he hentry
  have howner := hrep.owner l e he
  rw [hentry,Option.map_some,Option.some.injEq] at howner
  unfold llistRemove
  rw [hentry,Option.bind_some,howner,Option.bind_some]
  dsimp only
  generalize hlist : (Llist.mk (if (h.lists l).head=some e then entry.next else (h.lists l).head)
    (if (h.lists l).tail=some e then entry.prev else (h.lists l).tail))=list
  obtain ⟨h₁,hrun₁,hlists₁,hentries₁⟩ := @modifyAt_eq (h.setList l list) entry.next
    (fun x hx => hrep.there (hnext x hx)) fun next => {next with prev := entry.prev}
  have hentry₁ : h₁.entries e=some entry := by
    rw [hentries₁]
    simp [Heap.setList,hentry]
  obtain ⟨h₂,hrun₂,hlists₂,hentries₂⟩ := @modifyAt_eq h₁ entry.prev
    (fun x hx => by
      rw [hentries₁]
      simpa [Heap.setList] using hrep.there (hprev x hx))
    fun prev => {prev with next := entry.next}
  have hentry₂ : h₂.entries e=some {entry with next := entry.next} := by
    rw [hentries₂,hentry₁]
    simp
  rw [hrun₁,Option.bind_some,hentry₁,Option.bind_some,hrun₂,Option.bind_some,modify_eq hentry₂]
  refine ⟨entry,_,rfl,rfl,?_,fun x hx => ?_,?_,fun k hk => ?_⟩
  · exact Function.update_self _ _ _
  · dsimp only
    rw [Function.update_of_ne hx,hentries₂,hentries₁,Option.map_map]
    refine congrArg (Option.map · (h.entries x)) (funext fun other => ?_)
    dsimp only [Function.comp]
    split <;> split <;> rfl
  · dsimp only
    rw [hlists₂,hlists₁,hlist]
    exact Function.update_self _ _ _
  · dsimp only
    rw [hlists₂,hlists₁]
    exact Function.update_of_ne hk _ _

/-- A removal leaves alone what is not in the list. -/
theorem Represents.removed_same (hrep : Represents h seqs) (he : e∈seqs l) {entry : LlistEntry}
    (hentry : h.entries e=some entry) (hrem : Removed h h' l e entry) {x : ℕ} (hx : x∉seqs l) :
    h'.entries x=h.entries x := by
  obtain ⟨hbehind,hbefore⟩ := hrep.beside he hentry
  have hxe : x≠e := by
    rintro rfl
    exact hx he
  have hnext : entry.next≠some x := fun hc => hx (hbehind x hc)
  have hprev : entry.prev≠some x := fun hc => hx (hbefore x hc)
  rw [hrem.linked x hxe]
  simp only [if_neg hnext,if_neg hprev]
  cases h.entries x <;> rfl

/-- It leaves its list, and the order of the others stays. -/
theorem Represents.remove (hrep : Represents h seqs) (he : e∈seqs l) {entry : LlistEntry}
    (hentry : h.entries e=some entry) (hrem : Removed h h' l e entry) :
    Represents h' (Function.update seqs l ((seqs l).erase e)) := by
  obtain ⟨i,hi⟩ := List.mem_iff_getElem?.mp he
  obtain ⟨hlt,hget⟩ := List.getElem?_eq_some_iff.mp hi
  have herase : (seqs l).erase e=(seqs l).eraseIdx i := by
    rw [←hget]
    exact (hrep.linked l).nodup.erase_getElem i hlt
  have hnext : readNext h e=some entry.next := by rw [readNext,hentry,Option.map_some]
  have hprev : readPrev h e=some entry.prev := by rw [readPrev,hentry,Option.map_some]
  have hlist : ∀ x, x≠e → (h'.entries x).map LlistEntry.list=(h.entries x).map LlistEntry.list := by
    intro x hx
    rw [hrem.linked x hx,Option.map_map]
    rfl
  have hothers : ∀ k, k≠l → ∀ x∈seqs k,h'.entries x=h.entries x := fun k hk x hx =>
    hrep.removed_same he hentry hrem fun hc => hk (hrep.unique hx hc)
  refine ⟨fun k => ?_,fun k => ?_,fun k => ?_,fun k x hx => ?_,fun x other hx hloose => ?_⟩
  · by_cases hk : k=l
    · rw [hk,Function.update_self,hrem.list,hrep.head l,herase,
        (hrep.linked l).head_eraseIdx hi hnext]
    · rw [Function.update_of_ne hk,hrem.lists k hk]
      exact hrep.head k
  · by_cases hk : k=l
    · rw [hk,Function.update_self,hrem.list,hrep.tail l,herase,
        (hrep.linked l).last_eraseIdx hi hprev]
    · rw [Function.update_of_ne hk,hrem.lists k hk]
      exact hrep.tail k
  · by_cases hk : k=l
    · subst hk
      rw [Function.update_self,herase]
      refine (hrep.linked k).eraseIdx hi (fun x hx hxe => ?_) fun x hx hxe => ?_
      · rw [hprev,hnext,readNext,hrem.linked x hxe,Option.map_map,readNext]
        obtain ⟨other,hother⟩ := Option.ne_none_iff_exists'.mp (hrep.there hx)
        rw [hother]
        simp only [Option.map_some,Function.comp,Option.some.injEq]
        split <;> rfl
      · rw [hprev,hnext,readPrev,hrem.linked x hxe,Option.map_map,readPrev]
        obtain ⟨other,hother⟩ := Option.ne_none_iff_exists'.mp (hrep.there hx)
        rw [hother]
        simp only [Option.map_some,Function.comp,Option.some.injEq]
        split <;> rfl
    · rw [Function.update_of_ne hk]
      refine (hrep.linked k).congr (fun x hx => ?_) fun x hx => ?_
      · rw [readNext,hothers k hk x hx,readNext]
      · rw [readPrev,hothers k hk x hx,readPrev]
  · by_cases hk : k=l
    · subst hk
      rw [Function.update_self,(hrep.linked k).nodup.mem_erase_iff] at hx
      rw [hlist x hx.1]
      exact hrep.owner k x hx.2
    · rw [Function.update_of_ne hk] at hx
      rw [hothers k hk x hx]
      exact hrep.owner k x hx
  · by_cases hxe : x=e
    · rw [hxe,hrem.gone] at hx
      exact (Option.some.inj hx).symm
    · have hout : ∀ k, x∉seqs k := by
        intro k
        by_cases hk : k=l
        · have hl := hloose l
          rw [Function.update_self,(hrep.linked l).nodup.mem_erase_iff] at hl
          rw [hk]
          exact fun hc => hl ⟨hxe,hc⟩
        · have hk' := hloose k
          rwa [Function.update_of_ne hk] at hk'
      rw [hrep.removed_same he hentry hrem (hout l)] at hx
      exact hrep.loose x other hx hout

section Loops

variable {fuel i : ℕ}

/-- A loop over a list folds its body over the sequence. -/
theorem Represents.forEach_drop {σ ρ : Type} (hrep : Represents h seqs)
    (body : σ → ℕ → Except ρ σ) (hfuel : (seqs l).length ≤ i+fuel) (acc : σ) :
    llistForEach h body fuel (seqs l)[i]? acc=some (((seqs l).drop i).foldlM body acc) := by
  induction fuel generalizing i acc with
  | zero =>
    rw [List.getElem?_eq_none (by omega),List.drop_eq_nil_of_le (by omega)]
    rfl
  | succ fuel ih =>
    cases hi : (seqs l)[i]? with
    | none =>
      rw [List.drop_eq_nil_of_le (List.getElem?_eq_none_iff.mp hi)]
      rfl
    | some cursor =>
      obtain ⟨hlt,hget⟩ := List.getElem?_eq_some_iff.mp hi
      obtain ⟨prev,hentry,_⟩ := hrep.entry hi
      rw [←List.getElem_cons_drop hlt,hget,List.foldlM_cons,llistForEach]
      cases hbody : body acc cursor with
      | error result => rfl
      | ok acc' =>
        dsimp only
        rw [hentry,Option.bind_some,ih (by omega)]
        rfl

/-- The whole loop. -/
theorem Represents.forEach {σ ρ : Type} (hrep : Represents h seqs) (body : σ → ℕ → Except ρ σ)
    (hfuel : (seqs l).length≤fuel) (acc : σ) :
    llistForEach h body fuel (h.lists l).head acc=some ((seqs l).foldlM body acc) := by
  have hloop := @Represents.forEach_drop h seqs l fuel 0 σ ρ hrep body (by omega) acc
  rwa [←List.head?_eq_getElem?,←hrep.head l] at hloop

/-- `llist_length` counts the entries. -/
theorem Represents.length (hrep : Represents h seqs) (hfuel : (seqs l).length≤fuel) :
    llistLength h fuel l=some (seqs l).length := by
  have hcount : ∀ (xs : List ℕ) (len : ℕ),
      xs.foldlM (fun len _ => (.ok (len+1) : Except Empty ℕ)) len=.ok (len+xs.length) := by
    intro xs
    induction xs with
    | nil => exact fun _ => rfl
    | cons x xs ih =>
      intro len
      rw [List.foldlM_cons]
      exact (ih (len+1)).trans (congrArg _ (by rw [List.length_cons]; omega))
  rw [llistLength,hrep.forEach _ hfuel,hcount,Option.map_some,Nat.zero_add]

/-- `llist_get_entry` returns the entry at a position, if there is one. -/
theorem Represents.getEntry (hrep : Represents h seqs) (hfuel : (seqs l).length≤fuel)
    (index : UInt32) : llistGetEntry h fuel l index=some (seqs l)[index.toNat]? := by
  rw [llistGetEntry,hrep.forEach _ hfuel,Option.map_some]
  generalize seqs l=xs
  induction xs generalizing index with
  | nil => rfl
  | cons x xs ih =>
    rw [List.foldlM_cons]
    by_cases hzero : index=0
    · rw [if_pos hzero,hzero]
      rfl
    · have hpos : index.toNat≠0 := fun hc => hzero (UInt32.toNat_inj.mp hc)
      have hpred : (index-1).toNat=index.toNat-1 :=
        UInt32.toNat_sub_of_le index 1 (UInt32.le_iff_toNat_le.mpr (Nat.one_le_iff_ne_zero.mpr hpos))
      rw [if_neg hzero]
      refine (ih (index-1)).trans ?_
      rw [hpred]
      cases hn : index.toNat with
      | zero => exact absurd hn hpos
      | succ n => rfl

/-- A loop body that may do anything to the visited entry, even free it, and
leaves the other entries alone. -/
def Confined (body : Heap → ℕ → Option Heap) : Prop :=
  ∀ h e, h.entries e≠none → ∃ h', body h e=some h' ∧ ∀ x, x≠e → h'.entries x=h.entries x

/-- What `llist_for_each_safe` does to the heap with a confined body: every
entry that is to be visited is passed to the body as it was, and is left as
the body leaves it. -/
structure Visited (body : Heap → ℕ → Option Heap) (h h' : Heap) (xs : List ℕ) : Prop where
  /-- The body sees the entry as it was. -/
  each : ∀ x∈xs, ∃ before after, body before x=some after ∧ before.entries x=h.entries x ∧
    h'.entries x=after.entries x
  /-- All other entries are left alone. -/
  others : ∀ x, x∉xs → h'.entries x=h.entries x

/-- The rounds of `llist_for_each_safe` from a position on. -/
theorem Represents.forEachSafe_drop (hrep : Represents h seqs) {body : Heap → ℕ → Option Heap}
    (hbody : Confined body) (hfuel : (seqs l).length ≤ i+fuel) {g : Heap}
    (hsame : ∀ x∈(seqs l).drop i,g.entries x=h.entries x) :
    ∃ g', llistForEachSafeLoop body fuel g (seqs l)[i]? (seqs l)[i+1]?=
        some ((seqs l).drop i,g') ∧ Visited body g g' ((seqs l).drop i) := by
  induction fuel generalizing i g with
  | zero =>
    rw [List.getElem?_eq_none (by omega : (seqs l).length ≤ i),List.drop_eq_nil_of_le (by omega)]
    exact ⟨g,rfl,⟨fun x hx => absurd hx List.not_mem_nil,fun _ _ => rfl⟩⟩
  | succ fuel ih =>
    cases hi : (seqs l)[i]? with
    | none =>
      rw [List.drop_eq_nil_of_le (List.getElem?_eq_none_iff.mp hi)]
      exact ⟨g,rfl,⟨fun x hx => absurd hx List.not_mem_nil,fun _ _ => rfl⟩⟩
    | some cursor =>
      obtain ⟨hlt,hget⟩ := List.getElem?_eq_some_iff.mp hi
      have hcons : (seqs l).drop i=cursor::(seqs l).drop (i+1) := by
        rw [←hget,List.getElem_cons_drop hlt]
      have hnodup := (hrep.linked l).nodup.sublist (List.drop_sublist i (seqs l))
      rw [hcons] at hsame hnodup ⊢
      obtain ⟨hfresh,_⟩ := List.nodup_cons.mp hnodup
      obtain ⟨hcursor,hrest⟩ := List.forall_mem_cons.mp hsame
      obtain ⟨g₁,hrun,hothers⟩ := hbody g cursor (by
        rw [hcursor]
        exact hrep.there (List.mem_of_getElem? hi))
      have hne : ∀ x∈(seqs l).drop (i+1),x≠cursor := by
        rintro x hx rfl
        exact hfresh hx
      have hsame' : ∀ x∈(seqs l).drop (i+1),g₁.entries x=h.entries x := fun x hx =>
        (hothers x (hne x hx)).trans (hrest x hx)
      have hnext : nextOf g₁ (seqs l)[i+1]?=some (seqs l)[i+2]? := by
        cases hj : (seqs l)[i+1]? with
        | none =>
          rw [List.getElem?_eq_none (by have := List.getElem?_eq_none_iff.mp hj; omega)]
          rfl
        | some next =>
          have hmem : next∈(seqs l).drop (i+1) := by
            refine List.mem_of_getElem? (List.getElem?_drop.trans ?_) (i:=0)
            rwa [Nat.add_zero]
          rw [nextOf,readNext,hsame' next hmem]
          exact (hrep.linked l).next (i+1) next hj
      obtain ⟨g',hloop,hvisited⟩ := @ih (i+1) (by omega) g₁ hsame'
      refine ⟨g',?_,?_,fun x hx => ?_⟩
      · rw [llistForEachSafeLoop,hrun]
        dsimp only
        rw [hnext]
        dsimp only
        rw [hloop]
        rfl
      · refine List.forall_mem_cons.mpr ⟨⟨g,g₁,hrun,rfl,hvisited.others cursor hfresh⟩,fun x hx => ?_⟩
        obtain ⟨before,after,hb,hentry,hafter⟩ := hvisited.each x hx
        exact ⟨before,after,hb,hentry.trans (hothers x (hne x hx)),hafter⟩
      · rw [List.mem_cons,not_or] at hx
        exact (hvisited.others x hx.2).trans (hothers x hx.1)

/-- `llist_for_each_safe` visits the entries of a list in order, each once. -/
theorem Represents.forEachSafe (hrep : Represents h seqs) {body : Heap → ℕ → Option Heap}
    (hbody : Confined body) (hfuel : (seqs l).length≤fuel) :
    ∃ h', llistForEachSafe body fuel h l=some (seqs l,h') ∧ Visited body h h' (seqs l) := by
  obtain ⟨h',hloop,hvisited⟩ := @Represents.forEachSafe_drop h seqs l fuel 0 hrep body hbody
    (by omega) h fun _ _ => rfl
  rw [List.drop_zero] at hvisited
  refine ⟨h',?_,hvisited⟩
  have hnext : nextOf h (h.lists l).head=some (seqs l)[1]? := by
    rw [hrep.head l,List.head?_eq_getElem?]
    cases hx : (seqs l)[0]? with
    | none =>
      rw [List.getElem?_eq_none (by have := List.getElem?_eq_none_iff.mp hx; omega)]
      rfl
    | some x => exact (hrep.linked l).next 0 x hx
  rw [llistForEachSafe,hnext,Option.bind_some,hrep.head l,List.head?_eq_getElem?]
  exact hloop

end Loops

/-- `fb_free_all` and its kind: every entry of a list is given back. -/
theorem Represents.freeAll (hrep : Represents h seqs) {fuel : ℕ} (hfuel : (seqs l).length≤fuel) :
    ∃ h', llistForEachSafe Heap.free fuel h l=some (seqs l,h') ∧ (∀ x∈seqs l,h'.entries x=none) ∧
      ∀ x, x∉seqs l → h'.entries x=h.entries x := by
  have hbody : Confined Heap.free := by
    intro g x hx
    obtain ⟨entry,hentry⟩ := Option.ne_none_iff_exists'.mp hx
    refine ⟨_,by rw [Heap.free,hentry,Option.map_some],fun y hy => Function.update_of_ne hy _ _⟩
  obtain ⟨h',hloop,hvisited⟩ := hrep.forEachSafe hbody hfuel
  refine ⟨h',hloop,fun x hx => ?_,hvisited.others⟩
  obtain ⟨before,after,hfree,_,hafter⟩ := hvisited.each x hx
  rw [hafter]
  rw [Heap.free,Option.map_eq_some_iff] at hfree
  obtain ⟨_,_,rfl⟩ := hfree
  exact Function.update_self _ _ _

/-- A call of a list operation. -/
inductive LlistOp where
  | append (l e : ℕ)
  | remove (e : ℕ)
  deriving DecidableEq

/-- Perform a call in the heap; `none` is a fault. -/
def llistStep : Step LlistOp Unit Heap
  | h,.append l e => (llistAppend h l e).map ((),·)
  | h,.remove e => (llistRemove h e).map ((),·)

/-- Perform a call on sequences. -/
def seqStep : Step LlistOp Unit (ℕ → List ℕ)
  | seqs,.append l e => some ((),Function.update seqs l (seqs l++[e]))
  | seqs,.remove e => some ((),fun l => (seqs l).erase e)

/-- Entries are appended when they are in no list, and removed when they are
in one. -/
def Allowed (seqs : ℕ → List ℕ) : LlistOp → Prop
  | .append _ e => ∀ l, e∉seqs l
  | .remove e => ∃ l, e∈seqs l

/-- The list that a call is about. -/
def LlistOp.On (seqs : ℕ → List ℕ) (l : ℕ) : LlistOp → Prop
  | .append k _ => k=l
  | .remove e => e∈seqs l

/-- All lists after `llist_init`, all entries after `llist_entry_init`. -/
def initialised : Heap := ⟨fun _ => some llistEntryInit,fun _ => llistInit⟩

/-- Then all lists are empty. -/
theorem represents_initialised : Represents initialised fun _ => [] where
  head _ := rfl
  tail _ := rfl
  linked _ := linked_nil _ _
  owner _ _ h := absurd h List.not_mem_nil
  loose _ _ h _ := (Option.some.inj h).symm

/-- An allowed call succeeds and does to the sequences what it is to do; lists
that it is not about are left alone. -/
theorem Represents.step (hrep : Represents h seqs) {op : LlistOp} (hop : Allowed seqs op)
    (hthere : ∀ e, h.entries e≠none) :
    ∃ h' seqs', llistStep h op=some ((),h') ∧ seqStep seqs op=some ((),seqs') ∧
      Represents h' seqs' ∧ (∀ e, h'.entries e≠none) ∧
      ∀ l, ¬op.On seqs l → seqs' l=seqs l ∧ h'.lists l=h.lists l ∧
        ∀ e∈seqs l,h'.entries e=h.entries e := by
  cases op with
  | append k e =>
    obtain ⟨entry,hentry⟩ := Option.ne_none_iff_exists'.mp (hthere e)
    obtain ⟨h',hrun,happ⟩ := hrep.appended hentry hop k
    refine ⟨h',_,by rw [llistStep,hrun,Option.map_some],rfl,hrep.append hop happ,fun x => ?_,
      fun l hl => ?_⟩
    · by_cases hx : x=e
      · rw [hx,happ.new]
        exact Option.some_ne_none _
      · by_cases hlast : (seqs k).getLast?=some x
        · rw [happ.last x hlast]
          simpa using hthere x
        · rw [happ.same x hx hlast]
          exact hthere x
    · have hlk : l≠k := fun hc => hl hc.symm
      refine ⟨Function.update_of_ne hlk _ _,happ.lists l hlk,fun x hx => ?_⟩
      refine happ.same x (fun hc => hop l (hc ▸ hx)) fun hc => hlk ?_
      exact hrep.unique hx (List.mem_of_getLast? hc)
  | remove e =>
    obtain ⟨k,he⟩ := hop
    obtain ⟨entry,h',hentry,hrun,hrem⟩ := hrep.removed he
    have hseqs : (fun l => (seqs l).erase e)=Function.update seqs k ((seqs k).erase e) := by
      funext l
      by_cases hl : l=k
      · rw [hl,Function.update_self]
      · rw [Function.update_of_ne hl,List.erase_of_not_mem fun hc => hl (hrep.unique hc he)]
    refine ⟨h',_,by rw [llistStep,hrun,Option.map_some],rfl,?_,fun x => ?_,fun l hl => ?_⟩
    · rw [hseqs]
      exact hrep.remove he hentry hrem
    · by_cases hx : x=e
      · rw [hx,hrem.gone]
        exact Option.some_ne_none _
      · rw [hrem.linked x hx]
        simpa using hthere x
    · have hlk : l≠k := by
        rintro rfl
        exact hl he
      exact ⟨List.erase_of_not_mem hl,hrem.lists l hlk,fun x hx =>
        hrep.removed_same he hentry hrem fun hc => hlk (hrep.unique hx hc)⟩

/-- What can be seen of a list that is a sequence. -/
structure WellFormed (h : Heap) (l : ℕ) (seq : List ℕ) : Prop where
  /-- No entry occurs twice. -/
  nodup : seq.Nodup
  /-- The successors enumerate it. -/
  forwards : ∀ fuel, seq.length≤fuel → follow (readNext h) fuel (h.lists l).head=some seq
  /-- The predecessors enumerate it backwards. -/
  backwards : ∀ fuel, seq.length≤fuel → follow (readPrev h) fuel (h.lists l).tail=some seq.reverse
  /-- The head is null just for an empty list. -/
  head_null : (h.lists l).head=none ↔ seq=[]
  /-- So is the tail. -/
  tail_null : (h.lists l).tail=none ↔ seq=[]
  /-- Its entries, and no others, name it as their list. -/
  owner : ∀ e, (h.entries e).map LlistEntry.list=some (some l) ↔ e∈seq
  /-- Its length is computed. -/
  length : ∀ fuel, seq.length≤fuel → llistLength h fuel l=some seq.length
  /-- Its entries are found by their positions. -/
  get : ∀ fuel, seq.length≤fuel → ∀ index : UInt32,
    llistGetEntry h fuel l index=some seq[index.toNat]?
  /-- A loop whose body may free the visited entry visits each once, in order. -/
  safe : ∀ fuel, seq.length≤fuel → ∀ body, Confined body →
    ∃ h', llistForEachSafe body fuel h l=some (seq,h') ∧ Visited body h h' seq

/-- A represented list is seen as its sequence. -/
theorem Represents.wellFormed (hrep : Represents h seqs) (l : ℕ) : WellFormed h l (seqs l) where
  nodup := (hrep.linked l).nodup
  forwards fuel hfuel := by
    rw [hrep.head]
    exact (hrep.linked l).follow_next hfuel
  backwards fuel hfuel := by
    rw [hrep.tail]
    exact (hrep.linked l).follow_prev hfuel
  head_null := by rw [hrep.head,List.head?_eq_none_iff]
  tail_null := by rw [hrep.tail,List.getLast?_eq_none_iff]
  owner e := by
    refine ⟨fun howner => ?_,hrep.owner l e⟩
    rw [Option.map_eq_some_iff] at howner
    obtain ⟨entry,hentry,hlist⟩ := howner
    by_contra hout
    by_cases hin : ∃ k, e∈seqs k
    · obtain ⟨k,hk⟩ := hin
      have hother := hrep.owner k e hk
      rw [hentry,Option.map_some,hlist,Option.some.injEq,Option.some.injEq] at hother
      exact hout (hother ▸ hk)
    · rw [hrep.loose e entry hentry (not_exists.mp hin)] at hlist
      cases hlist
  length _ hfuel := hrep.length hfuel
  get _ hfuel := hrep.getEntry hfuel
  safe _ hfuel _ hbody := hrep.forEachSafe hbody hfuel

/-- In every run of allowed calls from initialised lists and entries no call
faults, every list is a well-formed sequence in every state reached, an entry
in no list names none, and a call leaves the lists alone that it is not
about. -/
theorem lists_wellFormed {ops : List LlistOp} (hops : Admitted Allowed seqStep (fun _ => []) ops)
    {before after : List LlistOp} (hcut : ops=before++after) :
    ∃ replies h seqs, run llistStep initialised before=some (replies,h) ∧
      run seqStep (fun _ => []) before=some (replies,seqs) ∧ (∀ l, WellFormed h l (seqs l)) ∧
      (∀ e, (∀ l, e∉seqs l) → (h.entries e).map LlistEntry.list=some none) ∧
      ∀ op∈after.head?, ∃ h' seqs', llistStep h op=some ((),h') ∧ seqStep seqs op=some ((),seqs') ∧
        ∀ l, ¬op.On seqs l → seqs' l=seqs l ∧ h'.lists l=h.lists l ∧
          ∀ e∈seqs l,h'.entries e=h.entries e := by
  have hinit : Represents initialised (fun _ => []) ∧ ∀ e, initialised.entries e≠none :=
    ⟨represents_initialised,fun _ => Option.some_ne_none _⟩
  rw [hcut] at hops
  obtain ⟨replies,seqs,h,hseqs,hheap,hrep,hthere⟩ := @run_refines LlistOp Unit _ _ Allowed seqStep
    llistStep (fun seqs h => Represents h seqs ∧ ∀ e, h.entries e≠none)
    (fun seqs h op hrel hop => by
      obtain ⟨h',seqs',hstep,hseq,hrep',hthere',_⟩ := hrel.1.step hop hrel.2
      exact ⟨(),seqs',h',hseq,hstep,hrep',hthere'⟩)
    _ _ before hinit hops.append_left
  refine ⟨replies,h,seqs,hheap,hseqs,hrep.wellFormed,fun e hout => ?_,fun op hop => ?_⟩
  · obtain ⟨entry,hentry⟩ := Option.ne_none_iff_exists'.mp (hthere e)
    rw [hentry,hrep.loose e entry hentry hout]
    rfl
  · cases after with
    | nil => cases hop
    | cons op' rest =>
      cases hop
      obtain ⟨h',seqs',hstep,hseq,_,_,hframe⟩ := hrep.step (hops.append_right hseqs).1 hthere
      exact ⟨h',seqs',hstep,hseq,hframe⟩

/-- Two entries are appended, and the first one leaves. -/
def smallOps : List LlistOp := [.append 0 1,.append 0 2,.remove 1]

/-- The list is the other one then. -/
theorem lists_wellFormed_small :
    ∃ h, run llistStep initialised smallOps=some ([(),(),()],h) ∧ WellFormed h 0 [2] := by
  have hops : Admitted Allowed seqStep (fun _ => []) smallOps := by
    refine ⟨fun l => List.not_mem_nil,fun _ seqs hs => ?_⟩
    cases hs
    refine ⟨fun l => ?_,fun _ seqs hs => ?_⟩
    · by_cases hl : l=0 <;> simp [hl]
    · cases hs
      exact ⟨⟨0,by simp⟩,fun _ _ _ => trivial⟩
  obtain ⟨replies,h,seqs,hrun,hseqs,hwell,_⟩ := lists_wellFormed hops (List.append_nil _).symm
  cases hseqs
  exact ⟨h,hrun,hwell 0⟩

end Shoreline.LinkedList
