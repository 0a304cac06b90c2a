import Shoreline.CommandScan

/-!
# The command language as an incremental grammar

The scanner of the command loop is a grammar with whitespace as separator,
and its effects are a consumer of that grammar. A command that a prefix
shows is the command of any longer input, except for one: a get, whose
whitespace may go on behind the line end that made it a get.
-/

namespace Shoreline.CommandGrammar

open IncrementalReader NetToken NetConnection TokenScan CommandScan Framebuffer

/-- A pixel command uses at least its verb and arguments. -/
theorem scanPxAt_used {x y : UInt32} {m n : ℕ} {tail : List UInt8} {c : Command}
    (h : scanPxAt x y m tail=.item c n) : m≤n ∧ n ≤ m+tail.length := by
  unfold scanPxAt at h
  split_ifs at h
  · cases h
    omega
  · split at h
    · rename_i len ht
      have hlt := (token_closed_iff.mp ht).2.2
      rw [List.length_drop] at hlt
      cases h
      omega
    · cases h

/-- All verbs. -/
def verbs : List (List UInt8) := [verbPx,verbSize,verbOffset]

/-- No verb is the beginning of another. -/
theorem verb_clash : ∀ verb∈verbs,∀ verb'∈verbs,verb<+:verb' → verb=verb' := by decide

/-- At most one verb is in front. -/
theorem verb_unique {verb verb' bytes : List UInt8} (hverb : verb∈verbs) (hverb' : verb'∈verbs)
    (h : verb<+:bytes) (h' : verb'<+:bytes) : verb=verb' := by
  rcases List.prefix_or_prefix_of_prefix h h' with hp | hp
  · exact verb_clash verb hverb verb' hverb' hp
  · exact (verb_clash verb' hverb' verb hverb hp).symm

/-- A pixel verb in front. -/
theorem scan_px {build : Build} {bytes : List UInt8} (h : verbPx<+:bytes) :
    scan build bytes=scanPx (bytes.drop 2) := if_pos h

/-- A size verb in front. -/
theorem scan_size {build : Build} {bytes : List UInt8} (hfeat : build.featureSize=true)
    (h : verbSize<+:bytes) : scan build bytes=.item .size 4 := by
  have hpx : ¬verbPx<+:bytes := fun hp =>
    absurd (verb_unique (by decide) (by decide) hp h) (by decide : verbPx≠verbSize)
  unfold scan
  rw [if_neg hpx,if_pos ⟨hfeat,h⟩]

/-- An offset verb in front. -/
theorem scan_offset {build : Build} {bytes : List UInt8} (hfeat : build.featureOffset=true)
    (h : verbOffset<+:bytes) : scan build bytes=scanOffset (bytes.drop 6) := by
  have hpx : ¬verbPx<+:bytes := fun hp =>
    absurd (verb_unique (by decide) (by decide) hp h) (by decide : verbPx≠verbOffset)
  have hsize : ¬verbSize<+:bytes := fun hp =>
    absurd (verb_unique (by decide) (by decide) hp h) (by decide : verbSize≠verbOffset)
  unfold scan
  rw [if_neg hpx,if_neg (fun hs => hsize hs.2),if_pos ⟨hfeat,h⟩]

/-- No verb in front. -/
theorem scan_unknown {build : Build} {bytes : List UInt8}
    (h : ∀ verb∈verbs,¬verb<+:bytes) : scan build bytes=scanUnknown bytes := by
  unfold scan
  rw [if_neg (h _ (by decide)),if_neg (fun hs => h _ (by decide) hs.2),
    if_neg (fun hs => h _ (by decide) hs.2)]

/-- A whitespace byte in front is an unknown command of no length. -/
theorem scan_whitespace (build : Build) {a : UInt8} (ha : netIsWhitespace a=true)
    (bytes : List UInt8) : scan build (a::bytes)=.item .unknown 0 := by
  have hverb : ∀ verb∈verbs,¬verb<+:a::bytes := by
    have hhead : ∀ verb∈verbs,∃ v tail,
        verb=v::tail ∧ netIsWhitespace v=false := by
      simp only [verbs,List.forall_mem_cons]
      exact ⟨⟨_,_,rfl,rfl⟩,⟨_,_,rfl,rfl⟩,⟨_,_,rfl,rfl⟩,fun _ h => absurd h List.not_mem_nil⟩
    intro verb hmem h
    obtain ⟨v,tail,rfl,hv⟩ := hhead verb hmem
    rw [(List.cons_prefix_cons.mp h).1,ha] at hv
    cases hv
  have htoken : token (a::bytes)=.closed 0 := token_closed_iff.mpr
    ⟨tokenLength_cons_of_whitespace ha bytes,by omega,by rw [List.length_cons]; omega⟩
  rw [scan_unknown hverb,scanUnknown,htoken]

/-- What a recognised command says about the bytes: which verb is in front,
and which arguments or which token are complete. -/
theorem scan_cases {build : Build} {bytes : List UInt8} {c : Command} {n : ℕ}
    (h : scan build bytes=.item c n) :
    (verbPx<+:bytes ∧ ∃ x y used, arguments (bytes.drop 2)=some (x,y,used) ∧
      scanPxAt x y (2+used) ((bytes.drop 2).drop used)=.item c n) ∨
    (build.featureSize=true ∧ verbSize<+:bytes ∧ c=.size ∧ n=4) ∨
    (build.featureOffset=true ∧ verbOffset<+:bytes ∧ ∃ x y used,
      arguments (bytes.drop 6)=some (x,y,used) ∧ c=.offset x y ∧ n=6+used) ∨
    (¬verbPx<+:bytes ∧ ¬(build.featureSize=true ∧ verbSize<+:bytes) ∧
      ¬(build.featureOffset=true ∧ verbOffset<+:bytes) ∧ c=.unknown ∧ token bytes=.closed n) := by
  unfold scan at h
  split_ifs at h with hpx hsize hoff
  · unfold scanPx at h
    split at h
    · cases h
    · rename_i x y used hargs
      exact Or.inl ⟨hpx,x,y,used,hargs,h⟩
  · cases h
    exact Or.inr (Or.inl ⟨hsize.1,hsize.2,rfl,rfl⟩)
  · unfold scanOffset at h
    split at h
    · cases h
    · rename_i x y used hargs
      cases h
      exact Or.inr (Or.inr (Or.inl ⟨hoff.1,hoff.2,x,y,used,hargs,rfl,rfl⟩))
  · unfold scanUnknown at h
    split at h
    · cases h
    · cases h
    · rename_i len ht
      cases h
      exact Or.inr (Or.inr (Or.inr ⟨hpx,hsize,hoff,rfl,ht⟩))

/-- Commands lie inside the input. -/
theorem scan_used_le {build : Build} {bytes : List UInt8} {c : Command} {n : ℕ}
    (h : scan build bytes=.item c n) : n≤bytes.length := by
  rcases scan_cases h with ⟨_,x,y,used,hargs,hat⟩ | ⟨_,hsize,_,rfl⟩ | ⟨_,_,x,y,used,hargs,_,rfl⟩ |
    ⟨_,_,_,_,ht⟩
  · have hlt := (arguments_bounds hargs).2.1
    have hu := (scanPxAt_used hat).2
    simp only [List.length_drop] at hlt hu
    omega
  · exact hsize.length_le
  · have hlt := (arguments_bounds hargs).2.1
    rw [List.length_drop] at hlt
    omega
  · exact (token_closed_iff.mp ht).2.2.le

/-- A command that does not start with whitespace uses input. -/
theorem scan_progress {build : Build} {a : UInt8} (ha : netIsWhitespace a=false)
    {bytes : List UInt8} {c : Command} {n : ℕ} (h : scan build (a::bytes)=.item c n) : 0<n := by
  rcases scan_cases h with ⟨_,x,y,used,_,hat⟩ | ⟨_,_,_,rfl⟩ | ⟨_,_,x,y,used,_,_,rfl⟩ |
    ⟨_,_,_,_,ht⟩
  · have hu := (scanPxAt_used hat).1
    omega
  · omega
  · omega
  · have hlen := (token_closed_iff.mp ht).1
    rw [tokenLength_cons_of_not ha] at hlen
    omega

/-- A verb that fits into a prefix of the input is there or not. -/
theorem verb_of_append {verb front back : List UInt8} (h : verb<+:front++back)
    (hlen : verb.length≤front.length) : verb<+:front :=
  List.prefix_of_prefix_length_le h (List.prefix_append front back) hlen

/-- A verb does not reach over a byte that is not in it. -/
theorem verb_of_append_cons {verb front back : List UInt8} {c : UInt8} (hc : c∉verb)
    (h : verb<+:front++c::back) : verb<+:front := by
  by_cases hlen : verb.length≤front.length
  · exact verb_of_append h hlen
  · have hassoc : front++c::back=(front++[c])++back := by
      rw [List.append_assoc,List.singleton_append]
    have hp : front++[c]<+:verb := by
      refine List.prefix_of_prefix_length_le ?_ h ?_
      · rw [hassoc]
        exact List.prefix_append _ _
      · rw [List.length_append,List.length_singleton]
        omega
    exact absurd (hp.subset (List.mem_append_right front (List.mem_singleton_self _))) hc

/-- A pixel command that ends inside a prefix, separators included, is
recognised in the prefix. -/
theorem scanPxAt_of_append {x y : UInt32} {m n : ℕ} {front back : List UInt8} {c : Command}
    (h : scanPxAt x y m (front++back)=.item c n)
    (hmem : ∃ a∈front.drop (n-m),netIsWhitespace a=false) : scanPxAt x y m front=.item c n := by
  obtain ⟨a,ha,hws⟩ := hmem
  have hb := blanks_lt_of_mem (List.mem_of_mem_drop ha) hws
  have hlt := List.length_pos_iff.mpr (List.ne_nil_of_mem ha)
  rw [List.length_drop] at hlt
  unfold scanPxAt at h ⊢
  rw [blanks_append back hb,List.take_append_of_le_length (by omega),
    List.drop_append_of_le_length (by omega)] at h
  split_ifs at h ⊢ with hline
  · exact h
  · split at h
    · rename_i len ht
      cases h
      have htf := token_of_append ht (by rw [List.length_drop]; omega)
      rw [htf]
      dsimp only
      rw [List.take_append_of_le_length (by rw [List.length_drop]; omega)]
    · cases h

/-- A command that ends inside a prefix, separators included, is recognised
in the prefix. -/
theorem scan_of_append {build : Build} {front back : List UInt8} {c : Command} {n : ℕ}
    (h : scan build (front++back)=.item c n)
    (hmem : ∃ a∈front.drop n,netIsWhitespace a=false) : scan build front=.item c n := by
  obtain ⟨a,ha,hws⟩ := hmem
  have hlt := List.length_pos_iff.mpr (List.ne_nil_of_mem ha)
  rw [List.length_drop] at hlt
  rcases scan_cases h with ⟨hpx,x,y,used,hargs,hat⟩ | ⟨hfeat,hsize,rfl,rfl⟩ |
    ⟨hfeat,hoff,x,y,used,hargs,rfl,rfl⟩ | ⟨hpx,hsize,hoff,rfl,ht⟩
  · have hu := (scanPxAt_used hat).1
    have h2 : 2≤front.length := by omega
    rw [List.drop_append_of_le_length h2] at hargs hat
    rw [List.drop_append_of_le_length (by rw [List.length_drop]; omega)] at hat
    rw [scan_px (verb_of_append hpx h2),scanPx,
      arguments_of_append hargs (by rw [List.length_drop]; omega)]
    refine scanPxAt_of_append hat ⟨a,?_,hws⟩
    rwa [List.drop_drop,List.drop_drop,show 2+(used+(n-(2+used)))=n by omega]
  · exact scan_size hfeat (verb_of_append hsize (show 4≤front.length by omega))
  · have h6 : 6≤front.length := by omega
    rw [List.drop_append_of_le_length h6] at hargs
    rw [scan_offset hfeat (verb_of_append hoff h6),scanOffset,
      arguments_of_append hargs (by rw [List.length_drop]; omega)]
  · have hpre : ∀ {verb}, verb<+:front → verb<+:front++back := fun hf =>
      hf.trans (List.prefix_append front back)
    unfold scan
    rw [if_neg fun hf => hpx (hpre hf),if_neg fun hf => hsize ⟨hf.1,hpre hf.2⟩,
      if_neg fun hf => hoff ⟨hf.1,hpre hf.2⟩,scanUnknown,token_of_append ht (by omega)]

/-- The command language of a build. -/
def grammar (build : Build) : Grammar UInt8 Command where
  sep := netIsWhitespace
  scan := scan build
  blank := .unknown
  scan_sep _ bytes ha := scan_whitespace build ha bytes
  used_le _ _ _ := scan_used_le
  progress _ _ _ _ ha h := scan_progress ha h
  determined _ _ _ _ := scan_of_append

/-- The effects of commands; a command that does not get done stops the
connection. -/
def consumer (env : NetEnv) : Consumer Command Session CommandEnd (grammar env.build).blank where
  exec session c :=
    let out := exec env session c
    (out.2,if out.1=.done then none else some out.1)
  exec_blank _ := rfl

/-- A pixel command whose arguments are followed by whitespace that contains
a line end but does not end with one. -/
def MixedRun (bytes : List UInt8) : Prop :=
  verbPx<+:bytes ∧ ∃ out, arguments (bytes.drop 2)=some out ∧
    ((bytes.drop (2+out.2.2)).takeWhile netIsWhitespace).any netIsNewline=true ∧
    endsLine ((bytes.drop (2+out.2.2)).takeWhile netIsWhitespace)=false

/-- Taking the leading whitespace by number or by kind is the same. -/
theorem take_blanks (bytes : List UInt8) :
    bytes.take (blanks bytes)=bytes.takeWhile netIsWhitespace :=
  (List.prefix_iff_eq_take.mp (List.takeWhile_prefix _)).symm

/-- Whitespace that ends a line contains a newline. -/
theorem any_of_endsLine {run : List UInt8} (h : endsLine run=true) :
    run.any netIsNewline=true := by
  unfold endsLine at h
  cases hl : run.getLast? with
  | none =>
    rw [hl] at h
    cases h
  | some c =>
    rw [hl] at h
    exact List.any_eq_true.mpr ⟨c,List.mem_of_getLast? hl,h⟩

/-- A pixel command of a prefix is the command of the whole input unless the
whitespace behind its arguments is mixed. -/
theorem scanPxAt_append {x y : UInt32} {m n : ℕ} {front back : List UInt8} {c : Command}
    (h : scanPxAt x y m front=.item c n)
    (hmixed : ¬(((front++back).takeWhile netIsWhitespace).any netIsNewline=true ∧
      endsLine ((front++back).takeWhile netIsWhitespace)=false)) :
    scanPxAt x y m (front++back)=.item c n := by
  have hle := blanks_le front
  unfold scanPxAt at h ⊢
  rw [take_blanks] at h ⊢
  split_ifs at h with hline
  · have hwhole : endsLine ((front++back).takeWhile netIsWhitespace)=true := by
      rw [not_and,Bool.not_eq_false] at hmixed
      refine hmixed ?_
      obtain ⟨a,ha,hn⟩ := List.any_eq_true.mp (any_of_endsLine hline)
      refine List.any_eq_true.mpr ⟨a,?_,hn⟩
      rw [List.takeWhile_append]
      split_ifs
      · exact List.mem_append_left _ ((List.takeWhile_prefix _).subset ha)
      · exact ha
    rw [if_pos hwhole]
    exact h
  · split at h
    · rename_i len ht
      have hlt := (token_closed_iff.mp ht).2.2
      rw [List.length_drop] at hlt
      have hb := blanks_append back (by omega : blanks front<front.length)
      have hrun : (front++back).takeWhile netIsWhitespace=front.takeWhile netIsWhitespace := by
        rw [←take_blanks,hb,List.take_append_of_le_length hle,take_blanks]
      rw [hrun,if_neg hline,hb,List.drop_append_of_le_length hle,token_append back ht]
      dsimp only
      rw [List.take_append_of_le_length (by rw [List.length_drop]; omega)]
      exact h
    · cases h

/-- An unfinished verb is awaited. -/
theorem scan_incomplete {build : Build} {verb bytes : List UInt8}
    (hverb : verb∈verbs) (h : bytes<+:verb) (hne : bytes≠verb) :
    scan build bytes=.wait := by
  have hnot : ∀ a∈verbs,¬a<+:bytes := by
    intro a ha hp
    have he := verb_clash a ha verb hverb (hp.trans h)
    subst he
    exact hne (h.eq_of_length (le_antisymm h.length_le hp.length_le))
  have hblank : ∀ a∈verbs,a.length≤32 ∧ a.any netIsWhitespace=false := by decide
  have hwhole : tokenLength bytes=bytes.length := by
    have hall : ∀ c∈bytes,(!netIsWhitespace c)=true := by
      intro c hc
      rw [Bool.eq_false_of_not_eq_true
        (List.any_eq_false.mp (hblank verb hverb).2 c (h.subset hc))]
      rfl
    rw [tokenLength,List.takeWhile_eq_self_iff.mpr hall]
  have hlen := h.length_le
  have hshort := (hblank verb hverb).1
  have htoken : token bytes=.missing := by
    unfold token
    rw [if_neg (by omega),if_pos hwhole]
  rw [scan_unknown hnot,scanUnknown,htoken]

/-- A verb of the whole input is in a prefix as soon as the prefix does not
wait for it. -/
theorem verb_of_scan {build : Build} {verb front back : List UInt8}
    (hverb : verb∈verbs) (h : verb<+:front++back)
    (hscan : scan build front≠.wait) : verb<+:front := by
  rcases List.prefix_or_prefix_of_prefix h (List.prefix_append front back) with hp | hp
  · exact hp
  · by_cases he : front=verb
    · subst he
      exact List.prefix_refl _
    · exact absurd (scan_incomplete hverb hp he) hscan

/-- A pixel command is settled once its arguments are, unless the whitespace
behind them is mixed. -/
theorem scanPx_append {front back : List UInt8} (hwait : scanPx front≠.wait)
    (hmixed : ∀ out, arguments (front++back)=some out →
      ¬((((front++back).drop out.2.2).takeWhile netIsWhitespace).any netIsNewline=true ∧
        endsLine (((front++back).drop out.2.2).takeWhile netIsWhitespace)=false)) :
    scanPx (front++back)=scanPx front := by
  unfold scanPx at hwait ⊢
  cases hargs : arguments front with
  | none =>
    rw [hargs] at hwait
    exact absurd rfl hwait
  | some out =>
    obtain ⟨x,y,used⟩ := out
    have hlt := (arguments_bounds hargs).2.1
    have hwhole := arguments_append back hargs
    have hrun := hmixed _ hwhole
    rw [hargs] at hwait
    rw [hwhole]
    dsimp only at hwait hrun ⊢
    rw [List.drop_append_of_le_length (by omega)] at hrun ⊢
    cases hat : scanPxAt x y (2+used) (front.drop used) with
    | wait => exact absurd hat hwait
    | reject =>
      unfold scanPxAt at hat
      split_ifs at hat
      split at hat <;> cases hat
    | item c n => exact scanPxAt_append hat hrun

/-- An offset command is settled once its arguments are. -/
theorem scanOffset_append {front : List UInt8} (back : List UInt8) (hwait : scanOffset front≠.wait) :
    scanOffset (front++back)=scanOffset front := by
  unfold scanOffset at hwait ⊢
  cases hargs : arguments front with
  | none =>
    rw [hargs] at hwait
    exact absurd rfl hwait
  | some out => rw [arguments_append back hargs]

/-- An unknown command is settled once its token is. -/
theorem scanUnknown_append {front : List UInt8} (back : List UInt8)
    (hwait : scanUnknown front≠.wait) : scanUnknown (front++back)=scanUnknown front := by
  unfold scanUnknown at hwait ⊢
  cases ht : token front with
  | missing =>
    rw [ht] at hwait
    exact absurd rfl hwait
  | garbage => rw [token_garbage_append back ht]
  | closed len => rw [token_append back ht]

/-- Where the whitespace behind pixel arguments is not mixed, a prefix that
does not wait is scanned as the whole input. -/
theorem scan_append {build : Build} {front back : List UInt8} (h : ¬MixedRun (front++back))
    (hwait : scan build front≠.wait) : scan build (front++back)=scan build front := by
  have hpre : ∀ {verb : List UInt8}, verb<+:front → verb<+:front++back := fun hf =>
    hf.trans (List.prefix_append front back)
  have hiff : ∀ verb∈verbs,(verb<+:front++back ↔ verb<+:front) :=
    fun verb hverb => ⟨fun hf => verb_of_scan hverb hf hwait,hpre⟩
  unfold scan at hwait ⊢
  simp only [hiff verbPx (by decide),hiff verbSize (by decide),hiff verbOffset (by decide)]
  split_ifs at hwait ⊢ with hpx hsize hoff
  · have hdrop : (front++back).drop 2=front.drop 2++back :=
      List.drop_append_of_le_length (show 2≤front.length from hpx.length_le)
    rw [hdrop]
    refine scanPx_append hwait fun out hargs hmix => h ⟨hpre hpx,out,?_,?_⟩
    · rw [hdrop]
      exact hargs
    · rw [←List.drop_drop,hdrop]
      exact hmix
  · rfl
  · rw [List.drop_append_of_le_length (show 6≤front.length from hoff.2.length_le)]
    exact scanOffset_append back hwait
  · exact scanUnknown_append back hwait

/-- Where the whitespace behind pixel arguments is not mixed, the scan of a
prefix settles the scan of the whole input. -/
theorem settled_of_not_mixedRun {build : Build} {bytes : List UInt8} (h : ¬MixedRun bytes) :
    (grammar build).Settled bytes := by
  intro front back hne he
  subst he
  constructor
  · intro c n hf
    have hf' : scan build front=.item c n := hf
    exact (scan_append h (by rw [hf']; exact fun he => by cases he)).trans hf'
  · intro hf
    have hf' : scan build front=.reject := hf
    exact (scan_append h (by rw [hf']; exact fun he => by cases he)).trans hf'

end Shoreline.CommandGrammar
