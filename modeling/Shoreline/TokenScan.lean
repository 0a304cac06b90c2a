import Mathlib.Data.List.TakeWhile
import Shoreline.NetToken

/-!
# Tokens of the unread bytes

What the look-ahead and number helpers compute, said about the unread bytes
alone: how many of them are whitespace, where the next token ends, which
number its bytes denote. On a valid ring every helper moves the read pointer
over exactly those bytes and never looks behind the last received one.
-/

namespace Shoreline.TokenScan

open RingBuffer RingContent NetToken

/-- Number of leading whitespace bytes. -/
def blanks (bytes : List UInt8) : ℕ := (bytes.takeWhile netIsWhitespace).length

/-- Number of leading bytes that are not whitespace. -/
def tokenLength (bytes : List UInt8) : ℕ := (bytes.takeWhile fun c => !netIsWhitespace c).length

/-- What is known about the token at the front. -/
inductive Token where
  | missing
  | garbage
  | closed (len : ℕ)
  deriving DecidableEq, Repr

/-- The token at the front: too long, without its end, or complete. -/
def token (bytes : List UInt8) : Token :=
  if 32<tokenLength bytes then .garbage
  else if tokenLength bytes=bytes.length then .missing
  else .closed (tokenLength bytes)

/-- How `net_next_whitespace` reports a token. -/
def Token.code : Token → ℤ
  | .missing => -1
  | .garbage => -EINVAL
  | .closed len => len

/-- Continue a 32-bit number with further characters. -/
def number (base : UInt32) (digit : UInt8 → ℤ) (val : UInt32) (bytes : List UInt8) : UInt32 :=
  bytes.foldl (fun val c => val*base+UInt32.ofInt (digit c)) val

/-- The 32-bit value of a decimal token. -/
def decimal (bytes : List UInt8) : UInt32 := number 10 decDigit 0 bytes

/-- The 32-bit value of a hexadecimal token. -/
def hexadecimal (bytes : List UInt8) : UInt32 := number 16 hexDigit 0 bytes

/-- A decimal argument behind whitespace, with the number of bytes up to its
end. -/
def argument (bytes : List UInt8) : Option (UInt32×ℕ) :=
  if blanks bytes=0 then none
  else
    match token (bytes.drop (blanks bytes)) with
    | .closed len => some (decimal ((bytes.drop (blanks bytes)).take len),blanks bytes+len)
    | _ => none

/-- Both arguments of a command, with the number of bytes up to their end. -/
def arguments (bytes : List UInt8) : Option (UInt32×UInt32×ℕ) :=
  match argument bytes with
  | none => none
  | some (x,i) =>
    match argument (bytes.drop i) with
    | none => none
    | some (y,j) => some (x,y,i+j)

/-- Leading whitespace lies inside the bytes. -/
theorem blanks_le (bytes : List UInt8) : blanks bytes≤bytes.length :=
  (List.takeWhile_prefix _).length_le

/-- The token lies inside the bytes. -/
theorem tokenLength_le (bytes : List UInt8) : tokenLength bytes≤bytes.length :=
  (List.takeWhile_prefix _).length_le

@[simp] theorem blanks_nil : blanks []=0 := rfl

/-- One more whitespace byte in front. -/
theorem blanks_cons_of_whitespace {c : UInt8} (h : netIsWhitespace c=true) (bytes : List UInt8) :
    blanks (c::bytes)=blanks bytes+1 := by
  rw [blanks,List.takeWhile_cons_of_pos h,List.length_cons,blanks]

/-- No whitespace in front. -/
theorem blanks_cons_of_not {c : UInt8} (h : netIsWhitespace c=false) (bytes : List UInt8) :
    blanks (c::bytes)=0 := by
  rw [blanks,List.takeWhile_cons_of_neg (by rw [h]; exact Bool.false_ne_true),List.length_nil]

/-- Dropping the whitespace by number or by kind is the same. -/
theorem drop_blanks (bytes : List UInt8) :
    bytes.drop (blanks bytes)=bytes.dropWhile netIsWhitespace := by
  have he := @List.takeWhile_append_dropWhile _ netIsWhitespace bytes
  calc
    bytes.drop (blanks bytes)=
        (bytes.takeWhile netIsWhitespace++bytes.dropWhile netIsWhitespace).drop (blanks bytes) := by
      rw [he]
    _=bytes.dropWhile netIsWhitespace := List.drop_left' rfl

/-- Bytes that do not start with whitespace are not changed by dropping it. -/
theorem dropWhile_of_blanks {bytes : List UInt8} (h : blanks bytes=0) :
    bytes.dropWhile netIsWhitespace=bytes := by rw [←drop_blanks,h,List.drop_zero]

/-- A whitespace byte in front leaves an empty token. -/
theorem tokenLength_cons_of_whitespace {c : UInt8} (h : netIsWhitespace c=true)
    (bytes : List UInt8) : tokenLength (c::bytes)=0 := by
  rw [tokenLength,List.takeWhile_cons_of_neg (by rw [h]; exact Bool.false_ne_true),List.length_nil]

/-- Another byte in front makes the token longer. -/
theorem tokenLength_cons_of_not {c : UInt8} (h : netIsWhitespace c=false) (bytes : List UInt8) :
    tokenLength (c::bytes)=tokenLength bytes+1 := by
  rw [tokenLength,List.takeWhile_cons_of_pos (by rw [h]; rfl),List.length_cons,tokenLength]

/-- A complete token has at most 32 bytes and something behind it. -/
theorem token_closed_iff {bytes : List UInt8} {len : ℕ} :
    token bytes=.closed len ↔ tokenLength bytes=len ∧ len≤32 ∧ len<bytes.length := by
  have hle := tokenLength_le bytes
  unfold token
  constructor
  · intro h
    split_ifs at h
    cases h
    omega
  · rintro ⟨rfl,h,hlt⟩
    rw [if_neg (by omega),if_neg (by omega)]

/-- Leading whitespace that ends inside a prefix ends there for good. -/
theorem blanks_append {front : List UInt8} (back : List UInt8)
    (h : blanks front<front.length) : blanks (front++back)=blanks front := by
  unfold blanks at h ⊢
  rw [List.takeWhile_append,if_neg (by omega)]

/-- Whitespace found within a prefix is found in the prefix alone. -/
theorem blanks_of_append {front back : List UInt8} (h : blanks (front++back)<front.length) :
    blanks front=blanks (front++back) := by
  have hle := blanks_le front
  by_cases hlt : blanks front<front.length
  · rw [blanks_append back hlt]
  · unfold blanks at *
    rw [List.takeWhile_append,if_pos (by omega),List.length_append] at h
    omega

/-- A byte that is not whitespace bounds the leading whitespace. -/
theorem blanks_lt_of_mem {bytes : List UInt8} {c : UInt8} (hc : c∈bytes)
    (h : netIsWhitespace c=false) : blanks bytes<bytes.length := by
  have hle := blanks_le bytes
  by_contra hge
  have hwhole : bytes.takeWhile netIsWhitespace=bytes :=
    (List.takeWhile_prefix _).eq_of_length (by unfold blanks at hge hle; omega)
  rw [List.takeWhile_eq_self_iff.mp hwhole c hc] at h
  cases h

/-- A complete token stays complete. -/
theorem token_append {front : List UInt8} {len : ℕ} (back : List UInt8)
    (h : token front=.closed len) : token (front++back)=.closed len := by
  obtain ⟨hlen,hle,hlt⟩ := token_closed_iff.mp h
  refine token_closed_iff.mpr ⟨?_,hle,by rw [List.length_append]; omega⟩
  unfold tokenLength at hlen ⊢
  rw [List.takeWhile_append,if_neg (by omega),hlen]

/-- A token that ends inside a prefix is complete in the prefix. -/
theorem token_of_append {front back : List UInt8} {len : ℕ}
    (h : token (front++back)=.closed len) (hlt : len<front.length) : token front=.closed len := by
  obtain ⟨hlen,hle,_⟩ := token_closed_iff.mp h
  refine token_closed_iff.mpr ⟨?_,hle,hlt⟩
  have hf := tokenLength_le front
  unfold tokenLength at hlen hf ⊢
  rw [List.takeWhile_append] at hlen
  split_ifs at hlen with hw
  · rw [List.length_append] at hlen
    omega
  · exact hlen

/-- A token that is too long stays too long. -/
theorem token_garbage_append {front : List UInt8} (back : List UInt8)
    (h : token front=.garbage) : token (front++back)=.garbage := by
  unfold token at h ⊢
  split_ifs at h with hlong
  refine if_pos ?_
  unfold tokenLength at hlong ⊢
  rw [List.takeWhile_append]
  split_ifs
  · rw [List.length_append]
    omega
  · exact hlong

/-- The parts of a recognised argument. -/
theorem argument_eq_some_iff {bytes : List UInt8} {val : UInt32} {used : ℕ} :
    argument bytes=some (val,used) ↔
      0<blanks bytes ∧ ∃ len, token (bytes.drop (blanks bytes))=.closed len ∧
        val=decimal ((bytes.drop (blanks bytes)).take len) ∧ used=blanks bytes+len := by
  unfold argument
  constructor
  · intro h
    split_ifs at h with hz
    split at h
    · rename_i len ht
      cases h
      exact ⟨by omega,len,ht,rfl,rfl⟩
    · cases h
  · rintro ⟨hpos,len,ht,rfl,rfl⟩
    rw [if_neg (by omega),ht]

/-- An argument lies inside the bytes and is preceded by whitespace. -/
theorem argument_bounds {bytes : List UInt8} {val : UInt32} {used : ℕ}
    (h : argument bytes=some (val,used)) : 0<used ∧ used<bytes.length := by
  obtain ⟨hpos,len,ht,_,hused⟩ := argument_eq_some_iff.mp h
  have hlt := (token_closed_iff.mp ht).2.2
  rw [List.length_drop] at hlt
  omega

/-- A recognised argument stays recognised. -/
theorem argument_append {front : List UInt8} {val : UInt32} {used : ℕ} (back : List UInt8)
    (h : argument front=some (val,used)) : argument (front++back)=some (val,used) := by
  obtain ⟨hpos,len,ht,hval,hused⟩ := argument_eq_some_iff.mp h
  have hlt := (token_closed_iff.mp ht).2.2
  rw [List.length_drop] at hlt
  have hb := blanks_append back (by omega : blanks front<front.length)
  have hdrop : (front++back).drop (blanks front)=front.drop (blanks front)++back :=
    List.drop_append_of_le_length (by omega)
  refine argument_eq_some_iff.mpr ⟨by omega,len,?_,?_,by omega⟩
  · rw [hb,hdrop]
    exact token_append back ht
  · rw [hb,hdrop,List.take_append_of_le_length (by rw [List.length_drop]; omega)]
    exact hval

/-- An argument that ends inside a prefix is recognised in the prefix. -/
theorem argument_of_append {front back : List UInt8} {val : UInt32} {used : ℕ}
    (h : argument (front++back)=some (val,used)) (hlt : used<front.length) :
    argument front=some (val,used) := by
  obtain ⟨hpos,len,ht,hval,hused⟩ := argument_eq_some_iff.mp h
  have hb := @blanks_of_append front back (by omega)
  have hdrop : (front++back).drop (blanks front)=front.drop (blanks front)++back :=
    List.drop_append_of_le_length (by omega)
  rw [←hb,hdrop] at ht
  have ht' := token_of_append ht (by rw [List.length_drop]; omega)
  refine argument_eq_some_iff.mpr ⟨by omega,len,ht',?_,by omega⟩
  rw [hval,←hb,hdrop,List.take_append_of_le_length (by rw [List.length_drop]; omega)]

/-- The byte behind an argument is whitespace. -/
theorem blanks_behind_argument {bytes : List UInt8} {val : UInt32} {used : ℕ}
    (h : argument bytes=some (val,used)) : 0<blanks (bytes.drop used) := by
  obtain ⟨_,len,ht,_,hused⟩ := argument_eq_some_iff.mp h
  obtain ⟨hlen,_,hlt⟩ := token_closed_iff.mp ht
  rw [hused,←List.drop_drop]
  generalize bytes.drop (blanks bytes)=rest at hlen hlt ⊢
  have hsplit := @List.takeWhile_append_dropWhile _ (fun c => !netIsWhitespace c) rest
  have hdrop : rest.drop len=rest.dropWhile fun c => !netIsWhitespace c := by
    calc
      rest.drop len=((rest.takeWhile fun c => !netIsWhitespace c)++
          rest.dropWhile fun c => !netIsWhitespace c).drop len := by rw [hsplit]
      _=rest.dropWhile fun c => !netIsWhitespace c := List.drop_left' hlen
  cases hd : rest.drop len with
  | nil =>
    rw [List.drop_eq_nil_iff] at hd
    omega
  | cons c tail =>
    have hhead := @List.head_dropWhile_not _ (fun c => !netIsWhitespace c) rest
      (by rw [←hdrop,hd]; exact List.cons_ne_nil c tail)
    simp only [←hdrop,hd,List.head_cons,Bool.not_eq_false'] at hhead
    rw [blanks_cons_of_whitespace hhead]
    omega

/-- The two recognised arguments. -/
theorem arguments_eq_some_iff {bytes : List UInt8} {x y : UInt32} {used : ℕ} :
    arguments bytes=some (x,y,used) ↔
      ∃ i j, argument bytes=some (x,i) ∧ argument (bytes.drop i)=some (y,j) ∧ used=i+j := by
  unfold arguments
  constructor
  · intro h
    split at h
    · cases h
    · rename_i x' i hx
      split at h
      · cases h
      · rename_i y' j hy
        cases h
        exact ⟨i,j,hx,hy,rfl⟩
  · rintro ⟨i,j,hx,hy,rfl⟩
    rw [hx]
    dsimp only
    rw [hy]

/-- Both arguments lie inside the bytes, with whitespace behind them. -/
theorem arguments_bounds {bytes : List UInt8} {x y : UInt32} {used : ℕ}
    (h : arguments bytes=some (x,y,used)) :
    0<used ∧ used<bytes.length ∧ 0<blanks (bytes.drop used) := by
  obtain ⟨i,j,hx,hy,rfl⟩ := arguments_eq_some_iff.mp h
  have hbx := argument_bounds hx
  have hby := argument_bounds hy
  have hrun := blanks_behind_argument hy
  rw [List.length_drop] at hby
  rw [List.drop_drop] at hrun
  exact ⟨by omega,by omega,hrun⟩

/-- Recognised arguments stay recognised. -/
theorem arguments_append {front : List UInt8} {x y : UInt32} {used : ℕ} (back : List UInt8)
    (h : arguments front=some (x,y,used)) : arguments (front++back)=some (x,y,used) := by
  obtain ⟨i,j,hx,hy,rfl⟩ := arguments_eq_some_iff.mp h
  have hbx := (argument_bounds hx).2
  refine arguments_eq_some_iff.mpr ⟨i,j,argument_append back hx,?_,rfl⟩
  rw [List.drop_append_of_le_length (by omega)]
  exact argument_append back hy

/-- Arguments that end inside a prefix are recognised in the prefix. -/
theorem arguments_of_append {front back : List UInt8} {x y : UInt32} {used : ℕ}
    (h : arguments (front++back)=some (x,y,used)) (hlt : used<front.length) :
    arguments front=some (x,y,used) := by
  obtain ⟨i,j,hx,hy,rfl⟩ := arguments_eq_some_iff.mp h
  rw [List.drop_append_of_le_length (by omega)] at hy
  exact arguments_eq_some_iff.mpr ⟨i,j,argument_of_append hx (by omega),
    argument_of_append hy (by rw [List.length_drop]; omega),rfl⟩

variable {s : Reader}

/-- An access that the received bytes allow leaves no trace. -/
theorem needing_eq {k : ℕ} (h : k≤ringAvailable s.ring) : s.needing k=s := by
  rw [Reader.needing,if_pos h,Nat.add_zero]

/-- Consuming no byte changes nothing. -/
theorem reader_skip_zero (hs : RingInv s.ring) : s.skip 0=s := by
  rw [Reader.skip,skip_zero hs]

/-- Consumption composes. -/
theorem reader_skip_skip (hs : RingInv s.ring) {i j : ℕ} (h : i+j≤ringAvailable s.ring) :
    (s.skip i).skip j=s.skip (i+j) := by
  simp only [Reader.skip,skip_skip hs h]

/-- The number of unread bytes is the length of the content. -/
theorem available_of_content {bytes : List UInt8} (h : content s.ring=bytes) :
    ringAvailable s.ring=bytes.length := by
  rw [←content_length,h]

/-- The first unread byte and the content behind it. -/
theorem content_cons (hs : RingInv s.ring) {c : UInt8} {bytes : List UInt8}
    (h : content s.ring=c::bytes) :
    ringPeekOne s.ring=c ∧ content (s.skip 1).ring=bytes ∧ RingInv (s.skip 1).ring ∧
      0<ringAvailable s.ring := by
  have ha := available_of_content h
  rw [List.length_cons] at ha
  have hhead := content_head hs (by omega)
  rw [h,List.drop_succ_cons,List.drop_zero] at hhead
  refine ⟨(List.cons.inj hhead).1.symm,?_,skip_inv hs (by omega),by omega⟩
  rw [Reader.skip,content_skip hs (by omega),h,List.drop_succ_cons,List.drop_zero]

/-- `ring_peek_one` sees the first unread byte. -/
theorem peekOne_eq (hs : RingInv s.ring) {c : UInt8} {bytes : List UInt8}
    (h : content s.ring=c::bytes) : s.peekOne=(c,s) := by
  obtain ⟨hc,_,_,ha⟩ := content_cons hs h
  rw [Reader.peekOne,hc,needing_eq ha]

/-- `ring_inc_read` consumes it. -/
theorem incRead_eq (hs : RingInv s.ring) (h : 0<ringAvailable s.ring) : s.incRead=s.skip 1 := by
  rw [Reader.incRead,ringIncRead_eq hs,needing_eq h,Reader.skip]

/-- `ring_read_one` does both. -/
theorem readOne_eq (hs : RingInv s.ring) {c : UInt8} {bytes : List UInt8}
    (h : content s.ring=c::bytes) : s.readOne=(c,s.skip 1) := by
  obtain ⟨hc,_,_,ha⟩ := content_cons hs h
  rw [Reader.readOne,ringReadOne_eq hs,hc,needing_eq ha,Reader.skip]

/-- There is no unread byte in an empty content. -/
theorem anyAvailable_nil (hs : RingInv s.ring) (h : content s.ring=[]) :
    ringAnyAvailable s.ring=false := by
  have ha := available_of_content h
  rw [List.length_nil] at ha
  cases he : ringAnyAvailable s.ring with
  | false => rfl
  | true => exact absurd ((anyAvailable_iff hs).mp he) (by omega)

/-- There is one in any other content. -/
theorem anyAvailable_of_ne_nil (hs : RingInv s.ring) (h : content s.ring≠[]) :
    ringAnyAvailable s.ring=true := by
  rw [anyAvailable_iff hs,←content_length]
  exact List.length_pos_iff.mpr h

/-- `net_skip_whitespace` counts and consumes the leading whitespace. -/
theorem netSkipWhitespaceLoop_eq {fuel : ℕ} {cnt : ℤ} {bytes : List UInt8} (hs : RingInv s.ring)
    (h : content s.ring=bytes) (hfuel : bytes.length≤fuel) :
    netSkipWhitespaceLoop fuel cnt s=(cnt+blanks bytes,s.skip (blanks bytes)) := by
  induction bytes generalizing fuel cnt s with
  | nil =>
    rw [blanks_nil,reader_skip_zero hs,Nat.cast_zero,add_zero]
    cases fuel with
    | zero => rfl
    | succ fuel => rw [netSkipWhitespaceLoop,anyAvailable_nil hs h,if_neg Bool.false_ne_true]
  | cons c bytes ih =>
    obtain ⟨hc,htail,hinv,ha⟩ := content_cons hs h
    have hlen := available_of_content h
    rw [List.length_cons] at hfuel hlen
    obtain ⟨fuel,rfl⟩ : ∃ k, fuel=k+1 := ⟨fuel-1,by omega⟩
    rw [netSkipWhitespaceLoop,(anyAvailable_iff hs).mpr ha,if_pos rfl,peekOne_eq hs h]
    dsimp only
    cases hw : netIsWhitespace c with
    | false =>
      rw [if_neg Bool.false_ne_true,blanks_cons_of_not hw,reader_skip_zero hs,Nat.cast_zero,add_zero]
    | true =>
      have hb := blanks_le bytes
      rw [if_pos rfl,incRead_eq hs ha,ih hinv htail (by omega),blanks_cons_of_whitespace hw,
        reader_skip_skip hs (by omega),Nat.cast_add,Nat.cast_one,Nat.add_comm 1,add_assoc,
        add_comm (1 : ℤ)]

/-- `net_skip_whitespace` as a function of the unread bytes. -/
theorem netSkipWhitespace_eq (hs : RingInv s.ring) :
    netSkipWhitespace s=
      (if blanks (content s.ring)=0 then -1 else (blanks (content s.ring) : ℤ),
        s.skip (blanks (content s.ring))) := by
  have ha := available_lt hs
  unfold netSkipWhitespace
  rw [netSkipWhitespaceLoop_eq hs rfl (by rw [content_length]; omega),zero_add]
  dsimp only
  split_ifs <;> first | rfl | omega

/-- The look-ahead loop reports the token and moves only the read pointer. -/
theorem netNextWhitespaceLoop_eq {fuel k : ℕ} {bytes : List UInt8} (hs : RingInv s.ring)
    (h : content s.ring=bytes) (hfuel : bytes.length≤fuel) (hk : k≤32) :
    ∃ n≤bytes.length, netNextWhitespaceLoop fuel k s=
      ((if 32<k+tokenLength bytes then -EINVAL
        else if tokenLength bytes=bytes.length then -1 else ((k+tokenLength bytes : ℕ) : ℤ)),
        s.skip n) := by
  induction bytes generalizing fuel k s with
  | nil =>
    refine ⟨0,le_refl _,?_⟩
    rw [reader_skip_zero hs,show tokenLength []=0 from rfl,List.length_nil,if_neg (by omega),
      if_pos rfl]
    cases fuel with
    | zero => rfl
    | succ fuel => rw [netNextWhitespaceLoop,anyAvailable_nil hs h,if_neg Bool.false_ne_true]
  | cons c bytes ih =>
    obtain ⟨hc,htail,hinv,ha⟩ := content_cons hs h
    have hlen := available_of_content h
    rw [List.length_cons] at hfuel hlen
    obtain ⟨fuel,rfl⟩ : ∃ k, fuel=k+1 := ⟨fuel-1,by omega⟩
    rw [netNextWhitespaceLoop,(anyAvailable_iff hs).mpr ha,if_pos rfl,readOne_eq hs h,
      List.length_cons]
    dsimp only
    cases hw : netIsWhitespace c with
    | true =>
      refine ⟨1,by omega,?_⟩
      rw [if_pos rfl,tokenLength_cons_of_whitespace hw,if_neg (by omega),if_neg (by omega),
        Nat.add_zero]
    | false =>
      rw [if_neg Bool.false_ne_true,tokenLength_cons_of_not hw,whitespaceSearchGarbageThreshold]
      by_cases hbig : (k : ℤ)≥32
      · exact ⟨1,by omega,by rw [if_pos hbig,if_pos (by omega)]⟩
      · obtain ⟨n,hle,hn⟩ := ih hinv htail (by omega : bytes.length≤fuel) (by omega : k+1≤32)
        have hsum : k+1+tokenLength bytes=k+(tokenLength bytes+1) := by omega
        push_cast at hn
        refine ⟨1+n,by omega,?_⟩
        rw [if_neg hbig,hn,reader_skip_skip hs (by omega),hsum]
        simp only [Nat.add_right_cancel_iff]
        congr 1
        split_ifs <;> first | rfl | (push_cast; omega)

/-- `net_next_whitespace` reports the token at the front and restores the
read pointer. -/
theorem netNextWhitespace_eq (hs : RingInv s.ring) :
    netNextWhitespace s=((token (content s.ring)).code,s) := by
  have ha := available_lt hs
  obtain ⟨n,_,hn⟩ := @netNextWhitespaceLoop_eq s s.ring.size 0 _ hs rfl
    (by rw [content_length]; omega) (by omega)
  rw [Nat.cast_zero] at hn
  unfold netNextWhitespace token
  rw [hn]
  simp only [Nat.zero_add]
  congr 1
  split_ifs <;> rfl

/-- The number loop reads the next bytes and consumes them. -/
theorem netStrToUint32Loop_eq {base : UInt32} {digit : UInt8 → ℤ} {rounds : ℕ} {val : UInt32}
    (hs : RingInv s.ring) (h : rounds≤ringAvailable s.ring) :
    netStrToUint32Loop base digit rounds val s=
      (number base digit val ((content s.ring).take rounds),s.skip rounds) := by
  induction rounds generalizing val s with
  | zero => rw [reader_skip_zero hs]; rfl
  | succ rounds ih =>
    cases hb : content s.ring with
    | nil =>
      have ha := available_of_content hb
      rw [List.length_nil] at ha
      omega
    | cons c bytes =>
      obtain ⟨hc,htail,hinv,ha⟩ := content_cons hs hb
      have hsk := available_skip hs (by omega : 1≤ringAvailable s.ring)
      rw [netStrToUint32Loop,readOne_eq hs hb]
      dsimp only
      rw [ih hinv (by dsimp only [Reader.skip]; omega),htail,reader_skip_skip hs (by omega),
        Nat.add_comm 1,List.take_succ_cons,number,number,List.foldl_cons]

/-- `net_str_to_uint32_10` reads a decimal number. -/
theorem netStrToUint32_10_eq (hs : RingInv s.ring) {len : ℕ} (h : len≤ringAvailable s.ring) :
    netStrToUint32_10 s len=(decimal ((content s.ring).take len),s.skip len) := by
  rw [netStrToUint32_10,Int.toNat_natCast,netStrToUint32Loop_eq hs h,decimal]

/-- `net_str_to_uint32_16` reads a hexadecimal number. -/
theorem netStrToUint32_16_eq (hs : RingInv s.ring) {len : ℕ} (h : len≤ringAvailable s.ring) :
    netStrToUint32_16 s len=(hexadecimal ((content s.ring).take len),s.skip len) := by
  rw [netStrToUint32_16,Int.toNat_natCast,netStrToUint32Loop_eq hs h,hexadecimal]

/-- The content behind consumed bytes. -/
theorem content_reader_skip (hs : RingInv s.ring) {k : ℕ} (hk : k≤ringAvailable s.ring) :
    content (s.skip k).ring=(content s.ring).drop k := content_skip hs hk

end Shoreline.TokenScan
