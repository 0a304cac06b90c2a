import Mathlib.Data.Nat.Digits.Lemmas
import Shoreline.CommandGrammar

/-!
# Texts of commands

Commands written as words and gaps of whitespace, and what the scanner makes
of them. Numbers are words of digits; the number helpers read them as 32-bit
values of what the digits denote.
-/

namespace Shoreline.CommandText

open IncrementalReader NetToken NetConnection TokenScan CommandScan CommandGrammar Framebuffer

/-- Whitespace between words. -/
structure Gap (bytes : List UInt8) : Prop where
  /-- There is some. -/
  ne_nil : bytes≠[]
  /-- There is nothing else. -/
  blank : ∀ c∈bytes,netIsWhitespace c=true

/-- A token that the look-ahead accepts. -/
structure Word (bytes : List UInt8) : Prop where
  /-- It is not empty. -/
  ne_nil : bytes≠[]
  /-- It does not exceed the garbage threshold. -/
  short : bytes.length≤32
  /-- It contains no whitespace. -/
  solid : ∀ c∈bytes,netIsWhitespace c=false

/-- A gap, by running through it. -/
theorem gap_of_all {bytes : List UInt8} (hne : bytes≠[])
    (hall : bytes.all netIsWhitespace=true) : Gap bytes :=
  ⟨hne,List.all_eq_true.mp hall⟩

/-- A word, by running through it. -/
theorem word_of_any {bytes : List UInt8} (hne : bytes≠[]) (hlen : bytes.length≤32)
    (hany : bytes.any netIsWhitespace=false) : Word bytes :=
  ⟨hne,hlen,fun c hc => Bool.eq_false_of_not_eq_true (List.any_eq_false.mp hany c hc)⟩

/-- A word of characters none of which is whitespace. -/
theorem word_map {ι : Type*} {char : ι → UInt8} {text : List ι} (hne : text≠[])
    (hlen : text.length≤32) (h : ∀ i∈text,netIsWhitespace (char i)=false) :
    Word (text.map char) := by
  refine ⟨?_,by rw [List.length_map]; exact hlen,fun c hc => ?_⟩
  · rwa [ne_eq,List.map_eq_nil_iff]
  · obtain ⟨i,hi,rfl⟩ := List.mem_map.mp hc
    exact h i hi

/-- A gap is the leading whitespace of itself and any word behind it. -/
theorem takeWhile_gap {gap word : List UInt8} (hg : Gap gap) (hw : Word word) (rest : List UInt8) :
    (gap++(word++rest)).takeWhile netIsWhitespace=gap := by
  rw [List.takeWhile_append_of_pos hg.blank]
  cases word with
  | nil => exact absurd rfl hw.ne_nil
  | cons c word =>
    have hc := hw.solid c List.mem_cons_self
    rw [List.cons_append,List.takeWhile_cons_of_neg (by rw [hc]; exact Bool.false_ne_true),
      List.append_nil]

/-- A gap ends where the next word starts. -/
theorem blanks_gap {gap word : List UInt8} (hg : Gap gap) (hw : Word word) (rest : List UInt8) :
    blanks (gap++(word++rest))=gap.length := by rw [blanks,takeWhile_gap hg hw]

/-- A gap is leading whitespace. -/
theorem blanks_gap_pos {gap : List UInt8} (hg : Gap gap) (rest : List UInt8) :
    0<blanks (gap++rest) := by
  cases gap with
  | nil => exact absurd rfl hg.ne_nil
  | cons c gap =>
    rw [List.cons_append,blanks_cons_of_whitespace (hg.blank c List.mem_cons_self)]
    omega

/-- A word ends where whitespace starts. -/
theorem token_word {word rest : List UInt8} (hw : Word word) (hrest : 0<blanks rest) :
    token (word++rest)=.closed word.length := by
  have hpos : 0<rest.length := lt_of_lt_of_le hrest (blanks_le rest)
  refine token_closed_iff.mpr ⟨?_,hw.short,by rw [List.length_append]; omega⟩
  cases rest with
  | nil => exact absurd hrest (lt_irrefl 0)
  | cons c rest =>
    have hc : netIsWhitespace c=true := by
      cases hc : netIsWhitespace c with
      | true => rfl
      | false =>
        rw [blanks_cons_of_not hc] at hrest
        exact absurd hrest (lt_irrefl 0)
    rw [tokenLength,List.takeWhile_append_of_pos fun c hc => by rw [hw.solid c hc]; rfl,
      List.takeWhile_cons_of_neg (by rw [hc]; decide),List.append_nil]

/-- An argument is a gap and a word. -/
theorem argument_text {gap word rest : List UInt8} (hg : Gap gap) (hw : Word word)
    (hrest : 0<blanks rest) :
    argument (gap++(word++rest))=some (decimal word,gap.length+word.length) := by
  refine argument_eq_some_iff.mpr ?_
  rw [blanks_gap hg hw,List.drop_left]
  exact ⟨List.length_pos_iff.mpr hg.ne_nil,word.length,token_word hw hrest,
    by rw [List.take_left],rfl⟩

/-- Two arguments, written out. -/
structure Arguments where
  /-- Whitespace before the first. -/
  gapX : List UInt8
  /-- The first. -/
  wordX : List UInt8
  /-- Whitespace between both. -/
  gapY : List UInt8
  /-- The second. -/
  wordY : List UInt8
  /-- The first gap is one. -/
  gap_x : Gap gapX
  /-- The first word is one. -/
  word_x : Word wordX
  /-- The second gap is one. -/
  gap_y : Gap gapY
  /-- The second word is one. -/
  word_y : Word wordY

/-- The bytes of two arguments. -/
def Arguments.bytes (args : Arguments) : List UInt8 :=
  args.gapX++(args.wordX++(args.gapY++args.wordY))

/-- A single blank is a gap. -/
theorem gap_blank : Gap [0x20] := gap_of_all (List.cons_ne_nil _ _) rfl

/-- Two words with single blanks before them. -/
def Arguments.plain {wordX wordY : List UInt8} (hx : Word wordX) (hy : Word wordY) : Arguments :=
  ⟨[0x20],wordX,[0x20],wordY,gap_blank,hx,gap_blank,hy⟩

/-- Written arguments are recognised. -/
theorem arguments_text (args : Arguments) {rest : List UInt8} (hrest : 0<blanks rest) :
    arguments (args.bytes++rest)=
      some (decimal args.wordX,decimal args.wordY,args.bytes.length) := by
  have hassoc : args.bytes++rest=
      args.gapX++(args.wordX++(args.gapY++(args.wordY++rest))) := by
    simp only [Arguments.bytes,List.append_assoc]
  have hlen : args.bytes.length=args.gapX.length+args.wordX.length+
      (args.gapY.length+args.wordY.length) := by
    simp only [Arguments.bytes,List.length_append]
    omega
  rw [hassoc]
  refine arguments_eq_some_iff.mpr ⟨_,_,argument_text args.gap_x args.word_x
    (blanks_gap_pos args.gap_y _),?_,hlen⟩
  rw [←List.append_assoc,List.drop_left' (by rw [List.length_append])]
  exact argument_text args.gap_y args.word_y hrest

/-- What follows a pixel verb. -/
theorem drop_px (rest : List UInt8) : (verbPx++rest).drop 2=rest := rfl

/-- What follows an offset verb. -/
theorem drop_offset (rest : List UInt8) : (verbOffset++rest).drop 6=rest := rfl

/-- A pixel command with a colour behind a gap that does not end a line is a
set. -/
theorem scan_set_text (build : Build) (args : Arguments) {run colour rest : List UInt8}
    (hrun : Gap run) (hline : endsLine run=false) (hcol : Word colour) (hrest : 0<blanks rest) :
    scan build (verbPx++(args.bytes++(run++(colour++rest))))=
      .item (.set (decimal args.wordX) (decimal args.wordY) colour)
        (2+args.bytes.length+run.length+colour.length) := by
  rw [scan_px (List.prefix_append _ _),drop_px,scanPx,arguments_text args (blanks_gap_pos hrun _)]
  dsimp only
  rw [List.drop_left,scanPxAt,blanks_gap hrun hcol,List.take_left,hline,
    if_neg Bool.false_ne_true,List.drop_left,token_word hcol hrest]
  dsimp only
  rw [List.take_left]

/-- A pixel command before a gap that ends a line is a get, when a word
follows or nothing does. -/
theorem scan_get_text (build : Build) (args : Arguments) {run rest : List UInt8}
    (hrun : Gap run) (hline : endsLine run=true) (hrest : blanks rest=0) :
    scan build (verbPx++(args.bytes++(run++rest)))=
      .item (.get (decimal args.wordX) (decimal args.wordY)) (2+args.bytes.length) := by
  have htake : (run++rest).takeWhile netIsWhitespace=run := by
    rw [List.takeWhile_append_of_pos hrun.blank,List.eq_nil_of_length_eq_zero hrest,List.append_nil]
  rw [scan_px (List.prefix_append _ _),drop_px,scanPx,arguments_text args (blanks_gap_pos hrun _)]
  dsimp only
  rw [List.drop_left,scanPxAt,take_blanks,htake,hline,if_pos rfl]

/-- Two arguments behind the offset verb. -/
theorem scan_offset_text {build : Build} (hfeat : build.featureOffset=true) (args : Arguments)
    {rest : List UInt8} (hrest : 0<blanks rest) :
    scan build (verbOffset++(args.bytes++rest))=
      .item (.offset (decimal args.wordX) (decimal args.wordY)) (6+args.bytes.length) := by
  rw [scan_offset hfeat (List.prefix_append _ _),drop_offset,scanOffset,arguments_text args hrest]

/-- The number that digits denote, most significant first. -/
def denoted (base : ℕ) (digits : List ℕ) : ℕ := Nat.ofDigits base digits.reverse

/-- The number helpers read what the digits denote, as a 32-bit value. -/
theorem number_text {ι : Type*} {base : ℕ} {digit : UInt8 → ℤ} {char : ι → UInt8} {value : ι → ℕ}
    {text : List ι} (h : ∀ i∈text,digit (char i)=value i) :
    number (UInt32.ofNat base) digit 0 (text.map char)=
      UInt32.ofNat (denoted base (text.map value)) := by
  have hfold : ∀ (text : List ι), (∀ i∈text,digit (char i)=value i) → ∀ v : ℕ,
      number (UInt32.ofNat base) digit (UInt32.ofNat v) (text.map char)=
        UInt32.ofNat ((text.map value).foldl (fun v d => d+base*v) v) := by
    intro text
    induction text with
    | nil => exact fun _ _ => rfl
    | cons i text ih =>
      intro hi v
      rw [List.forall_mem_cons] at hi
      have hd : UInt32.ofInt (digit (char i))=UInt32.ofNat (value i) := by
        have hmod : ((value i : ℤ)%2^32).toNat=value i%2^32 := by omega
        rw [hi.1,UInt32.ofInt,hmod]
        exact UInt32.ofNat_mod_size
      have hstep : UInt32.ofNat v*UInt32.ofNat base+UInt32.ofInt (digit (char i))=
          UInt32.ofNat (value i+base*v) := by
        rw [hd,UInt32.ofNat_add,UInt32.ofNat_mul,UInt32.mul_comm,UInt32.add_comm]
      have hih := ih hi.2 (value i+base*v)
      rw [List.map_cons,number,List.foldl_cons,hstep]
      exact hih
  rw [denoted,Nat.ofDigits_eq_foldr,List.foldr_reverse]
  exact hfold text h 0

/-- Up to 32 decimal digits are a word. -/
theorem word_digits {digits : List ℕ} (hne : digits≠[]) (hlen : digits.length≤32)
    (h : ∀ d∈digits,d<10) : Word (digits.map digitChar) := by
  have hsolid : ∀ d<10,netIsWhitespace (digitChar d)=false := by decide
  exact word_map hne hlen fun d hd => hsolid d (h d hd)

/-- Decimal words denote their numbers, modulo the word size. -/
theorem decimal_digits {digits : List ℕ} (h : ∀ d∈digits,d<10) :
    decimal (digits.map digitChar)=UInt32.ofNat (denoted 10 digits) := by
  have hdigit : ∀ d<10,decDigit (digitChar d)=(d : ℤ) := by decide
  have hn := @number_text ℕ 10 decDigit digitChar id digits fun d hd => hdigit d (h d hd)
  rw [List.map_id] at hn
  exact hn

end Shoreline.CommandText
