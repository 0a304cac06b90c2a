import Mathlib.Data.List.DropRight
import Shoreline.CommandLoop
import Shoreline.CommandText

/-!
# Encoded streams of commands

Commands and junk tokens as a client writes them: decimal numbers without
leading zeros, single blanks, one line end. Every encoded item is recognised
as the command it encodes, up to its line end, and no encoded stream has
mixed whitespace behind the arguments of a pixel command.
-/

namespace Shoreline.ItemText

open IncrementalReader NetToken NetConnection TokenScan CommandScan CommandGrammar CommandLoop
open CommandText Framebuffer

/-- The character of a hexadecimal digit in the given letter case. -/
def hexChar (d : ℕ×Bool) : UInt8 :=
  UInt8.ofNat (if d.1<10 then 0x30+d.1 else if d.2 then 0x37+d.1 else 0x57+d.1)

/-- What a client writes. -/
inductive Item where
  | set (x y : ℕ) (digits : List (ℕ×Bool))
  | get (x y : ℕ)
  | size
  | offset (x y : ℕ)
  | junk (token : List UInt8)

/-- The limits of the encoding: 32-bit numbers, six or eight hexadecimal
digits, and junk that is a token without a verb in front. -/
def Item.WellFormed : Item → Prop
  | .set x y digits => (x<2^32 ∧ y<2^32) ∧ (digits.length=6 ∨ digits.length=8) ∧
      ∀ d∈digits,d.1<16
  | .get x y => x<2^32 ∧ y<2^32
  | .size => True
  | .offset x y => x<2^32 ∧ y<2^32
  | .junk token => Word token ∧ ∀ verb∈verbs,¬verb<+:token

/-- Both coordinates with a blank before each. -/
def pointText (x y : ℕ) : List UInt8 :=
  [0x20]++(formatUnsigned x++([0x20]++formatUnsigned y))

/-- An item without its line end. -/
def Item.text : Item → List UInt8
  | .set x y digits => verbPx++(pointText x y++([0x20]++digits.map hexChar))
  | .get x y => verbPx++pointText x y
  | .size => verbSize
  | .offset x y => verbOffset++pointText x y
  | .junk token => token

/-- An encoded item. -/
def Item.bytes (item : Item) : List UInt8 := item.text++[0x0a]

/-- An encoded stream. -/
def encode (items : List Item) : List UInt8 := items.flatMap Item.bytes

/-- The command that an item encodes. -/
def Item.command : Item → Command
  | .set x y digits => .set (UInt32.ofNat x) (UInt32.ofNat y) (digits.map hexChar)
  | .get x y => .get (UInt32.ofNat x) (UInt32.ofNat y)
  | .size => .size
  | .offset x y => .offset (UInt32.ofNat x) (UInt32.ofNat y)
  | .junk _ => .unknown

/-- The decimal digits of a number, at least one. -/
def decDigits (n : ℕ) : List ℕ := if n=0 then [0] else (Nat.digits 10 n).reverse

/-- `%u` writes them. -/
theorem formatUnsigned_eq (n : ℕ) : formatUnsigned n=(decDigits n).map digitChar := by
  unfold formatUnsigned decDigits
  split <;> rfl

/-- They are digits. -/
theorem decDigits_lt (n : ℕ) : ∀ d∈decDigits n,d<10 := by
  intro d hd
  unfold decDigits at hd
  split at hd
  · rw [List.mem_singleton] at hd
    omega
  · exact Nat.digits_lt_base (by omega) (List.mem_reverse.mp hd)

/-- They denote the number. -/
theorem denoted_decDigits (n : ℕ) : denoted 10 (decDigits n)=n := by
  unfold denoted decDigits
  split
  · rename_i h
    rw [h]
    rfl
  · rw [List.reverse_reverse,Nat.ofDigits_digits]

/-- Their number is at least one, and bounded by the number. -/
theorem decDigits_length {n k : ℕ} (hk : 0<k) (h : n<10^k) :
    0<(decDigits n).length ∧ (decDigits n).length≤k := by
  unfold decDigits
  split
  · exact ⟨Nat.one_pos,hk⟩
  · rename_i hn
    rw [List.length_reverse]
    exact ⟨List.length_pos_iff.mpr (Nat.digits_ne_nil_iff_ne_zero.mpr hn),
      (Nat.digits_length_le_iff (by omega) n).mpr h⟩

/-- A written 32-bit number is a word. -/
theorem word_formatUnsigned {n : ℕ} (h : n<2^32) : Word (formatUnsigned n) := by
  obtain ⟨hpos,hlen⟩ := @decDigits_length n 10 (by omega) (by omega)
  rw [formatUnsigned_eq]
  exact word_digits (List.ne_nil_of_length_pos hpos) (by omega) (decDigits_lt n)

/-- It is read as that number. -/
theorem decimal_formatUnsigned (n : ℕ) : decimal (formatUnsigned n)=UInt32.ofNat n := by
  rw [formatUnsigned_eq,decimal_digits (decDigits_lt n),denoted_decDigits]

/-- Written colours are words. -/
theorem word_hex {digits : List (ℕ×Bool)} (hlen : digits.length=6 ∨ digits.length=8)
    (h : ∀ d∈digits,d.1<16) : Word (digits.map hexChar) := by
  have hsolid : ∀ d<16,∀ upper,netIsWhitespace (hexChar (d,upper))=false := by decide
  exact word_map (List.ne_nil_of_length_pos (by omega)) (by omega)
    fun d hd => hsolid d.1 (h d hd) d.2

/-- They are read as the number their digits denote, in either letter case. -/
theorem hexadecimal_hex {digits : List (ℕ×Bool)} (h : ∀ d∈digits,d.1<16) :
    hexadecimal (digits.map hexChar)=UInt32.ofNat (denoted 16 (digits.map Prod.fst)) := by
  have hdigit : ∀ d<16,∀ upper,hexDigit (hexChar (d,upper))=(d : ℤ) := by decide
  exact @number_text (ℕ×Bool) 16 hexDigit hexChar Prod.fst digits
    fun d hd => hdigit d.1 (h d hd) d.2

/-- Written coordinates as arguments. -/
theorem arguments_point {x y : ℕ} (h : x<2^32 ∧ y<2^32) :
    ∃ args : Arguments, args.bytes=pointText x y ∧ decimal args.wordX=UInt32.ofNat x ∧
      decimal args.wordY=UInt32.ofNat y :=
  ⟨.plain (word_formatUnsigned h.1) (word_formatUnsigned h.2),rfl,decimal_formatUnsigned x,
    decimal_formatUnsigned y⟩

/-- A line end is a gap. -/
theorem gap_newline : Gap [0x0a] := gap_of_all (List.cons_ne_nil _ _) rfl

/-- Behind a line end no whitespace is missing. -/
theorem blanks_newline (rest : List UInt8) : 0<blanks (0x0a::rest) := by
  rw [blanks_cons_of_whitespace rfl]
  omega

/-- Junk has no verb in front, whatever follows its line end. -/
theorem junk_verb {token verb : List UInt8} (hverb : verb∈verbs) (h : ¬verb<+:token)
    (rest : List UInt8) : ¬verb<+:token++0x0a::rest := by
  have hblank : ∀ verb∈verbs,(0x0a : UInt8)∉verb := by decide
  intro hv
  exact h (verb_of_append_cons (hblank verb hverb) hv)

/-- A set is recognised as its command, up to its line end. -/
theorem scan_set_item (build : Build) {x y : ℕ} {digits : List (ℕ×Bool)}
    (hwf : (Item.set x y digits).WellFormed) (rest : List UInt8) :
    scan build ((Item.set x y digits).text++0x0a::rest)=
      .item (Item.set x y digits).command (Item.set x y digits).text.length := by
  obtain ⟨hxy,hlen,hhex⟩ := hwf
  obtain ⟨args,hargs,hx,hy⟩ := arguments_point hxy
  have hscan := scan_set_text build args gap_blank rfl (word_hex hlen hhex) (blanks_newline rest)
  rw [hargs,hx,hy] at hscan
  have htext : (Item.set x y digits).text++0x0a::rest=
      verbPx++(pointText x y++([0x20]++(digits.map hexChar++0x0a::rest))) := by
    simp only [Item.text,List.append_assoc]
  have hused : (Item.set x y digits).text.length=
      2+(pointText x y).length+[(0x20 : UInt8)].length+(digits.map hexChar).length := by
    simp only [Item.text,List.length_append,verbPx,List.length_cons,List.length_nil]
    omega
  rw [htext,hused]
  exact hscan

/-- A get is recognised as its command, up to its line end. -/
theorem scan_get_item (build : Build) {x y : ℕ} (hwf : (Item.get x y).WellFormed)
    {rest : List UInt8} (hrest : blanks rest=0) :
    scan build ((Item.get x y).text++0x0a::rest)=
      .item (Item.get x y).command (Item.get x y).text.length := by
  obtain ⟨args,hargs,hx,hy⟩ := arguments_point hwf
  have hscan := scan_get_text build args gap_newline rfl hrest
  rw [hargs,hx,hy] at hscan
  have htext : (Item.get x y).text++0x0a::rest=verbPx++(pointText x y++([0x0a]++rest)) := by
    simp only [Item.text,List.append_assoc,List.cons_append,List.nil_append]
  have hused : (Item.get x y).text.length=2+(pointText x y).length := by
    simp only [Item.text,List.length_append,verbPx,List.length_cons,List.length_nil]
  rw [htext,hused]
  exact hscan

/-- An item is recognised as its command, up to its line end. -/
theorem scan_item {build : Build} (hsize : build.featureSize=true)
    (hoffset : build.featureOffset=true) {item : Item} (hwf : item.WellFormed) {rest : List UInt8}
    (hrest : blanks rest=0) :
    scan build (item.text++0x0a::rest)=.item item.command item.text.length := by
  cases item with
  | set x y digits => exact scan_set_item build hwf rest
  | get x y => exact scan_get_item build hwf hrest
  | size => exact scan_size hsize (List.prefix_append _ _)
  | offset x y =>
    obtain ⟨args,hargs,hx,hy⟩ := arguments_point hwf
    have hscan := scan_offset_text hoffset args (blanks_newline rest)
    rw [hargs,hx,hy] at hscan
    have htext : (Item.offset x y).text++0x0a::rest=verbOffset++(pointText x y++0x0a::rest) := by
      simp only [Item.text,List.append_assoc]
    have hused : (Item.offset x y).text.length=6+(pointText x y).length := by
      simp only [Item.text,List.length_append,verbOffset,List.length_cons,List.length_nil]
    rw [htext,hused]
    exact hscan
  | junk token =>
    obtain ⟨hword,hverb⟩ := hwf
    rw [Item.text,scan_unknown fun verb hmem => junk_verb hmem (hverb verb hmem) rest,scanUnknown,
      token_word hword (blanks_newline rest)]
    rfl

/-- Behind an item and its line end, the next bytes are at the front. -/
theorem rest_item (build : Build) (item : Item) {rest : List UInt8} (hrest : blanks rest=0) :
    (grammar build).rest (item.text++0x0a::rest) item.text.length=rest := by
  rw [Grammar.rest,List.drop_left]
  exact (List.dropWhile_cons_of_pos rfl).trans (dropWhile_of_blanks hrest)

/-- Items begin with something other than whitespace. -/
theorem text_cons {item : Item} (hwf : item.WellFormed) :
    ∃ a tail, item.text=a::tail ∧ netIsWhitespace a=false := by
  cases item with
  | set x y digits => exact ⟨_,_,rfl,rfl⟩
  | get x y => exact ⟨_,_,rfl,rfl⟩
  | size => exact ⟨_,_,rfl,rfl⟩
  | offset x y => exact ⟨_,_,rfl,rfl⟩
  | junk token =>
    cases token with
    | nil => exact absurd rfl hwf.1.ne_nil
    | cons a tail => exact ⟨a,tail,rfl,hwf.1.solid a List.mem_cons_self⟩

/-- The first item of an encoded stream. -/
theorem encode_cons (item : Item) (items : List Item) :
    encode (item::items)=item.text++0x0a::encode items := by
  rw [encode,List.flatMap_cons,Item.bytes,List.append_assoc,List.singleton_append,encode]

/-- An encoded stream does not start with whitespace. -/
theorem blanks_encode {items : List Item} (hwf : ∀ item∈items,item.WellFormed) :
    blanks (encode items)=0 := by
  cases items with
  | nil => rfl
  | cons item items =>
    obtain ⟨a,tail,htext,ha⟩ := text_cons (hwf item List.mem_cons_self)
    rw [encode_cons,htext,List.cons_append,blanks_cons_of_not ha]

/-- Whitespace behind the arguments of a written pixel command is not mixed. -/
theorem not_mixedRun_item {item : Item} (hwf : item.WellFormed) {rest : List UInt8}
    (hrest : blanks rest=0) : ¬MixedRun (item.text++0x0a::rest) := by
  rintro ⟨hpx,out,hargs,hany,hline⟩
  have hclash : ∀ {verb : List UInt8}, verb∈verbs → verb≠verbPx →
      ¬verb<+:item.text++0x0a::rest := fun hverb hne hv =>
    hne (verb_unique hverb (by decide) hv hpx)
  cases item with
  | set x y digits =>
    obtain ⟨hxy,hlen,hhex⟩ := hwf
    obtain ⟨args,hbytes,_⟩ := arguments_point hxy
    have htext : (Item.set x y digits).text++0x0a::rest=
        verbPx++(args.bytes++([0x20]++(digits.map hexChar++0x0a::rest))) := by
      simp only [hbytes,Item.text,List.append_assoc]
    rw [htext,drop_px,arguments_text args (blanks_gap_pos gap_blank _)] at hargs
    cases hargs
    have hrun : (((Item.set x y digits).text++0x0a::rest).drop (2+args.bytes.length)).takeWhile
        netIsWhitespace=[0x20] := by
      rw [htext,←List.drop_drop,drop_px,List.drop_left,
        takeWhile_gap gap_blank (word_hex hlen hhex)]
    dsimp only at hany
    rw [hrun] at hany
    exact absurd hany (by decide)
  | get x y =>
    obtain ⟨args,hbytes,_⟩ := arguments_point hwf
    have htext : (Item.get x y).text++0x0a::rest=verbPx++(args.bytes++([0x0a]++rest)) := by
      simp only [hbytes,Item.text,List.append_assoc,List.cons_append,List.nil_append]
    rw [htext,drop_px,arguments_text args (blanks_gap_pos gap_newline _)] at hargs
    cases hargs
    have hrun : (((Item.get x y).text++0x0a::rest).drop (2+args.bytes.length)).takeWhile
        netIsWhitespace=[0x0a] := by
      rw [htext,←List.drop_drop,drop_px,List.drop_left,
        List.takeWhile_append_of_pos gap_newline.blank,List.eq_nil_of_length_eq_zero hrest]
      rfl
    dsimp only at hline
    rw [hrun] at hline
    exact absurd hline (by decide)
  | size => exact hclash (by decide : verbSize∈verbs) (by decide) (List.prefix_append _ _)
  | offset x y =>
    refine hclash (by decide : verbOffset∈verbs) (by decide) ?_
    rw [Item.text,List.append_assoc]
    exact List.prefix_append _ _
  | junk token => exact junk_verb (by decide : verbPx∈verbs) (hwf.2 verbPx (by decide)) rest hpx

/-- The remaining items of an encoded stream, perhaps behind a line end. -/
def Remaining (items : List Item) (_ : Session) (bytes : List UInt8) : Prop :=
  ∃ items', (∀ item∈items',item∈items) ∧ bytes.dropWhile netIsWhitespace=encode items'

/-- Where it does not start with whitespace, an item is in front. -/
theorem Remaining.item {items : List Item} {session : Session} {a : UInt8} {bytes : List UInt8}
    (h : Remaining items session (a::bytes)) (ha : netIsWhitespace a=false) :
    ∃ item∈items, ∃ items', (∀ item'∈items',item'∈items) ∧
      a::bytes=item.text++0x0a::encode items' := by
  obtain ⟨items',hmem,hitems⟩ := h
  rw [dropWhile_of_blanks (blanks_cons_of_not ha bytes)] at hitems
  cases items' with
  | nil => cases hitems
  | cons item items' =>
    rw [List.forall_mem_cons] at hmem
    exact ⟨item,hmem.1,items',hmem.2,hitems.trans (encode_cons item items')⟩

/-- What remains of an encoded stream is settled. -/
theorem Remaining.settled {build : Build} {items : List Item} (hwf : ∀ item∈items,item.WellFormed)
    {session : Session} {bytes : List UInt8} (h : Remaining items session bytes) :
    (grammar build).Settled bytes := by
  cases bytes with
  | nil => exact fun p z hp he => absurd (List.append_eq_nil_iff.mp he.symm).1 hp
  | cons a bytes =>
    cases ha : netIsWhitespace a with
    | true => exact Grammar.settled_of_sep ha bytes
    | false =>
      obtain ⟨item,hmem,items',hitems,he⟩ := h.item ha
      rw [he]
      exact settled_of_not_mixedRun (not_mixedRun_item (hwf item hmem)
        (blanks_encode fun item' hm => hwf item' (hitems item' hm)))

/-- Behind a command of an encoded stream some items remain. -/
theorem Remaining.step {build : Build} (hsize : build.featureSize=true)
    (hoffset : build.featureOffset=true) {items : List Item} (hwf : ∀ item∈items,item.WellFormed)
    {session : Session} (session' : Session) {bytes : List UInt8} (h : Remaining items session bytes)
    (hne : bytes≠[]) {c : Command} {n : ℕ} (hscan : scan build bytes=.item c n) :
    Remaining items session' ((grammar build).rest bytes n) := by
  cases bytes with
  | nil => exact absurd rfl hne
  | cons a bytes =>
    cases ha : netIsWhitespace a with
    | true =>
      obtain ⟨items',hmem,hitems⟩ := h
      rw [scan_whitespace build ha] at hscan
      cases hscan
      refine ⟨items',hmem,?_⟩
      rw [←hitems]
      exact List.dropWhile_idempotent netIsWhitespace (a::bytes)
    | false =>
      obtain ⟨item,hmem,items',hitems,he⟩ := h.item ha
      have hrest := blanks_encode fun item' hm => hwf item' (hitems item' hm)
      rw [he,scan_item hsize hoffset (hwf item hmem) hrest] at hscan
      cases hscan
      refine ⟨items',hitems,?_⟩
      rw [he,rest_item build item hrest]
      exact dropWhile_of_blanks hrest

/-- Every position of an encoded stream is one of its items or a line end: no
prefix of the stream is misunderstood. -/
theorem guards_encode {env : NetEnv} (hsize : env.build.featureSize=true)
    (hoffset : env.build.featureOffset=true) {items : List Item}
    (hwf : ∀ item∈items,item.WellFormed) :
    Grammar.Guards (grammar env.build) (consumer env) (Remaining items) where
  settled _ _ h := h.settled hwf
  step _ session' _ _ _ h hne hscan _ := h.step hsize hoffset hwf session' hne hscan
  undrop session bytes h := by
    obtain ⟨items',hmem,hitems⟩ := h
    refine ⟨items',hmem,hitems ▸ (List.dropWhile_idempotent netIsWhitespace bytes).symm⟩

/-- Bytes that are left pending inside an encoded stream are a proper part of
one of its items. -/
theorem pending_length_lt {env : NetEnv} (hsize : env.build.featureSize=true)
    (hoffset : env.build.featureOffset=true) {items : List Item}
    (hwf : ∀ item∈items,item.WellFormed) {session : Session} {pending back : List UInt8}
    (hne : pending≠[]) (hwait : scan env.build pending=.wait)
    (h : Remaining items session (pending++back)) :
    ∃ item∈items,pending.length < item.bytes.length := by
  cases pending with
  | nil => exact absurd rfl hne
  | cons a pending =>
    have ha : netIsWhitespace a=false := by
      cases hw : netIsWhitespace a with
      | false => rfl
      | true =>
        rw [scan_whitespace env.build hw] at hwait
        cases hwait
    rw [List.cons_append] at h
    obtain ⟨item,hmem,items',hitems,he⟩ := h.item ha
    refine ⟨item,hmem,?_⟩
    by_contra hge
    -- otherwise the whole item is pending, and is not waited for
    have hbytes : item.text++0x0a::encode items'=item.bytes++encode items' := by
      rw [Item.bytes,List.append_assoc,List.singleton_append]
    have hwhole : item.bytes<+:a::pending := by
      refine List.prefix_of_prefix_length_le (List.prefix_append _ (encode items')) ?_ (by omega)
      rw [←hbytes,←he]
      exact List.prefix_append (a::pending) back
    obtain ⟨rest,hrest⟩ := hwhole
    have hcut : encode items'=rest++back := by
      rw [hbytes,←List.cons_append,←hrest,List.append_assoc] at he
      exact (List.append_cancel_left he).symm
    have htail := blanks_encode fun item' hm => hwf item' (hitems item' hm)
    rw [hcut] at htail
    have hzero : blanks rest=0 := by
      cases rest with
      | nil => rfl
      | cons b rest => exact (blanks_of_append (by rw [htail]; exact Nat.succ_pos _)).trans htail
    rw [←hrest,Item.bytes,List.append_assoc,List.singleton_append,
      scan_item hsize hoffset (hwf item hmem) hzero] at hwait
    cases hwait

end Shoreline.ItemText
