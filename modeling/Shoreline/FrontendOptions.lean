import Mathlib.Data.List.TakeWhile
import Shoreline.Errno
import Shoreline.Library.StringBlock

/-!
# Options of a frontend

A frontend is named together with its options in one string. The three
functions that take the string apart cut it by writing terminators over its
separators. Any text is decoded into keys and values so, and every written
list of options reaches the configure functions as it was written.
-/

namespace Shoreline.FrontendOptions

open StringBlock

/-- `','`. -/
def comma : UInt8 := 0x2c

/-- `'='`. -/
def equals : UInt8 := 0x3d

/-- `strlen`. -/
def strlen (block : List UInt8) (p : ℕ) : Option ℕ := length 0 block p

/-- `strchr` for a character other than the terminator. -/
def strchr (block : List UInt8) (p : ℕ) (c : UInt8) : Option (Option ℕ) := position 0 block p c

/-- `struct frontend_arg`. A table of arguments ends where the name is empty,
so the arguments in it have names. The function gets the string that its
argument points to, or no pointer; it is `none` where it crashes. -/
structure FrontendArg (σ : Type*) where
  name : List UInt8
  name_ne : name≠[]
  configure : σ → Option (List UInt8) → Option (ℤ×σ)

variable {σ : Type*}

/-- `frontend_spec_extract_name`: the pointer to the options, and the block. -/
def frontendSpecExtractName (block : List UInt8) (spec : ℕ) : Option (Option ℕ×List UInt8) :=
  match strchr block spec comma,strlen block spec with
  | some (some sep),some n => some (if sep+1<spec+n then some (sep+1) else none,block.set sep 0)
  | some none,some _ => some (none,block)
  | _,_ => none

/-- The loop of `frontend_configure_option` over the table. -/
def configureArg (front : σ) (option : List UInt8) (value : Option (List UInt8)) :
    List (FrontendArg σ) → Option (ℤ×σ)
  | [] => some (-ENOENT,front)
  | arg::args =>
    if option=arg.name then arg.configure front value else configureArg front option value args

/-- The cut of `frontend_configure_option`: the block and the pointer to the
value. -/
def cutValue (block : List UInt8) (option : ℕ) : Option (List UInt8×Option ℕ) :=
  match strchr block option equals,strchr block option comma,strlen block option with
  | some (some sep),some sepLimit,some n =>
    if sepLimit.all (sep<·) then
      some (block.set sep 0,if sep+1<option+n then some (sep+1) else none)
    else some (block,none)
  | some none,some _,some _ => some (block,none)
  | _,_,_ => none

/-- The string that a pointer to a value points to. -/
def valueText (block : List UInt8) : Option ℕ → Option (Option (List UInt8))
  | none => some none
  | some p => (textAt 0 block p).map some

/-- `frontend_configure_option`, with the block that it leaves behind. A
frontend without a table has no arguments. -/
def frontendConfigureOption (args : Option (List (FrontendArg σ))) (front : σ)
    (block : List UInt8) (option : ℕ) : Option (ℤ×σ×List UInt8) :=
  match cutValue block option with
  | none => none
  | some (block,value) =>
    match textAt 0 block option,valueText block value with
    | some key,some value =>
      (configureArg front key value (args.getD [])).map fun (err,front) => (err,front,block)
    | _,_ => none

/-- `frontend_configure` behind the computation of `limit`. -/
def configureLoop (args : Option (List (FrontendArg σ))) (limit : ℕ) (front : σ)
    (block : List UInt8) (options : ℕ) : Option (ℤ×σ) :=
  if options<limit then
    match _hsep : strchr block options comma with
    | none => none
    | some none =>
      -- the last option
      (frontendConfigureOption args front block options).map fun (err,front,_) => (err,front)
    | some (some sep) =>
      match frontendConfigureOption args front (block.set sep 0) options with
      | none => none
      | some (err,front,block) =>
        if err≠0 then some (err,front) else configureLoop args limit front block (sep+1)
  else some (0,front)
termination_by limit-options
decreasing_by
  have hle := le_of_position _hsep
  omega

/-- `frontend_configure`. -/
def frontendConfigure (args : Option (List (FrontendArg σ))) (front : σ) (block : List UInt8)
    (options : ℕ) : Option (ℤ×σ) :=
  match strlen block options with
  | none => none
  | some n => configureLoop args (options+n) front block options

/-- What `main` does with the specification of a frontend up to its start: a
frontend without a table or without options is not configured. -/
def configureSpec (args : Option (List (FrontendArg σ))) (front : σ) (block : List UInt8)
    (spec : ℕ) : Option (ℤ×σ) :=
  match frontendSpecExtractName block spec with
  | none => none
  | some (none,_) => some (0,front)
  | some (some options,block) =>
    if args.isSome then frontendConfigure args front block options else some (0,front)

/-- A written option. -/
structure WrittenOption where
  key : List UInt8
  /-- Without it only the key is written. -/
  value : Option (List UInt8)
  key_ne : key≠[]
  key_plain : ∀ c∈key,c≠0 ∧ c≠comma ∧ c≠equals
  value_ne : ∀ text∈value,text≠[]
  value_plain : ∀ text∈value,∀ c∈text,c≠0 ∧ c≠comma

/-- A written name. -/
structure WrittenName where
  text : List UInt8
  plain : ∀ c∈text,c≠0 ∧ c≠comma

/-- An option as it is written. -/
def WrittenOption.text (o : WrittenOption) : List UInt8 :=
  match o.value with
  | none => o.key
  | some value => o.key++equals::value

/-- Options behind one another. -/
def optionsText : List WrittenOption → List UInt8
  | [] => []
  | [o] => o.text
  | o::os => o.text++comma::optionsText os

/-- The string `name,key1=value1,key2,...` in memory. -/
def specBlock (name : WrittenName) (options : List WrittenOption) : List UInt8 :=
  name.text++options.flatMap (fun o => comma::o.text)++[0]

/-- What one option asks for: a call of the argument of its name, with its
value. -/
def applyOption (args : Option (List (FrontendArg σ))) (front : σ) (o : WrittenOption) :
    Option (ℤ×σ) :=
  match (args.getD []).find? (·.name=o.key) with
  | none => some (-ENOENT,front)
  | some arg => arg.configure front o.value

/-- What the options ask for, up to the first error. -/
def applyOptions (args : Option (List (FrontendArg σ))) : σ → List WrittenOption → Option (ℤ×σ)
  | front,[] => some (0,front)
  | front,o::os =>
    match applyOption args front o with
    | none => none
    | some (err,front) => if err=0 then applyOptions args front os else some (err,front)

/-- Every option has its argument, and the calls return zero one after
another. -/
def AllSucceed (args : Option (List (FrontendArg σ))) : σ → List WrittenOption → σ → Prop
  | front,[],front' => front'=front
  | front,o::os,front' => ∃ arg next, (args.getD []).find? (·.name=o.key)=some arg ∧
      arg.configure front o.value=some (0,next) ∧ AllSucceed args next os front'

/-- An option as it is decoded, from any text. -/
structure Decoded where
  key : List UInt8
  /-- Nothing where the text has no `=`, and where nothing is behind it. -/
  value : Option (List UInt8)
  deriving DecidableEq, Repr

/-- The key and the value of an option. -/
def decode (piece : List UInt8) : Decoded :=
  match piece.dropWhile (·≠equals) with
  | [] => ⟨piece,none⟩
  | _::value => ⟨piece.takeWhile (·≠equals),if value=[] then none else some value⟩

/-- The texts between the commas. There is none behind a comma at the end. -/
def pieces : List UInt8 → List (List UInt8)
  | [] => []
  | c::text =>
    if c=comma then []::pieces text
    else
      match pieces text with
      | [] => [[c]]
      | piece::rest => (c::piece)::rest

/-- The call that a decoded option asks for. -/
def callArg (args : Option (List (FrontendArg σ))) (front : σ) (d : Decoded) : Option (ℤ×σ) :=
  match (args.getD []).find? (·.name=d.key) with
  | none => some (-ENOENT,front)
  | some arg => arg.configure front d.value

/-- The calls that decoded options ask for, up to the first error. -/
def callArgs (args : Option (List (FrontendArg σ))) : σ → List Decoded → Option (ℤ×σ)
  | front,[] => some (0,front)
  | front,d::ds =>
    match callArg args front d with
    | none => none
    | some (err,front) => if err=0 then callArgs args front ds else some (err,front)

/-- An option contains neither terminators nor separators. -/
theorem WrittenOption.text_plain (o : WrittenOption) : ∀ c∈o.text,c≠0 ∧ c≠comma := by
  intro c hc
  have hkey : c∈o.key → c≠0 ∧ c≠comma := fun h => ⟨(o.key_plain c h).1,(o.key_plain c h).2.1⟩
  rw [WrittenOption.text] at hc
  split at hc
  · exact hkey hc
  · next value hvalue =>
      rw [List.mem_append,List.mem_cons] at hc
      obtain hc | rfl | hc := hc
      · exact hkey hc
      · exact ⟨by decide,by decide⟩
      · exact o.value_plain value hvalue c hc

/-- It contains no terminators. -/
theorem WrittenOption.zero_notMem (o : WrittenOption) : 0∉o.text :=
  fun h => (o.text_plain 0 h).1 rfl

/-- It contains no commas. -/
theorem WrittenOption.comma_notMem (o : WrittenOption) : comma∉o.text :=
  fun h => (o.text_plain comma h).2 rfl

/-- An option is not empty. -/
theorem WrittenOption.text_ne_nil (o : WrittenOption) : o.text≠[] := by
  rw [WrittenOption.text]
  split
  · exact o.key_ne
  · exact List.append_ne_nil_of_left_ne_nil o.key_ne _

/-- Options behind one another are not empty. -/
theorem optionsText_ne_nil (o : WrittenOption) (os : List WrittenOption) :
    optionsText (o::os)≠[] := by
  cases os with
  | nil => exact o.text_ne_nil
  | cons o' os => exact List.append_ne_nil_of_left_ne_nil o.text_ne_nil _

/-- They contain no terminators. -/
theorem zero_notMem_optionsText (os : List WrittenOption) : 0∉optionsText os := by
  induction os with
  | nil => exact List.not_mem_nil
  | cons o os ih =>
    cases os with
    | nil => exact o.zero_notMem
    | cons o' os =>
      rw [optionsText,List.mem_append,List.mem_cons]
      · rintro (h | h | h)
        · exact o.zero_notMem h
        · exact absurd h (by decide)
        · exact ih h
      · exact List.cons_ne_nil o' os

/-- A comma in front of every option puts one between them. -/
theorem flatMap_eq_optionsText (o : WrittenOption) (os : List WrittenOption) :
    (o::os).flatMap (fun o => comma::o.text)=comma::optionsText (o::os) := by
  induction os generalizing o with
  | nil => simp only [List.flatMap_cons,List.flatMap_nil,List.append_nil,optionsText]
  | cons o' os ih =>
    rw [List.flatMap_cons,ih o']
    rfl

/-- The loop over the table calls the first argument of the name. -/
theorem configureArg_eq (front : σ) (option : List UInt8) (value : Option (List UInt8))
    (args : List (FrontendArg σ)) : configureArg front option value args=
      match args.find? (·.name=option) with
      | none => some (-ENOENT,front)
      | some arg => arg.configure front value := by
  induction args with
  | nil => rfl
  | cons arg args ih =>
    rw [configureArg]
    by_cases h : option=arg.name
    · simp only [h,if_true,List.find?_cons_of_pos,decide_true]
    · simp only [if_neg h,List.find?_cons,decide_eq_false (Ne.symm h),ih]

/-- A text without an equals sign is a key. -/
theorem decode_of_notMem {piece : List UInt8} (h : equals∉piece) : decode piece=⟨piece,none⟩ := by
  have hdrop : piece.dropWhile (·≠equals)=[] := by
    rw [List.dropWhile_eq_nil_iff]
    intro c hc
    exact decide_eq_true (ne_of_mem_of_not_mem hc h)
  rw [decode,hdrop]

/-- A text is cut at its first equals sign. -/
theorem decode_append {key value : List UInt8} (h : equals∉key) :
    decode (key++equals::value)=⟨key,if value=[] then none else some value⟩ := by
  have hkey : ∀ c∈key,decide (c≠equals)=true :=
    fun c hc => decide_eq_true (ne_of_mem_of_not_mem hc h)
  have hdrop : (key++equals::value).dropWhile (·≠equals)=equals::value := by
    rw [List.dropWhile_append_of_pos hkey,List.dropWhile_cons_of_neg (by simp)]
  have htake : (key++equals::value).takeWhile (·≠equals)=key := by
    rw [List.takeWhile_append_of_pos hkey,List.takeWhile_cons_of_neg (by simp),List.append_nil]
  rw [decode,hdrop,htake]

/-- A text without a comma is one piece. -/
theorem pieces_of_notMem {text : List UInt8} (hne : text≠[]) (h : comma∉text) :
    pieces text=[text] := by
  induction text with
  | nil => exact absurd rfl hne
  | cons c text ih =>
    rw [List.mem_cons,not_or] at h
    rw [pieces,if_neg (Ne.symm h.1)]
    cases text with
    | nil => rfl
    | cons c' text => rw [ih (List.cons_ne_nil c' text) h.2]

/-- A text is cut at its first comma. -/
theorem pieces_append {piece : List UInt8} (rest : List UInt8) (h : comma∉piece) :
    pieces (piece++comma::rest)=piece::pieces rest := by
  induction piece with
  | nil => rw [List.nil_append,pieces,if_pos rfl]
  | cons c piece ih =>
    rw [List.mem_cons,not_or] at h
    rw [List.cons_append,pieces,if_neg (Ne.symm h.1),ih h.2]

/-- A text without an equals sign is not cut. -/
theorem cutValue_of_notMem (before after : List UInt8) {piece : List UInt8} (hzero : 0∉piece)
    (hcomma : comma∉piece) (h : equals∉piece) :
    cutValue (before++(piece++0::after)) before.length=
      some (before++(piece++0::after),none) := by
  rw [cutValue,strchr,position_of_notMem before after hzero h,strchr,
    position_of_notMem before after hzero hcomma,strlen,length_append before after hzero]

/-- A text with an equals sign is cut behind its key. -/
theorem cutValue_append (before after : List UInt8) {key value : List UInt8}
    (hzero : 0∉key++equals::value) (hcomma : comma∉key++equals::value) (h : equals∉key) :
    cutValue (before++(key++equals::value++0::after)) before.length=
      some ((before++key)++0::(value++0::after),
        if value=[] then none else some (before.length+key.length+1)) := by
  have hcut : (before++(key++equals::value++0::after)).set (before.length+key.length) 0=
      (before++key)++0::(value++0::after) := by
    have hset := set_append (before++key) (value++0::after) equals 0
    rw [List.length_append] at hset
    rw [← hset]
    simp only [List.append_assoc,List.cons_append]
  have hbehind : before.length+key.length+1<before.length+(key++equals::value).length ↔
      value≠[] := by
    rw [List.length_append,List.length_cons,← List.length_pos_iff]
    omega
  rw [cutValue,strchr,position_of_cons before after hzero h,strchr,
    position_of_notMem before after hzero hcomma,strlen,length_append before after hzero]
  dsimp only [Option.all_none]
  rw [if_pos rfl,hcut]
  by_cases hvalue : value=[]
  · rw [if_neg (mt hbehind.mp (not_not.mpr hvalue)),if_pos hvalue]
  · rw [if_pos (hbehind.mpr hvalue),if_neg hvalue]

/-- One option is decoded, and its cut stays in front of the terminator behind it. -/
theorem frontendConfigureOption_eq (args : Option (List (FrontendArg σ))) (front : σ)
    {piece : List UInt8} (hzero : 0∉piece) (hcomma : comma∉piece) (before after : List UInt8) :
    ∃ cut : List UInt8,cut.length=before.length+piece.length ∧
      frontendConfigureOption args front (before++(piece++0::after)) before.length=
        (callArg args front (decode piece)).map
          fun (err,front) => (err,front,cut++0::after) := by
  by_cases hequals : equals∈piece
  · obtain ⟨key,value,rfl,hkey⟩ := List.eq_append_cons_of_mem hequals
    refine ⟨before++key++0::value,?_,?_⟩
    · simp only [List.length_append,List.length_cons]
      omega
    · have hzeroKey : 0∉key := fun h => hzero (List.mem_append_left _ h)
      have hzeroValue : 0∉value :=
        fun h => hzero (List.mem_append_right _ (List.mem_cons_of_mem _ h))
      have hread : textAt 0 ((before++key)++0::(value++0::after)) before.length=some key := by
        rw [List.append_assoc]
        exact textAt_append before (value++0::after) hzeroKey
      have hreadValue : textAt 0 ((before++key)++0::(value++0::after))
          (before.length+key.length+1)=some value := by
        have hread := textAt_append (before++key++[0]) after hzeroValue
        simpa only [List.length_append,List.length_singleton,List.append_assoc,List.cons_append,
          List.nil_append,← Nat.add_assoc] using hread
      have hvalue : valueText ((before++key)++0::(value++0::after))
          (if value=[] then none else some (before.length+key.length+1))=
            some (if value=[] then none else some value) := by
        split
        · rfl
        · rw [valueText,hreadValue,Option.map_some]
      rw [frontendConfigureOption,cutValue_append before after hzero hcomma hkey]
      dsimp only
      rw [hread,hvalue]
      dsimp only
      rw [configureArg_eq,callArg,decode_append hkey,List.append_assoc _ (0::value),
        List.cons_append]
  · refine ⟨before++piece,List.length_append,?_⟩
    rw [frontendConfigureOption,cutValue_of_notMem before after hzero hcomma hequals]
    dsimp only
    rw [textAt_append before after hzero,valueText]
    dsimp only
    rw [configureArg_eq,callArg,decode_of_notMem hequals,List.append_assoc]

/-- A round of the loop in front of a comma: the option is decoded, and the loop
goes on behind its cut. -/
theorem configureLoop_comma (args : Option (List (FrontendArg σ))) (front : σ)
    {piece rest : List UInt8} (hzero : 0∉piece++comma::rest) (hpiece : comma∉piece)
    (before after : List UInt8) {limit : ℕ} (hlimit : before.length<limit) :
    ∃ cut : List UInt8,cut.length=before.length+piece.length+1 ∧
      configureLoop args limit front (before++(piece++comma::rest++0::after)) before.length=
        match callArg args front (decode piece) with
        | none => none
        | some (err,next) =>
          if err≠0 then some (err,next)
          else configureLoop args limit next (cut++(rest++0::after)) cut.length := by
  have hzeroPiece : 0∉piece := fun h => hzero (List.mem_append_left _ h)
  obtain ⟨cut,hcut,hoption⟩ :=
    frontendConfigureOption_eq args front hzeroPiece hpiece before (rest++0::after)
  have hsep : strchr (before++(piece++comma::rest++0::after)) before.length comma=
      some (some (before.length+piece.length)) := position_of_cons before after hzero hpiece
  have hset : (before++(piece++comma::rest++0::after)).set (before.length+piece.length) 0=
      before++(piece++0::(rest++0::after)) := by
    have hset := set_append (before++piece) (rest++0::after) comma 0
    rw [List.length_append] at hset
    simpa only [List.append_assoc,List.cons_append] using hset
  -- the cut option and its terminator are behind the pointer
  have hlength : (cut++[(0 : UInt8)]).length=before.length+piece.length+1 := by
    rw [List.length_append,List.length_singleton,hcut]
  refine ⟨cut++[0],hlength,?_⟩
  rw [configureLoop,if_pos hlimit,hlength]
  split
  · next h => rw [hsep] at h; cases h
  · next h => rw [hsep] at h; cases h
  · next sep h =>
      rw [hsep] at h
      cases h
      rw [hset,hoption,List.append_assoc]
      cases callArg args front (decode piece) <;> rfl

/-- The last round of the loop, without a comma. -/
theorem configureLoop_last (args : Option (List (FrontendArg σ))) (front : σ) {text : List UInt8}
    (hzero : 0∉text) (hcomma : comma∉text) (before after : List UInt8) {limit : ℕ}
    (hlimit : before.length<limit) :
    configureLoop args limit front (before++(text++0::after)) before.length=
      callArg args front (decode text) := by
  obtain ⟨cut,-,hoption⟩ := frontendConfigureOption_eq args front hzero hcomma before after
  have hsep : strchr (before++(text++0::after)) before.length comma=some none :=
    position_of_notMem before after hzero hcomma
  rw [configureLoop,if_pos hlimit]
  split
  · next h => rw [hsep] at h; cases h
  · rw [hoption]
    cases callArg args front (decode text) <;> rfl
  · next h => rw [hsep] at h; cases h

/-- The loop decodes every text. -/
theorem configureLoop_eq (args : Option (List (FrontendArg σ))) (front : σ) {text : List UInt8}
    (hzero : 0∉text) (before after : List UInt8) :
    configureLoop args (before.length+text.length) front (before++(text++0::after))
      before.length=callArgs args front ((pieces text).map decode) := by
  -- the text behind a comma is shorter
  induction hlength : text.length using Nat.strongRecOn generalizing text front before with
  | ind n ih =>
    rw [← hlength]
    by_cases hne : text=[]
    · rw [configureLoop,if_neg (by rw [hne,List.length_nil]; omega),hne]
      rfl
    · have hlimit : before.length<before.length+text.length :=
        Nat.lt_add_of_pos_right (List.length_pos_iff.mpr hne)
      by_cases hmem : comma∈text
      · obtain ⟨piece,rest,rfl,hpiece⟩ := List.eq_append_cons_of_mem hmem
        have hzeroRest : 0∉rest :=
          fun h => hzero (List.mem_append_right _ (List.mem_cons_of_mem _ h))
        obtain ⟨cut,hcut,hround⟩ :=
          configureLoop_comma args front hzero hpiece before after hlimit
        rw [hround,pieces_append rest hpiece,List.map_cons,callArgs]
        cases callArg args front (decode piece) with
        | none => rfl
        | some out =>
          obtain ⟨err,next⟩ := out
          dsimp only
          by_cases herr : err=0
          · have hshort : rest.length<n := by
              rw [← hlength,List.length_append,List.length_cons]
              omega
            have hrest := ih rest.length hshort next hzeroRest cut rfl
            have hsame : cut.length+rest.length=before.length+(piece++comma::rest).length := by
              rw [hcut,List.length_append,List.length_cons]
              omega
            rw [hsame] at hrest
            rw [if_neg (not_not.mpr herr),if_pos herr,hrest]
          · rw [if_pos herr,if_neg herr]
      · rw [configureLoop_last args front hzero hmem before after hlimit,
          pieces_of_notMem hne hmem,List.map_singleton,callArgs]
        cases callArg args front (decode text) with
        | none => rfl
        | some out =>
          obtain ⟨err,next⟩ := out
          dsimp only [callArgs]
          split
          · next herr => rw [herr]
          · rfl

/-- A frontend is configured with the options of any text. -/
theorem frontendConfigure_eq (args : Option (List (FrontendArg σ))) (front : σ)
    {text : List UInt8} (hzero : 0∉text) (before after : List UInt8) :
    frontendConfigure args front (before++(text++0::after)) before.length=
      callArgs args front ((pieces text).map decode) := by
  rw [frontendConfigure,strlen,length_append before after hzero]
  exact configureLoop_eq args front hzero before after

/-- What every argument keeps, the calls of options keep. -/
theorem callArgs_keeps {args : List (FrontendArg σ)} {inv : σ → Prop}
    (hargs : ∀ arg∈args,∀ front value err next,inv front →
      arg.configure front value=some (err,next) → inv next)
    {ds : List Decoded} {front next : σ} {err : ℤ} (hfront : inv front)
    (h : callArgs (some args) front ds=some (err,next)) : inv next := by
  induction ds generalizing front with
  | nil =>
    cases h
    exact hfront
  | cons d ds ih =>
    rw [callArgs] at h
    cases hcall : callArg (some args) front d with
    | none =>
      rw [hcall] at h
      cases h
    | some out =>
      obtain ⟨err',next'⟩ := out
      have hnext : inv next' := by
        rw [callArg,Option.getD_some] at hcall
        split at hcall
        · cases hcall
          exact hfront
        · next arg hfind =>
            exact hargs arg (List.mem_of_find?_eq_some hfind) front d.value err' next' hfront hcall
      rw [hcall] at h
      dsimp only at h
      split at h
      · exact ih hnext h
      · cases h
        exact hnext

/-- What every argument keeps, `main` keeps when it configures a frontend, for
every specification in memory. -/
theorem configureSpec_keeps {args : List (FrontendArg σ)} {inv : σ → Prop}
    (hargs : ∀ arg∈args,∀ front value err next,inv front →
      arg.configure front value=some (err,next) → inv next)
    {front next : σ} {block : List UInt8} {spec : ℕ} {err : ℤ} (hfront : inv front)
    (h : configureSpec (some args) front block spec=some (err,next)) : inv next := by
  rw [configureSpec] at h
  split at h
  · cases h
  · cases h
    exact hfront
  · next options block _ =>
      rw [Option.isSome_some,if_pos rfl] at h
      cases hlength : strlen block options with
      | none =>
        rw [frontendConfigure,hlength] at h
        cases h
      | some n =>
        rw [strlen,length,Option.map_eq_some_iff] at hlength
        obtain ⟨text,htext,-⟩ := hlength
        obtain ⟨hzero,before,after,rfl,rfl⟩ := eq_append_of_textAt htext
        rw [frontendConfigure_eq (some args) front hzero] at h
        exact callArgs_keeps hargs hfront h

/-- A written option is decoded as it was written. -/
theorem decode_text (o : WrittenOption) : decode o.text=⟨o.key,o.value⟩ := by
  have hequals : equals∉o.key := fun h => (o.key_plain equals h).2.2 rfl
  rw [WrittenOption.text]
  split
  · next hvalue => rw [decode_of_notMem hequals,hvalue]
  · next value hvalue => rw [decode_append hequals,if_neg (o.value_ne value hvalue),hvalue]

/-- Written options are cut where they were put together. -/
theorem pieces_optionsText (os : List WrittenOption) :
    pieces (optionsText os)=os.map WrittenOption.text := by
  induction os with
  | nil => rfl
  | cons o os ih =>
    cases os with
    | nil => exact pieces_of_notMem o.text_ne_nil o.comma_notMem
    | cons o' os =>
      have htext : optionsText (o::o'::os)=o.text++comma::optionsText (o'::os) := rfl
      rw [htext,pieces_append _ o.comma_notMem,ih]
      rfl

/-- What written options ask for is what they are decoded to. -/
theorem callArgs_written (args : Option (List (FrontendArg σ))) (front : σ)
    (os : List WrittenOption) :
    callArgs args front ((pieces (optionsText os)).map decode)=applyOptions args front os := by
  rw [pieces_optionsText,List.map_map]
  induction os generalizing front with
  | nil => rfl
  | cons o os ih =>
    rw [List.map_cons,callArgs,applyOptions,Function.comp_apply,decode_text]
    change (match applyOption args front o with
      | none => none
      | some (err,front) =>
        if err=0 then callArgs args front (os.map (decode∘WrittenOption.text))
        else some (err,front))=_
    cases applyOption args front o with
    | none => rfl
    | some out =>
      dsimp only
      rw [ih]

/-- Success means that every call succeeded. -/
theorem applyOptions_eq_zero_iff (args : Option (List (FrontendArg σ))) (front front' : σ)
    (options : List WrittenOption) :
    applyOptions args front options=some (0,front') ↔ AllSucceed args front options front' := by
  induction options generalizing front with
  | nil =>
    rw [applyOptions,AllSucceed,Option.some.injEq,Prod.mk.injEq,eq_comm (a := front')]
    exact and_iff_right rfl
  | cons o os ih =>
    rw [applyOptions,AllSucceed,applyOption]
    cases hfind : (args.getD []).find? (·.name=o.key) with
    | none => simp [ENOENT]
    | some arg =>
      dsimp only
      cases hcall : arg.configure front o.value with
      | none => simp [hcall]
      | some out =>
        obtain ⟨err,next⟩ := out
        dsimp only
        by_cases herr : err=0
        · rw [if_pos herr,ih next]
          simp [hcall,herr]
        · simp [hcall,herr]

/-- A name without options is left alone. -/
theorem frontendSpecExtractName_nil (name : WrittenName) :
    frontendSpecExtractName (specBlock name []) 0=some (none,specBlock name []) := by
  have hzero : 0∉name.text := fun h => (name.plain 0 h).1 rfl
  have hcomma : comma∉name.text := fun h => (name.plain comma h).2 rfl
  have hblock : specBlock name []=[]++(name.text++0::[]) := by
    simp only [specBlock,List.flatMap_nil,List.append_nil,List.nil_append]
  have hsep : strchr ([]++(name.text++0::[])) 0 comma=some none :=
    position_of_notMem [] [] hzero hcomma
  have hlength : strlen ([]++(name.text++0::[])) 0=some name.text.length :=
    length_append [] [] hzero
  rw [hblock,frontendSpecExtractName,hsep,hlength]

/-- A name is cut off the options behind it. -/
theorem frontendSpecExtractName_cons (name : WrittenName) (o : WrittenOption)
    (os : List WrittenOption) :
    frontendSpecExtractName (specBlock name (o::os)) 0=
      some (some (name.text.length+1),name.text++0::(optionsText (o::os)++0::[])) := by
  have hcomma : comma∉name.text := fun h => (name.plain comma h).2 rfl
  have hzero : 0∉name.text++comma::optionsText (o::os) := by
    rw [List.mem_append,List.mem_cons]
    rintro (h | h | h)
    · exact (name.plain 0 h).1 rfl
    · exact absurd h (by decide)
    · exact zero_notMem_optionsText (o::os) h
  have hblock : specBlock name (o::os)=
      []++((name.text++comma::optionsText (o::os))++0::[]) := by
    rw [specBlock,flatMap_eq_optionsText,List.nil_append]
  have hsep : strchr ([]++((name.text++comma::optionsText (o::os))++0::[])) 0 comma=
      some (some (0+name.text.length)) := position_of_cons [] [] hzero hcomma
  have hlength : strlen ([]++((name.text++comma::optionsText (o::os))++0::[])) 0=
      some (name.text++comma::optionsText (o::os)).length := length_append [] [] hzero
  have hset : ([]++((name.text++comma::optionsText (o::os))++0::[])).set (0+name.text.length) 0=
      name.text++0::(optionsText (o::os)++0::[]) := by
    rw [Nat.zero_add,List.nil_append,List.append_assoc,List.cons_append]
    exact set_append name.text (optionsText (o::os)++0::[]) comma 0
  have hlong : 0+name.text.length+1<0+(name.text++comma::optionsText (o::os)).length := by
    have hpos := List.length_pos_iff.mpr (optionsText_ne_nil o os)
    rw [List.length_append,List.length_cons]
    omega
  rw [hblock,frontendSpecExtractName,hsep,hlength]
  dsimp only
  rw [if_pos hlong,hset,Nat.zero_add]

/-- The name stands alone in front of the options. -/
theorem textAt_name (name : WrittenName) (after : List UInt8) :
    textAt 0 (name.text++0::after) 0=some name.text :=
  textAt_append [] after fun h => (name.plain 0 h).1 rfl

/-- The options behind the name are decoded as they were written. -/
theorem frontendConfigure_written (args : Option (List (FrontendArg σ))) (front : σ)
    (name : WrittenName) (o : WrittenOption) (os : List WrittenOption) :
    frontendConfigure args front (name.text++0::(optionsText (o::os)++0::[]))
      (name.text.length+1)=applyOptions args front (o::os) := by
  have hblock : name.text++0::(optionsText (o::os)++0::[])=
      (name.text++[0])++(optionsText (o::os)++0::[]) := by
    rw [List.append_assoc,List.singleton_append]
  have hptr : name.text.length+1=(name.text++[(0 : UInt8)]).length := by
    rw [List.length_append,List.length_singleton]
  rw [hblock,hptr,frontendConfigure_eq args front (zero_notMem_optionsText (o::os)) _ [],
    callArgs_written]

/-- `main` configures a frontend that has a table with the options that were
written behind its name. -/
theorem configureSpec_written (args : List (FrontendArg σ)) (front : σ) (name : WrittenName)
    (options : List WrittenOption) :
    configureSpec (some args) front (specBlock name options) 0=
      applyOptions (some args) front options := by
  cases options with
  | nil =>
    rw [configureSpec,frontendSpecExtractName_nil]
    rfl
  | cons o os =>
    rw [configureSpec,frontendSpecExtractName_cons]
    exact frontendConfigure_written (some args) front name o os

/-- The specification of a frontend is split into its name and its options,
and the options are decoded exactly: the arguments are called in the written
order with the written values up to the first error, which is returned, an
unknown key is `-ENOENT`, and zero means that all calls returned zero. -/
theorem decoded_exactly (args : Option (List (FrontendArg σ))) (front : σ) (name : WrittenName)
    (options : List WrittenOption) :
    ∃ ptr block,frontendSpecExtractName (specBlock name options) 0=some (ptr,block) ∧
      textAt 0 block 0=some name.text ∧ (ptr=none ↔ options=[]) ∧
      (∀ p,ptr=some p →
        frontendConfigure args front block p=applyOptions args front options) ∧
      ∀ front',applyOptions args front options=some (0,front') ↔
        AllSucceed args front options front' := by
  cases options with
  | nil =>
    refine ⟨none,specBlock name [],frontendSpecExtractName_nil name,?_,by simp,?_,?_⟩
    · rw [specBlock,List.flatMap_nil,List.append_nil]
      exact textAt_name name []
    · intro p hp
      cases hp
    · exact fun front' => applyOptions_eq_zero_iff args front front' []
  | cons o os =>
    refine ⟨_,_,frontendSpecExtractName_cons name o os,textAt_name name _,by simp,?_,?_⟩
    · intro p hp
      cases hp
      exact frontendConfigure_written args front name o os
    · exact fun front' => applyOptions_eq_zero_iff args front front' (o::os)

end Shoreline.FrontendOptions
