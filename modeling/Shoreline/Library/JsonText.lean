import Mathlib.Data.Nat.Digits.Lemmas
import Mathlib.Tactic.Common

/-!
# Reading objects of numbers

A reader for the part of JSON in which a value is a natural number or an object.
A scanner cuts a text into tokens, one character after the other, and a stack of
open objects is built from the tokens. Names have no escapes in them.
-/

namespace JsonText

/-- A value. -/
inductive Json where
  | number (n : ℕ)
  | object (fields : List (List UInt8×Json))

/-- A token. -/
inductive Token where
  | openBrace
  | closeBrace
  | colon
  | comma
  | name (chars : List UInt8)
  | number (n : ℕ)
  deriving DecidableEq

/-- Where the scanner is. -/
inductive Mode where
  /-- Between two tokens. -/
  | between
  /-- In a name, of which these characters are read. -/
  | inName (chars : List UInt8)
  /-- In a number, up to this value. -/
  | inNumber (n : ℕ)
  deriving DecidableEq

/-- The value of a decimal digit. -/
def digitValue (c : UInt8) : Option ℕ :=
  if 0x30≤c ∧ c≤0x39 then some (c.toNat-0x30) else none

/-- Whitespace. -/
def blank (c : UInt8) : Bool := c=0x20 || c=0x09 || c=0x0a || c=0x0d

/-- The token that a character of punctuation is. -/
def punctuation (c : UInt8) : Option Token :=
  if c=0x7b then some .openBrace
  else if c=0x7d then some .closeBrace
  else if c=0x3a then some .colon
  else if c=0x2c then some .comma
  else none

/-- A character outside of names and numbers. -/
def startToken (tokens : List Token) (c : UInt8) : Option (List Token×Mode) :=
  if blank c then some (tokens,.between)
  else if c=0x22 then some (tokens,.inName [])
  else
    match punctuation c,digitValue c with
    | some token,_ => some (tokens++[token],.between)
    | none,some d => some (tokens,.inNumber d)
    | none,none => none

/-- One character. A number has no zero in front, and a name no control
characters. -/
def scanChar (state : List Token×Mode) (c : UInt8) : Option (List Token×Mode) :=
  match state.2 with
  | .between => startToken state.1 c
  | .inName chars =>
    if c=0x22 then some (state.1++[.name chars],.between)
    else if c<0x20 ∨ c=0x5c then none
    else some (state.1,.inName (chars++[c]))
  | .inNumber n =>
    match digitValue c with
    | some d => if n=0 then none else some (state.1,.inNumber (n*10+d))
    | none => if c=0x22 then none else startToken (state.1++[.number n]) c

/-- All characters of a text, one after the other. -/
def scanText (state : List Token×Mode) (text : List UInt8) : Option (List Token×Mode) :=
  text.foldlM scanChar state

/-- The tokens of a text. -/
def tokensOf (text : List UInt8) : Option (List Token) :=
  match scanText ([],.between) text with
  | some (tokens,.between) => some tokens
  | some (tokens,.inNumber n) => some (tokens++[.number n])
  | _ => none

/-- An object that is being read: its fields so far. -/
structure Open where
  /-- The name that it is the value of, in the object around it. -/
  name : List UInt8
  /-- Its fields so far. -/
  fields : List (List UInt8×Json)

/-- What the next token has to be. -/
inductive Expecting where
  /-- The value of the whole text. -/
  | document
  /-- The first name of the innermost object, or its end. -/
  | firstName
  /-- A name behind a comma. -/
  | nextName
  /-- The colon behind a name. -/
  | colon (name : List UInt8)
  /-- The value of a name. -/
  | value (name : List UInt8)
  /-- A comma, or the end of the innermost object. -/
  | comma
  /-- Nothing. -/
  | done (value : Json)

/-- An object is closed: it becomes a field of the one around it. -/
def closeObject : List Open → Option (List Open×Expecting)
  | [] => none
  | [outer] => some ([],.done (.object outer.fields))
  | inner::outer::rest =>
    some ({outer with fields := outer.fields++[(inner.name,.object inner.fields)]}::rest,.comma)

/-- One token, with the innermost object first. -/
def readToken (state : List Open×Expecting) (token : Token) : Option (List Open×Expecting) :=
  match state.2,token with
  | .document,.number n => some (state.1,.done (.number n))
  | .document,.openBrace => some (⟨[],[]⟩::state.1,.firstName)
  | .firstName,.closeBrace => closeObject state.1
  | .firstName,.name chars => some (state.1,.colon chars)
  | .nextName,.name chars => some (state.1,.colon chars)
  | .colon name,.colon => some (state.1,.value name)
  | .value name,.openBrace => some (⟨name,[]⟩::state.1,.firstName)
  | .value name,.number n =>
    match state.1 with
    | [] => none
    | inner::rest => some ({inner with fields := inner.fields++[(name,.number n)]}::rest,.comma)
  | .comma,.comma => some (state.1,.nextName)
  | .comma,.closeBrace => closeObject state.1
  | _,_ => none

/-- The value that a text denotes. -/
def readJson (text : List UInt8) : Option Json :=
  (tokensOf text).bind fun tokens =>
    (tokens.foldlM readToken ([],.document)).bind fun state =>
      match state with
      | ([],.done value) => some value
      | _ => none

/-- A text is scanned behind another one. -/
theorem scanText_append (state : List Token×Mode) (first second : List UInt8) :
    scanText state (first++second)=(scanText state first).bind fun state => scanText state second := by
  rw [scanText,List.foldlM_append]
  rfl

/-- The character of a digit. -/
def digitCode (d : ℕ) : UInt8 := UInt8.ofNat (0x30+d)

/-- It has the value of the digit. -/
theorem digitValue_digitCode {d : ℕ} (h : d<10) : digitValue (digitCode d)=some d := by
  have hall : ∀ d<10,digitValue (digitCode d)=some d := by decide
  exact hall d h

/-- A digit starts a number. -/
theorem startToken_digitCode (tokens : List Token) {d : ℕ} (h : d<10) :
    startToken tokens (digitCode d)=some (tokens,.inNumber d) := by
  have hall : ∀ d<10,blank (digitCode d)=false ∧ digitCode d≠0x22 ∧ punctuation (digitCode d)=none := by
    decide
  obtain ⟨hblank,hquote,hpunctuation⟩ := hall d h
  rw [startToken,hblank,if_neg Bool.false_ne_true,if_neg hquote,hpunctuation,digitValue_digitCode h]

/-- A number in decimal digits. -/
def writeNumber (n : ℕ) : List UInt8 :=
  if n=0 then [digitCode 0] else ((Nat.digits 10 n).reverse).map digitCode

/-- A number of one digit. -/
theorem writeNumber_of_lt {n : ℕ} (h : n<10) : writeNumber n=[digitCode n] := by
  rw [writeNumber]
  split
  · rename_i hzero
    rw [hzero]
  · rename_i hzero
    rw [Nat.digits_of_lt 10 n hzero h]
    rfl

/-- The last digit of a longer number. -/
theorem writeNumber_of_le {n : ℕ} (h : 10≤n) :
    writeNumber n=writeNumber (n/10)++[digitCode (n%10)] := by
  rw [writeNumber,writeNumber,if_neg (by omega),if_neg (by omega),
    Nat.digits_def' (by omega) (by omega),List.reverse_cons,List.map_append]
  rfl

/-- A written number is scanned as the number, up to its end. -/
theorem scanText_writeNumber (tokens : List Token) (n : ℕ) :
    scanText (tokens,.between) (writeNumber n)=some (tokens,.inNumber n) := by
  induction n using Nat.strongRecOn with
  | ind n ih =>
    by_cases hlt : n<10
    · rw [writeNumber_of_lt hlt,scanText,List.foldlM_cons,scanChar,startToken_digitCode _ hlt]
      rfl
    · have hlast : scanChar (tokens,.inNumber (n/10)) (digitCode (n%10))=
          some (tokens,.inNumber (n/10*10+n%10)) := by
        rw [scanChar,digitValue_digitCode (Nat.mod_lt n (by omega))]
        exact if_neg (by omega)
      rw [writeNumber_of_le (not_lt.mp hlt),scanText_append,ih (n/10) (by omega),Option.bind_some,
        scanText,List.foldlM_cons,hlast,Nat.div_add_mod']
      rfl

/-- A text goes on behind a written number. -/
theorem scanText_number (tokens : List Token) (n : ℕ) (rest : List UInt8) :
    scanText (tokens,.between) (writeNumber n++rest)=scanText (tokens,.inNumber n) rest := by
  rw [scanText_append,scanText_writeNumber,Option.bind_some]

/-- A number below a power of ten is written with that many digits at most. -/
theorem length_writeNumber_le {n k : ℕ} (hk : 0<k) (h : n<10^k) : (writeNumber n).length≤k := by
  rw [writeNumber]
  split
  · exact hk
  · rw [List.length_map,List.length_reverse]
    exact (Nat.digits_length_le_iff (by omega) n).mpr h

end JsonText
