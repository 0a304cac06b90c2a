import Shoreline.FrontendTables
import Shoreline.Library.JsonText
import Shoreline.RecentRates

/-!
# The statistics interface

The statistics frontend answers every connection by one line of JSON. The main
loop copies its statistics to the frontend, one member after the other, and the
thread of the frontend adds up the averages and formats the line in the meantime;
a lock is between them.
-/

namespace Shoreline.StatisticsApi

open Framebuffer NetConnection StateMachine Traffic Shoreline.Units JsonText FrontendTables

/-- The numbers of an answer. -/
structure Report where
  numBytes : UInt64
  numPixels : UInt64
  bytesPerSecond : UInt64
  pixelsPerSecond : UInt64
  numConnections : UInt64
  framesPerSecond : UInt64
  deriving DecidableEq

/-- The text of an answer. -/
def reportText (r : Report) : List UInt8 :=
  ascii "\x7b \"traffic\": \x7b \"bytes\": "++(formatUnsigned r.numBytes.toNat++
    (ascii ", \"pixels\": "++(formatUnsigned r.numPixels.toNat++
    (ascii " \x7d, \"throughput\": \x7b \"bytes\": "++(formatUnsigned r.bytesPerSecond.toNat++
    (ascii ", \"pixels\": "++(formatUnsigned r.pixelsPerSecond.toNat++
    (ascii " \x7d, \"connections\": "++(formatUnsigned r.numConnections.toNat++
    (ascii ", \"fps\": "++(formatUnsigned r.framesPerSecond.toNat++
    ascii " \x7d\n")))))))))))

/-- What the text denotes. -/
def reportJson (r : Report) : Json :=
  .object [(ascii "traffic",.object [(ascii "bytes",.number r.numBytes.toNat),
      (ascii "pixels",.number r.numPixels.toNat)]),
    (ascii "throughput",.object [(ascii "bytes",.number r.bytesPerSecond.toNat),
      (ascii "pixels",.number r.pixelsPerSecond.toNat)]),
    (ascii "connections",.number r.numConnections.toNat),
    (ascii "fps",.number r.framesPerSecond.toNat)]

/-- `API_STRBUF_LEN`. -/
def apiStrbufLen : ℕ := 1024

/-- What `api_thread` writes out of its buffer behind `snprintf`: as many bytes as
the text has. `none` where there are not that many in the buffer. -/
def answer (r : Report) : Option (List UInt8) :=
  let text := reportText r
  let strbuf := text.take (apiStrbufLen-1)++[0]
  if text.length≤ strbuf.length then some (strbuf.take text.length) else none

/-- The numbers of an answer about given statistics. -/
def reportOf (stats : Statistics) : Report :=
  ⟨stats.numBytes,stats.numPixels,getAverage stats.bytesPerSecond,getAverage stats.pixelsPerSecond,
    stats.numConnections,getAverage stats.framesPerSecond⟩

/-- Numbers are written in decimal digits. -/
theorem formatUnsigned_eq_writeNumber (n : ℕ) : formatUnsigned n=writeNumber n := by
  rw [formatUnsigned,writeNumber]
  split
  · rfl
  · refine List.map_congr_left fun d hd => ?_
    have hlt : d<10 := Nat.digits_lt_base (by omega) (List.mem_reverse.mp hd)
    rw [digitChar,if_pos hlt,digitCode]

/-- The tokens of an answer, with its six numbers. -/
def reportTokens (r : Report) : List Token :=
  [.openBrace,.name (ascii "traffic"),.colon,.openBrace,.name (ascii "bytes"),.colon,
    .number r.numBytes.toNat,.comma,.name (ascii "pixels"),.colon,.number r.numPixels.toNat,
    .closeBrace,.comma,.name (ascii "throughput"),.colon,.openBrace,.name (ascii "bytes"),.colon,
    .number r.bytesPerSecond.toNat,.comma,.name (ascii "pixels"),.colon,
    .number r.pixelsPerSecond.toNat,.closeBrace,.comma,.name (ascii "connections"),.colon,
    .number r.numConnections.toNat,.comma,.name (ascii "fps"),.colon,
    .number r.framesPerSecond.toNat,.closeBrace]

/-- A text of fixed characters before a number is scanned as its tokens. -/
theorem scanText_piece {state : List Token×Mode} {piece : List UInt8} {tokens : List Token}
    (h : scanText state piece=some (tokens,.between)) (n : UInt64) (rest : List UInt8) :
    scanText state (piece++(formatUnsigned n.toNat++rest))=
      scanText (tokens,.inNumber n.toNat) rest := by
  rw [scanText_append,h,Option.bind_some,formatUnsigned_eq_writeNumber,scanText_number]

/-- An answer is scanned as its tokens. -/
theorem tokensOf_reportText (r : Report) : tokensOf (reportText r)=some (reportTokens r) := by
  have htraffic : scanText ([],.between) (ascii "\x7b \"traffic\": \x7b \"bytes\": ")=
      some ([.openBrace]++[.name (ascii "traffic")]++[.colon]++[.openBrace]++
        [.name (ascii "bytes")]++[.colon],.between) := rfl
  have hpixels : ∀ tokens n, scanText (tokens,.inNumber n) (ascii ", \"pixels\": ")=
      some (tokens++[.number n]++[.comma]++[.name (ascii "pixels")]++[.colon],.between) :=
    fun _ _ => rfl
  have hthroughput : ∀ tokens n, scanText (tokens,.inNumber n)
      (ascii " \x7d, \"throughput\": \x7b \"bytes\": ")=
      some (tokens++[.number n]++[.closeBrace]++[.comma]++[.name (ascii "throughput")]++[.colon]++
        [.openBrace]++[.name (ascii "bytes")]++[.colon],.between) := fun _ _ => rfl
  have hconnections : ∀ tokens n, scanText (tokens,.inNumber n)
      (ascii " \x7d, \"connections\": ")=
      some (tokens++[.number n]++[.closeBrace]++[.comma]++[.name (ascii "connections")]++[.colon],
        .between) := fun _ _ => rfl
  have hfps : ∀ tokens n, scanText (tokens,.inNumber n) (ascii ", \"fps\": ")=
      some (tokens++[.number n]++[.comma]++[.name (ascii "fps")]++[.colon],.between) :=
    fun _ _ => rfl
  have hend : ∀ tokens n, scanText (tokens,.inNumber n) (ascii " \x7d\n")=
      some (tokens++[.number n]++[.closeBrace],.between) := fun _ _ => rfl
  have hscan : scanText ([],.between) (reportText r)=some (reportTokens r,.between) := by
    rw [reportText,scanText_piece htraffic,scanText_piece (hpixels _ _),
      scanText_piece (hthroughput _ _),scanText_piece (hpixels _ _),
      scanText_piece (hconnections _ _),scanText_piece (hfps _ _),hend]
    simp only [reportTokens,List.cons_append,List.nil_append]
  rw [tokensOf,hscan]

/-- An answer is read as what it denotes. -/
theorem readJson_reportText (r : Report) : readJson (reportText r)=some (reportJson r) := by
  rw [readJson,tokensOf_reportText,Option.bind_some]
  rfl

/-- An answer fits into the buffer. -/
theorem length_reportText (r : Report) : (reportText r).length<apiStrbufLen := by
  have hnumber : ∀ n : UInt64,(formatUnsigned n.toNat).length≤20 := fun n => by
    rw [formatUnsigned_eq_writeNumber]
    exact length_writeNumber_le (by omega) (n.toNat_lt.trans (by omega))
  have hbytes := hnumber r.numBytes
  have hpixels := hnumber r.numPixels
  have hbyteRate := hnumber r.bytesPerSecond
  have hpixelRate := hnumber r.pixelsPerSecond
  have hconnections := hnumber r.numConnections
  have hframes := hnumber r.framesPerSecond
  have htraffic : (ascii "\x7b \"traffic\": \x7b \"bytes\": ").length=24 := rfl
  have hpixelName : (ascii ", \"pixels\": ").length=12 := rfl
  have hthroughput : (ascii " \x7d, \"throughput\": \x7b \"bytes\": ").length=29 := rfl
  have hconnectionName : (ascii " \x7d, \"connections\": ").length=19 := rfl
  have hfps : (ascii ", \"fps\": ").length=9 := rfl
  have hend : (ascii " \x7d\n").length=3 := rfl
  simp only [reportText,List.length_append]
  rw [apiStrbufLen]
  omega

/-- What is written is the whole text. -/
theorem answer_eq (r : Report) : answer r=some (reportText r) := by
  have hlength := length_reportText r
  have htake : (reportText r).take (apiStrbufLen-1)=reportText r :=
    List.take_of_length_le (Nat.le_sub_one_of_lt hlength)
  rw [answer,htake,List.length_append,if_pos (Nat.le_add_right _ _),List.take_left]

end Shoreline.StatisticsApi
