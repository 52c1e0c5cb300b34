import ShellFlow.Supply
import ShellFlow.Text.Code

/-!
# Texts in quotes

A text is put between single quotes, unless it has single quotes and no double ones.  Code points
that a reader can see stand for themselves: letters, marks, digits, punctuation, symbols and the
plain blank.  All other blanks, controls, halves of pairs, private and unassigned code points are
not printable.
-/

namespace ShellFlow.Text

/-- Reads lengths: a letter is one up to 52, small letters before capital ones, and any other is a
numeral with a point behind it.  `n` is what was read of a numeral. -/
def readRuns (n : Nat) : List Char → List Nat
  | [] => []
  | c :: cs =>
    if c.isDigit then readRuns (10 * n + (c.toNat - 48)) cs
    else if c = '.' then n :: readRuns 0 cs
    else (if c.isLower then c.toNat - 96 else c.toNat - 38) :: readRuns 0 cs

/-- The lengths of the runs of code points that are not printable and that are printable, in turn.
-/
def printableRuns : List Nat := readRuns 0
  ("F95.Hla714.bfdgaaata397.aLbXbca55.hAdfqva192.aVb59.b101.n59.bWboaBbaakeEi74.a161.ahbbbvagaac" ++
  "dbibbbdhadbaebybcafdbbvagabababbaaedbbccagdaagqjcaiacavagabaebjacacbaodblggacahbbbvagabaebib" ++
  "bbcgcdbaebrjbafccadcbaaabcbcccldeccadbafanuemacawapbiacadgbacbabdbjgvacawajaebiacadgbfbadbja" ++
  "bmmacaYacafdpbzacarcxaiaabgcadfaaahfjbcl58.dCKbaaaeaxaaawbeaaafbjbdF72.aJdMaJaoamK198.aaeab3" ++
  "77.adbgaaadbOadbGadbgaaadboa57.adb67.bFczf86.bfb640.aBc89.gvixitlmacabl94.bjfjfnakf89.gQe70." ++
  "jEaldldacPbekRdzfkc62.b65.aCbkfjfnbEW77.cUa116.h60.coc60.gQbkhQe534.bfbLbfbhaaaaaaaEb53.aoan" ++
  "bfasbcaiqxhUqbbAamcGoGo140.d663.yku1812.bFa349.eSaaeab56.gbnxigagagagagagagaga126.Hza89.l214" ++
  ".zle63.a86.b103.eQa94.a84.lUa29293.c55.i348.t184.h203.ebaaaex59.cjf56.h70.hlf116.kDc78.akdGa" ++
  "55.inbjb103.xBjfbfbfigaga60.d126.bjf11172.lwdW8452.366.b106.Lgleezaeaaababa125.p445.b54.gaFP" ++
  "fYasaddea135.d190.cfbfbfbccgagmbblazasabaobnH123.ecdSc88.amcaUT130.CcWoBdJiDeQeDaKdnP158.bjf" ++
  "JdJdNhZklaoagabakaoagab67.311.ivjhxfaPai69.fbaaRabcabwa72.hiVsabeGcAea64.56.dtbXabehacaCbcdj" ++
  "gig64.FMdli54.cCbAezgdlg80.73.55.YmYgThj294.EaPacbb78.NhPvzLBtwi78.dJi62.aemygjf53.arhMi96.a" ++
  "tkraR65.gaaadaoakf59.ejfdahbbbvagabaeajbbbcbafaegbgce139.92.aeD72.hj166.54.bLH69.kjfms58.fj5" ++
  "4.Abodw185.60.100.83.lhbabhabaDabblij70.hbTbkA72.h83.m73.263.iaSanjCcFbvan73.gabaRcaabaihjff" ++
  "abaKabafgj310.y183.aoXm923.102.111.aek196.2636.99.m1071.4049.583.8633.569.gEajd81.ajfDbfj70." ++
  "jjagaues688.91.101.75.d57.gq64.ekbn6136.h1238.Pi8935.dagaba291.Scqdh396.2308.107.emcigjbd470" ++
  "4.Tbwi116.60.246.jMb74.h112.u70.154.tl87.iy135.85.a71.abbabbbdalaaaga65.adbhagaBadaeaacga340" ++
  ".b292.b702.oeao1104.E225.gaqbgabae213.Scnbjdb320.Eq58.ea1248.gadabaoa197.bpO76.djdb785.68.76" ++
  ".61.194.daAabaabaajadaaaafadaaaaaacabaabaaaaaaaaaabaabdagadadaaajaqecaeaqZb270.Rd100.loboaoa" ++
  "Kj174.56.CmRdigbnf154.984.epcmc116.l89.gldaold56.hjfNhDbb78.340.lnbececgiCckefjjfhhgi147.a55" ++
  ".Kj1030.42720.F4153.g222.b5762.n7473.3103.542.1506.4939.716213.240.196112.").toList

/-- Whether a number is in a run of printable code points; behind all runs comes one that has no
end. -/
def inPrintableRun (printable : Bool) (code : Nat) : List Nat → Bool
  | [] => printable
  | n :: ns => if code < n then printable else inPrintableRun (!printable) (code - n) ns

def isPrintable (code : Nat) : Bool := inPrintableRun false code printableRuns

/-! ### Quotes -/

/-- A code point that cannot be seen, by its number. -/
def numberedEscape (code : Nat) : String :=
  if code ≤ 0xFF then "\\x" ++ Supply.hex 2 code
  else if code ≤ 0xFFFF then "\\u" ++ Supply.hex 4 code
  else "\\U" ++ Supply.hex 8 code

def quotedCode (quote code : Nat) : String :=
  if code = quote ∨ code = 92 then "\\" ++ ofCodes [code]
  else if code = 9 then "\\t"
  else if code = 10 then "\\n"
  else if code = 13 then "\\r"
  else if isPrintable code then ofCodes [code]
  else numberedEscape code

def quotation (s : String) : String :=
  let cs := codes s
  let quote := if cs.contains 39 && !cs.contains 34 then 34 else 39
  ofCodes [quote] ++ String.join (cs.map (quotedCode quote)) ++ ofCodes [quote]

end ShellFlow.Text
