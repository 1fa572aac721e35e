import Mathlib.Data.Fintype.Basic
import Mathlib.Data.List.Chain
import Mathlib.Tactic

/-!
# Characters of a literal (`unescChar` in `c-const.c`)

`unescChar` scans the body of a character or string literal, writes the characters to `s` and counts
them; with no `s` it only counts. A C string is the list of the characters before its end, and a
`char` is a character below 256.
-/
namespace OmniCompiler.CFront

inductive Mode
  | norm
  | inEsc
  | escOct
  | escHex
  deriving DecidableEq

/-- The memory that `s` points into, and where. -/
structure Buffer where
  mem : ℕ → Char
  pos : ℕ

def Buffer.set (b : Buffer) (x : Char) : Buffer := { b with mem := Function.update b.mem b.pos x }

def Buffer.incr (b : Buffer) : Buffer := { b with pos := b.pos + 1 }

def Buffer.add (isWChar : Bool) (b : Buffer) (x : Char) : Buffer :=
  ((if isWChar then b.incr else b).set x).incr

def Buffer.swap (b : Buffer) : Buffer :=
  let tmp := b.mem (b.pos - 1)
  let mem := Function.update b.mem (b.pos - 1) (b.mem (b.pos - 2))
  { b with mem := Function.update mem (b.pos - 1) tmp }

/-- The local variables of `unescChar`, and `s` if there is one. -/
structure Scan where
  mode : Mode
  stock : BitVec 32
  stockCnt : ℕ
  result : Bool
  n : ℕ
  uni : Bool
  s : Option Buffer

/-- `(char)(stock & 0xFF)`. -/
def lowChar (stock : BitVec 32) : Char := Char.ofNat (stock &&& 0xFF).toNat

def isOctDigit (c : Char) : Bool := '0' ≤ c && c ≤ '7'

def isHexDigit (c : Char) : Bool :=
  ('0' ≤ c && c ≤ '9') || ('A' ≤ c && c ≤ 'F') || ('a' ≤ c && c ≤ 'f')

/-- `c - ((c <= '9') ? '0' : ((c <= 'F') ? 'A' : 'f'))`. -/
def hexDigitValue (c : Char) : BitVec 32 :=
  BitVec.ofInt 32 ((c.toNat : ℤ) -
    (if c ≤ '9' then '0'.toNat else if c ≤ 'F' then 'A'.toNat else 'f'.toNat : ℕ))

/-- The escapes of one character in `MODE_IN_ESC`. -/
def simpleEscape : Char → Option Char
  | 'a' => some '\x07'
  | 'b' => some '\x08'
  | 'f' => some '\x0c'
  | 'n' => some '\n'
  | 'r' => some '\x0d'
  | 't' => some '\t'
  | 'v' => some '\x0b'
  | '\\' => some '\\'
  | '\'' => some '\''
  | '"' => some '"'
  | '?' => some '?'
  | _ => none

section Code

variable (isWChar : Bool) (c : Char) (st : Scan)

/-- `MODE_NORM`. -/
def scanNorm : Scan :=
  if c = '\\' then { st with mode := .inEsc }
  else { st with s := st.s.map (·.add isWChar c), n := st.n + 1 }

/-- The `default` of `MODE_ESC_OCT`. -/
def endOct : Scan :=
  if st.stockCnt = 0 then { st with result := false, mode := .norm }
  else { st with s := st.s.map (·.add isWChar (lowChar st.stock)), n := st.n + 1, mode := .norm }

/-- `MODE_ESC_OCT`. -/
def scanOct : Scan :=
  if isOctDigit c then
    let stock := st.stock <<< 3 ||| BitVec.ofInt 32 ((c.toNat : ℤ) - '0'.toNat)
    let st : Scan := { st with
      stock := stock
      stockCnt := st.stockCnt + 1
      s := st.s.map (·.set (lowChar stock)) }
    if 0xFF < stock.toInt ∨ 3 ≤ st.stockCnt then
      { st with
        mode := .norm
        s := st.s.map (·.incr)
        n := st.n + 1
        result := if 0xFF < stock.toInt then false else st.result }
    else st
  else scanNorm isWChar c (endOct isWChar st)

/-- The `default` of `MODE_ESC_HEX`. -/
def endHex : Scan :=
  if st.stockCnt = 0 then { st with result := false, mode := .norm, uni := false }
  else { st with n := st.n + 1, mode := .norm, uni := false }

/-- `MODE_ESC_HEX`. -/
def scanHex : Scan :=
  if isHexDigit c then
    let stock := st.stock <<< 4 ||| hexDigitValue c
    let st : Scan := { st with
      stock := stock
      stockCnt := st.stockCnt + 1
      s := st.s.map (·.set (lowChar stock)) }
    let st : Scan := if st.stockCnt % 2 = 0 then
        { st with s := st.s.map (·.incr), n := st.n + 1, stock := 0 }
      else st
    if st.uni = false ∧ 3 ≤ st.stockCnt then
      { st with mode := .norm, uni := false, result := false }
    else if st.uni = true ∧ 4 ≤ st.stockCnt then
      { st with
        mode := .norm
        uni := false
        s := st.s.map (·.swap)
        n := if isWChar then st.n - 1 else st.n }
    else st
  else scanNorm isWChar c (endHex st)

/-- `MODE_IN_ESC`. -/
def scanEsc : Scan :=
  match simpleEscape c with
  | some x => { st with s := st.s.map (·.add isWChar x), n := st.n + 1, mode := .norm }
  | none =>
    if isOctDigit c then scanOct isWChar c { st with mode := .escOct, stock := 0, stockCnt := 0 }
    else if c = 'x' then { st with mode := .escHex, stock := 0, stockCnt := 0 }
    else if c = 'u' then { st with mode := .escHex, uni := true, stock := 0, stockCnt := 0 }
    else { st with mode := .norm, result := false }

def scanChar : Scan :=
  match st.mode with
  | .norm => scanNorm isWChar c st
  | .inEsc => scanEsc isWChar c st
  | .escOct => scanOct isWChar c st
  | .escHex => scanHex isWChar c st

def scanEnd : Scan :=
  let st :=
    if st.uni then
      if st.stockCnt < 4 then { st with result := false } else { st with s := st.s.map (·.swap) }
    else st
  { st with s := st.s.map (·.set '\x00') }

end Code

/-- `unescChar`; `result`, `n` and `s` of the last state are what it leaves. -/
def unescChar (s : Option Buffer) (cstr : List Char) (isWChar : Bool) : Scan :=
  scanEnd (cstr.foldl (fun st c => scanChar isWChar c st) ⟨.norm, 0, 0, true, 0, false, s⟩)

end OmniCompiler.CFront
