import OmniCompiler.CFront.LiteralBody

/-!
# What `unescChar` makes of one item

An escape with digits may still be open after its text; the character that follows closes it, or the
end of the literal, which leaves it as it is.
-/
namespace OmniCompiler.CFront

/-! ## Memory -/

/-- Memory after `out` has been written to its start. -/
def written (mem : ℕ → Char) (out : List Char) (i : ℕ) : Char := out[i]?.getD (mem i)

theorem written_concat (mem : ℕ → Char) (out : List Char) (x : Char) (i : ℕ) :
    written mem (out ++ [x]) i = if i = out.length then x else written mem out i := by
  unfold written
  split_ifs with hi
  · simp [hi]
  · rcases Nat.lt_or_gt_of_ne hi with hlt | hgt
    · rw [List.getElem?_append_left hlt]
    · rw [List.getElem?_eq_none (by simp; omega), List.getElem?_eq_none (by omega)]

/-- All characters before `s` are those of `out`; what `s` points to may have been set. -/
def Wrote (mem : ℕ → Char) (out : List Char) (s : Option Buffer) : Prop :=
  ∃ b, s = some b ∧ b.pos = out.length ∧ ∀ i, i ≠ out.length → b.mem i = written mem out i

section Wrote

variable {mem : ℕ → Char} {out : List Char} {s : Option Buffer}

theorem Wrote.set (h : Wrote mem out s) (x : Char) : Wrote mem out (s.map (·.set x)) := by
  obtain ⟨b, rfl, hpos, hmem⟩ := h
  refine ⟨b.set x, rfl, hpos, fun i hi => ?_⟩
  rw [← hmem i hi]
  exact Function.update_of_ne (hpos ▸ hi) x b.mem

theorem Wrote.set_incr (h : Wrote mem out s) (x : Char) :
    Wrote mem (out ++ [x]) ((s.map (·.set x)).map (·.incr)) := by
  obtain ⟨b, rfl, hpos, hmem⟩ := h
  refine ⟨(b.set x).incr, rfl, ?_, fun i _ => ?_⟩
  · simp [Buffer.incr, Buffer.set, hpos]
  · rw [written_concat]
    split_ifs with hi
    · simp [Buffer.incr, Buffer.set, hpos, hi]
    · rw [← hmem i hi]
      exact Function.update_of_ne (hpos ▸ hi) x b.mem

theorem Wrote.add (h : Wrote mem out s) (x : Char) :
    Wrote mem (out ++ [x]) (s.map (·.add false x)) := by
  have hset := h.set_incr x
  rwa [Option.map_map] at hset

theorem Wrote.close (h : Wrote mem out s) :
    (s.map (·.set '\x00')).map Buffer.mem = some (written mem (out ++ ['\x00'])) := by
  obtain ⟨b, rfl, hpos, hmem⟩ := h
  refine congrArg some (funext fun i => ?_)
  rw [written_concat]
  split_ifs with hi
  · simp [Buffer.set, hpos, hi]
  · rw [← hmem i hi]
    exact Function.update_of_ne (hpos ▸ hi) _ b.mem

end Wrote

/-! ## One item -/

def hexChar (a b : HexDigit) : Char :=
  lowChar (((0 : BitVec 32) <<< 4 ||| hexDigitValue a.char) <<< 4 ||| hexDigitValue b.char)

namespace Item

/-- What is written of an item, when it ends the literal and when another item follows. -/
def out (last : Bool) : Item → List Char
  | ordinary c _ => [c]
  | simple e => [e.value]
  | oct1 a => if last then [] else [lowChar (BitVec.ofNat 32 a)]
  | oct2 a b => if last then [] else [lowChar (BitVec.ofNat 32 (8 * a + b))]
  | oct3 a b c => [lowChar (BitVec.ofNat 32 (64 * a + 8 * b + c))]
  | hex1 _ => []
  | hex2 a b => [hexChar a b]

/-- How often it is counted. -/
def counted (last : Bool) : Item → ℕ
  | ordinary _ _ | simple _ | oct3 _ _ _ => 1
  | oct1 _ | oct2 _ _ | hex1 _ => if last then 0 else 1
  | hex2 _ _ => if last then 1 else 2

def Closes : Item → Char → Prop
  | oct1 _, c | oct2 _ _, c => isOctDigit c = false
  | hex1 _, c | hex2 _ _, c => isHexDigit c = false
  | _, _ => True

end Item

/-- Between two items: `out` is written, `n` characters are counted. -/
structure Settled (mem : ℕ → Char) (out : List Char) (n : ℕ) (result : Bool)
    (st : Scan) : Prop where
  mode : st.mode = .norm
  uni : st.uni = false
  n : st.n = n
  result : st.result = result
  wrote : Wrote mem out st.s

/-- After the loop. -/
structure Ended (mem : ℕ → Char) (out : List Char) (n : ℕ) (result : Bool) (st : Scan) : Prop where
  n : st.n = n
  result : st.result = result
  mem : st.s.map Buffer.mem = some (written mem (out ++ ['\x00']))

section Scan

variable {mem : ℕ → Char} {out : List Char} {n : ℕ} {result : Bool} {st : Scan}

theorem ended_scanEnd (huni : st.uni = false) (hn : st.n = n) (hresult : st.result = result)
    (hwrote : Wrote mem out st.s) : Ended mem out n result (scanEnd st) := by
  unfold scanEnd
  rw [huni]
  exact ⟨hn, hresult, hwrote.close⟩

theorem Settled.ended (h : Settled mem out n result st) : Ended mem out n result (scanEnd st) :=
  ended_scanEnd h.uni h.n h.result h.wrote

theorem Settled.scanChar (h : Settled mem out n result st) (c : Char) :
    scanChar false c st = scanNorm false c st := by
  rw [CFront.scanChar, h.mode]

theorem Settled.backslash (h : Settled mem out n result st) :
    CFront.scanChar false '\\' st = { st with mode := .inEsc } := by
  rw [h.scanChar, scanNorm, if_pos rfl]

theorem Settled.add (h : Settled mem out n result st) (x : Char) {st' : Scan}
    (hst : st' = { st with s := st.s.map (·.add false x), n := st.n + 1, mode := .norm }) :
    Settled mem (out ++ [x]) (n + 1) result st' := by
  subst hst
  exact ⟨rfl, h.uni, by simp [h.n], h.result, h.wrote.add x⟩

structure Opened (mode : Mode) (mem : ℕ → Char) (out : List Char) (n : ℕ) (result : Bool)
    (st : Scan) : Prop where
  mode : st.mode = mode
  uni : st.uni = false
  n : st.n = n
  result : st.result = result
  stockCnt : st.stockCnt ≠ 0
  wrote : Wrote mem out st.s

variable {mode : Mode}

theorem Opened.ended (h : Opened mode mem out n result st) : Ended mem out n result (scanEnd st) :=
  ended_scanEnd h.uni h.n h.result h.wrote

/-! ### Octal escapes -/

theorem toInt_ofNat_small {v : ℕ} (hv : v < 512) : (BitVec.ofNat 32 v).toInt = v := by
  rw [BitVec.toInt_ofNat', Int.bmod_eq_of_le] <;> omega

/-- An octal escape after `cnt` digits, which make `v`. -/
structure OpenedOct (v cnt : ℕ) (mem : ℕ → Char) (out : List Char) (n : ℕ) (result : Bool)
    (st : Scan) : Prop where
  mode : st.mode = .escOct
  uni : st.uni = false
  n : st.n = n
  result : st.result = result
  stock : st.stock = BitVec.ofNat 32 v
  cnt : st.stockCnt = cnt
  wrote : Wrote mem out st.s

variable {v cnt : ℕ}

theorem OpenedOct.opened (h : OpenedOct v cnt mem out n result st) (hcnt : cnt ≠ 0) :
    Opened .escOct mem out n result st :=
  ⟨h.mode, h.uni, h.n, h.result, h.cnt ▸ hcnt, h.wrote⟩

theorem OpenedOct.scanChar (h : OpenedOct v cnt mem out n result st) (c : Char) :
    CFront.scanChar false c st = scanOct false c st := by
  rw [CFront.scanChar, h.mode]

theorem OpenedOct.digit (h : OpenedOct v cnt mem out n result st) (hcnt : cnt < 2) (hv : v < 8)
    (d : Fin 8) :
    OpenedOct (8 * v + d) (cnt + 1) mem out n result (scanOct false (octChar d) st) := by
  have hopen : ¬ (0xFF < (BitVec.ofNat 32 (8 * v + d)).toInt ∨ 3 ≤ cnt + 1) := by
    rw [toInt_ofNat_small (by omega)]
    omega
  have hscan : scanOct false (octChar d) st = { st with
      stock := BitVec.ofNat 32 (8 * v + d)
      stockCnt := cnt + 1
      s := st.s.map (·.set (lowChar (BitVec.ofNat 32 (8 * v + d)))) } := by
    simp only [scanOct, isOctDigit_octChar, if_true, h.stock, octStock (by omega : v < 64), h.cnt,
      hopen, if_false]
  rw [hscan]
  exact ⟨h.mode, h.uni, h.n, h.result, rfl, rfl, h.wrote.set _⟩

theorem OpenedOct.third (h : OpenedOct v 2 mem out n result st) (hv : v < 64) (d : Fin 8) :
    Settled mem (out ++ [lowChar (BitVec.ofNat 32 (8 * v + d))]) (n + 1)
      (result && decide (8 * v + (d : ℕ) < 256)) (scanOct false (octChar d) st) := by
  have hrange : (0xFF < (BitVec.ofNat 32 (8 * v + d)).toInt) = ¬ 8 * v + (d : ℕ) < 256 := by
    rw [toInt_ofNat_small (by omega)]
    exact propext (by omega)
  have hscan : scanOct false (octChar d) st = { st with
      mode := .norm
      stock := BitVec.ofNat 32 (8 * v + d)
      stockCnt := 3
      s := (st.s.map (·.set (lowChar (BitVec.ofNat 32 (8 * v + d))))).map (·.incr)
      n := st.n + 1
      result := st.result && decide (8 * v + (d : ℕ) < 256) } := by
    simp only [scanOct, isOctDigit_octChar, if_true, h.stock, octStock hv, h.cnt, hrange]
    by_cases hlow : 8 * v + (d : ℕ) < 256 <;> simp [hlow]
  rw [hscan]
  exact ⟨rfl, h.uni, congrArg (· + 1) h.n, by rw [h.result], h.wrote.set_incr _⟩

theorem Opened.closeOct (h : Opened .escOct mem out n result st) {c : Char}
    (hc : isOctDigit c = false) :
    ∃ st', Settled mem (out ++ [lowChar st.stock]) (n + 1) result st' ∧
      CFront.scanChar false c st = CFront.scanChar false c st' := by
  have hend : endOct false st =
      { st with s := st.s.map (·.add false (lowChar st.stock)), n := st.n + 1, mode := .norm } := by
    rw [endOct, if_neg h.stockCnt]
  have hset : Settled mem (out ++ [lowChar st.stock]) (n + 1) result (endOct false st) := by
    rw [hend]
    exact ⟨rfl, h.uni, congrArg (· + 1) h.n, h.result, h.wrote.add _⟩
  refine ⟨endOct false st, hset, ?_⟩
  rw [hset.scanChar, CFront.scanChar, h.mode]
  simp [scanOct, hc]

/-! ### Hexadecimal escapes -/

/-- Another character ends a hexadecimal escape, which is then counted and not written. -/
theorem Opened.closeHex (h : Opened .escHex mem out n result st) {c : Char}
    (hc : isHexDigit c = false) :
    ∃ st', Settled mem out (n + 1) result st' ∧
      CFront.scanChar false c st = CFront.scanChar false c st' := by
  have hend : endHex st = { st with n := st.n + 1, mode := .norm, uni := false } := by
    rw [endHex, if_neg h.stockCnt]
  have hset : Settled mem out (n + 1) result (endHex st) := by
    rw [hend]
    exact ⟨rfl, rfl, congrArg (· + 1) h.n, h.result, h.wrote⟩
  refine ⟨endHex st, hset, ?_⟩
  rw [hset.scanChar, CFront.scanChar, h.mode]
  simp [scanHex, hc]

/-! ### Items -/

def scanText (st : Scan) (text : List Char) : Scan :=
  text.foldl (fun st c => CFront.scanChar false c st) st

/-- After the text of an item no escape is open, or one that the next character closes. -/
def Scanned (i : Item) (mem : ℕ → Char) (out : List Char) (n : ℕ) (result : Bool) (st : Scan) :
    Prop :=
  (∀ c, i.Closes c → ∃ st', Settled mem (out ++ i.out false) (n + i.counted false) result st' ∧
      CFront.scanChar false c st = CFront.scanChar false c st') ∧
    Ended mem (out ++ i.out true) (n + i.counted true) result (scanEnd st)

theorem Settled.scanned {i : Item} {x : Char} (h : Settled mem (out ++ [x]) (n + 1) result st)
    (hout : ∀ last, i.out last = [x]) (hcounted : ∀ last, i.counted last = 1) :
    Scanned i mem out n result st := by
  unfold Scanned
  rw [hout, hout, hcounted, hcounted]
  exact ⟨fun _ _ => ⟨st, h, rfl⟩, h.ended⟩

theorem scanned_ordinary (h : Settled mem out n result st) {c : Char} (hc : Ordinary c) :
    Scanned (.ordinary c hc) mem out n result (scanText st [c]) := by
  have hadd : scanText st [c] =
      { st with s := st.s.map (·.add false c), n := st.n + 1, mode := .norm } := by
    simp only [scanText, List.foldl_cons, List.foldl_nil]
    rw [h.scanChar, scanNorm, if_neg hc.1, ← h.mode]
  exact (h.add c hadd).scanned (fun _ => rfl) (fun _ => rfl)

theorem scanned_simple (h : Settled mem out n result st) (e : SimpleEscape) :
    Scanned (.simple e) mem out n result
      (scanText st ['\\', e.char]) := by
  have hadd : scanText st ['\\', e.char] =
      { st with s := st.s.map (·.add false e.value), n := st.n + 1, mode := .norm } := by
    simp only [scanText, List.foldl_cons, List.foldl_nil, h.backslash]
    simp only [CFront.scanChar, scanEsc, simpleEscape_char]
  exact (h.add e.value hadd).scanned (fun _ => rfl) (fun _ => rfl)

theorem openedOct_one (h : Settled mem out n result st) (a : Fin 8) :
    OpenedOct a 1 mem out n result (scanText st ['\\', octChar a]) := by
  have hfirst : scanText st ['\\', octChar a] =
      scanOct false (octChar a) { st with mode := .escOct, stock := 0, stockCnt := 0 } := by
    simp only [scanText, List.foldl_cons, List.foldl_nil, h.backslash]
    simp only [CFront.scanChar, scanEsc, simpleEscape_octChar, isOctDigit_octChar, if_true]
  have hzero : OpenedOct 0 0 mem out n result
      { st with mode := .escOct, stock := 0, stockCnt := 0 } :=
    ⟨rfl, h.uni, h.n, h.result, rfl, rfl, h.wrote⟩
  rw [hfirst]
  simpa using hzero.digit (by omega) (by omega) a

theorem openedOct_two (h : Settled mem out n result st) (a b : Fin 8) :
    OpenedOct (8 * a + b) 2 mem out n result (scanText st ['\\', octChar a, octChar b]) := by
  have hone := openedOct_one h a
  have hsecond : scanText st ['\\', octChar a, octChar b] =
      scanOct false (octChar b) (scanText st ['\\', octChar a]) := hone.scanChar (octChar b)
  rw [hsecond]
  exact hone.digit (by omega) a.isLt b

theorem OpenedOct.scanned {i : Item} (h : OpenedOct v cnt mem out n result st) (hcnt : cnt ≠ 0)
    (hout : i.out false = [lowChar (BitVec.ofNat 32 v)]) (hout' : i.out true = [])
    (hcounted : i.counted false = 1) (hcounted' : i.counted true = 0)
    (hcloses : ∀ c, i.Closes c → isOctDigit c = false) : Scanned i mem out n result st := by
  unfold Scanned
  rw [hout, hout', hcounted, hcounted', ← h.stock, List.append_nil]
  exact ⟨fun c hc => (h.opened hcnt).closeOct (hcloses c hc), (h.opened hcnt).ended⟩

theorem scanned_oct3 (h : Settled mem out n result st) (a b c : Fin 8) :
    Scanned (.oct3 a b c) mem out n (result && decide (Item.oct3 a b c).InRange)
      (scanText st ['\\', octChar a, octChar b, octChar c]) := by
  have htwo := openedOct_two h a b
  have hthird : scanText st ['\\', octChar a, octChar b, octChar c] =
      scanOct false (octChar c) (scanText st ['\\', octChar a, octChar b]) :=
    htwo.scanChar (octChar c)
  have hvalue : 8 * (8 * (a : ℕ) + b) + c = 64 * a + 8 * b + c := by omega
  have hdone := htwo.third (by omega) c
  rw [hvalue] at hdone
  rw [hthird]
  exact hdone.scanned (fun _ => rfl) (fun _ => rfl)

theorem hexadecimal_start (h : Settled mem out n result st) (a : HexDigit) :
    scanText st ['\\', 'x', a.char] = { st with
      mode := .escHex
      stock := (0 : BitVec 32) <<< 4 ||| hexDigitValue a.char
      stockCnt := 1
      s := st.s.map (·.set (lowChar ((0 : BitVec 32) <<< 4 ||| hexDigitValue a.char))) } := by
  have hescape : CFront.scanChar false 'x' (CFront.scanChar false '\\' st) =
      { st with mode := .escHex, stock := 0, stockCnt := 0 } := by
    rw [h.backslash]
    rfl
  simp only [scanText, List.foldl_cons, List.foldl_nil, hescape]
  simp [CFront.scanChar, scanHex, isHexDigit_char, h.uni]

theorem scanned_hex1 (h : Settled mem out n result st) (a : HexDigit) :
    Scanned (.hex1 a) mem out n result (scanText st ['\\', 'x', a.char]) := by
  have hopened : Opened .escHex mem out n result (scanText st ['\\', 'x', a.char]) := by
    rw [hexadecimal_start h a]
    exact ⟨rfl, h.uni, h.n, h.result, by simp, h.wrote.set _⟩
  unfold Scanned
  simp only [Item.out, Item.counted, List.append_nil, if_true]
  exact ⟨fun c hc => hopened.closeHex hc, hopened.ended⟩

/-- Two hexadecimal digits are written and counted, and the escape is still open. -/
theorem scanned_hex2 (h : Settled mem out n result st) (a b : HexDigit) :
    Scanned (.hex2 a b) mem out n result (scanText st ['\\', 'x', a.char, b.char]) := by
  have hsecond : scanText st ['\\', 'x', a.char, b.char] =
      CFront.scanChar false b.char (scanText st ['\\', 'x', a.char]) := rfl
  have hopened : Opened .escHex mem (out ++ [hexChar a b]) (n + 1) result
      (scanText st ['\\', 'x', a.char, b.char]) := by
    rw [hsecond, hexadecimal_start h a]
    simp only [CFront.scanChar, scanHex, isHexDigit_char, if_true, h.uni, Nat.reduceAdd,
      Nat.reduceMod, Nat.reduceLeDiff, Bool.false_eq_true, and_false, if_false]
    exact ⟨rfl, rfl, congrArg (· + 1) h.n, h.result, by simp, (h.wrote.set _).set_incr _⟩
  unfold Scanned
  exact ⟨fun c hc => hopened.closeHex hc, hopened.ended⟩

theorem Settled.scanned_item (h : Settled mem out n result st) (i : Item) :
    Scanned i mem out n (result && decide i.InRange) (scanText st i.text) := by
  have hkeep : i.InRange → (result && decide i.InRange) = result := by
    intro hi
    simp [hi]
  cases i with
  | ordinary c hc =>
    rw [hkeep trivial]
    exact scanned_ordinary h hc
  | simple e =>
    rw [hkeep trivial]
    exact scanned_simple h e
  | oct1 a =>
    rw [hkeep trivial]
    exact (openedOct_one h a).scanned (by omega) rfl rfl rfl rfl (fun _ hc => hc)
  | oct2 a b =>
    rw [hkeep trivial]
    exact (openedOct_two h a b).scanned (by omega) rfl rfl rfl rfl (fun _ hc => hc)
  | oct3 a b c => exact scanned_oct3 h a b c
  | hex1 a =>
    rw [hkeep trivial]
    exact scanned_hex1 h a
  | hex2 a b =>
    rw [hkeep trivial]
    exact scanned_hex2 h a b

end Scan

end OmniCompiler.CFront
