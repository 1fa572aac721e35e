import OmniCompiler.CFront.UnescItems

/-!
# What `unescChar` makes of a narrow literal

Each item is closed by the next one, so what is written of a body, and how much is counted, follow
item by item. It is what the body denotes unless an octal escape is still open at the end or there
is a hexadecimal escape; two decimal digits at the end are the only ones that are decoded.
-/
namespace OmniCompiler.CFront

/-! ## A whole body -/

def bodyOut : List Item → List Char
  | [] => []
  | i :: rest => i.out rest.isEmpty ++ bodyOut rest

def bodyCount : List Item → ℕ
  | [] => 0
  | i :: rest => i.counted rest.isEmpty + bodyCount rest

section Body

variable {mem : ℕ → Char}

theorem Item.Follows.closes {i j : Item} (h : i.Follows j) : i.Closes j.first := by
  cases i <;> exact h

theorem scanText_append (st : Scan) (front back : List Char) :
    scanText st (front ++ back) = scanText (scanText st front) back := List.foldl_append

/-- The first character of the second part may take the place of what the first part left open. -/
theorem scanText_congr {st st' : Scan} {j : Item}
    (hsame : CFront.scanChar false j.first st = CFront.scanChar false j.first st')
    (rest : List Item) :
    scanText st (bodyText (j :: rest)) = scanText st' (bodyText (j :: rest)) := by
  obtain ⟨text, htext⟩ := j.exists_text
  have hbody : bodyText (j :: rest) = j.first :: (text ++ bodyText rest) := by
    simp [bodyText, htext]
  rw [hbody]
  unfold scanText
  rw [List.foldl_cons, List.foldl_cons, hsame]

theorem Settled.body {out : List Char} {n : ℕ} {result : Bool} {st : Scan}
    (h : Settled mem out n result st) {body : List Item} (hbody : body.IsChain Item.Follows) :
    Ended mem (out ++ bodyOut body) (n + bodyCount body)
      (result && body.all (fun i => decide i.InRange)) (scanEnd (scanText st (bodyText body))) := by
  induction body generalizing out n result st with
  | nil =>
    show Ended mem (out ++ []) n (result && true) (scanEnd st)
    rw [List.append_nil, Bool.and_true]
    exact h.ended
  | cons i rest ih =>
    have hitem := h.scanned_item i
    have hsplit : scanText st (bodyText (i :: rest)) =
        scanText (scanText st i.text) (bodyText rest) := scanText_append st i.text (bodyText rest)
    rw [hsplit]
    cases rest with
    | nil =>
      show Ended mem (out ++ (i.out true ++ [])) (n + i.counted true)
        (result && (decide i.InRange && true)) (scanEnd (scanText st i.text))
      rw [List.append_nil, Bool.and_true]
      exact hitem.2
    | cons j rest =>
      obtain ⟨st', hst', hsame⟩ := hitem.1 j.first (Item.Follows.closes hbody.rel)
      rw [scanText_congr hsame rest]
      have hrest := ih hst' hbody.tail
      simpa only [bodyOut, bodyCount, List.append_assoc, Nat.add_assoc, List.all_cons,
        Bool.and_assoc, List.isEmpty_cons] using hrest

end Body

/-! ## The literal -/

/-- Without `s` the other variables are the same. -/
def Scan.sizing (st : Scan) : Scan := { st with s := none }

section Sizing

variable (isWChar : Bool) (c : Char) (st : Scan)

theorem scanNorm_sizing : scanNorm isWChar c st.sizing = (scanNorm isWChar c st).sizing := by
  unfold scanNorm
  rw [apply_ite Scan.sizing]
  rfl

theorem endOct_sizing : endOct isWChar st.sizing = (endOct isWChar st).sizing := by
  unfold endOct
  rw [apply_ite Scan.sizing]
  rfl

theorem scanOct_sizing : scanOct isWChar c st.sizing = (scanOct isWChar c st).sizing := by
  unfold scanOct
  rw [endOct_sizing, scanNorm_sizing, apply_ite Scan.sizing, apply_ite Scan.sizing]
  rfl

theorem endHex_sizing : endHex st.sizing = (endHex st).sizing := by
  unfold endHex
  rw [apply_ite Scan.sizing]
  rfl

theorem scanHex_sizing : scanHex isWChar c st.sizing = (scanHex isWChar c st).sizing := by
  unfold scanHex
  rw [endHex_sizing, scanNorm_sizing]
  by_cases heven : (st.stockCnt + 1) % 2 = 0
  · simp only [heven, Scan.sizing, if_true]
    split_ifs <;> rfl
  · simp only [heven, Scan.sizing, if_false]
    split_ifs <;> rfl

theorem scanEsc_sizing : scanEsc isWChar c st.sizing = (scanEsc isWChar c st).sizing := by
  unfold scanEsc
  cases simpleEscape c with
  | some x => rfl
  | none =>
    have hoct := scanOct_sizing isWChar c { st with mode := .escOct, stock := 0, stockCnt := 0 }
    simp only [apply_ite Scan.sizing, ← hoct]
    rfl

theorem scanChar_sizing : scanChar isWChar c st.sizing = (scanChar isWChar c st).sizing := by
  have hmode : st.sizing.mode = st.mode := rfl
  unfold scanChar
  rw [hmode]
  cases st.mode with
  | norm => exact scanNorm_sizing isWChar c st
  | inEsc => exact scanEsc_sizing isWChar c st
  | escOct => exact scanOct_sizing isWChar c st
  | escHex => exact scanHex_sizing isWChar c st

theorem scanEnd_sizing : scanEnd st.sizing = (scanEnd st).sizing := by
  have huni : st.sizing.uni = st.uni := rfl
  unfold scanEnd
  rw [huni]
  cases st.uni
  · rfl
  · by_cases hcnt : st.stockCnt < 4
    · simp only [Scan.sizing, hcnt, if_true]
      rfl
    · simp only [Scan.sizing, hcnt, if_true, if_false]
      rfl

theorem scanText_sizing (text : List Char) :
    scanText st.sizing text = (scanText st text).sizing := by
  induction text generalizing st with
  | nil => rfl
  | cons c text ih =>
    show scanText (CFront.scanChar false c st.sizing) text = _
    rw [scanChar_sizing]
    exact ih (CFront.scanChar false c st)

end Sizing

theorem unescChar_sizing (s : Option Buffer) (text : List Char) :
    unescChar none text false = (unescChar s text false).sizing := by
  have htext := scanText_sizing ⟨.norm, 0, 0, true, 0, false, s⟩ text
  have hend := scanEnd_sizing (scanText ⟨.norm, 0, 0, true, 0, false, s⟩ text)
  rw [← htext] at hend
  exact hend

theorem unescChar_body {body : List Item} (hbody : body.IsChain Item.Follows) (mem : ℕ → Char) :
    Ended mem (bodyOut body) (bodyCount body) (body.all (fun i => decide i.InRange))
      (unescChar (some ⟨mem, 0⟩) (bodyText body) false) := by
  have hstart : Settled mem [] 0 true ⟨.norm, 0, 0, true, 0, false, some ⟨mem, 0⟩⟩ :=
    ⟨rfl, rfl, rfl, rfl, ⟨mem, 0⟩, rfl, rfl, fun _ _ => rfl⟩
  have hend := hstart.body hbody
  rwa [List.nil_append, Nat.zero_add, Bool.true_and] at hend

/-! ## Right and wrong -/

/-- The item is decoded. -/
def Item.Kept (last : Bool) : Item → Prop
  | .oct1 _ | .oct2 _ _ => last = false
  | .hex1 _ => False
  | .hex2 a b => last = true ∧ a.IsDec ∧ b.IsDec
  | _ => True

/-- No octal escape of fewer than three digits ends the body, and a hexadecimal escape has two
decimal digits and ends it. -/
def Kept : List Item → Prop
  | [] => True
  | i :: rest => i.Kept rest.isEmpty ∧ Kept rest

instance (last : Bool) : DecidablePred (Item.Kept last)
  | .oct1 _ | .oct2 _ _ => inferInstanceAs (Decidable (last = false))
  | .hex1 _ => inferInstanceAs (Decidable False)
  | .hex2 a b => inferInstanceAs (Decidable (last = true ∧ a.IsDec ∧ b.IsDec))
  | .ordinary _ _ | .simple _ | .oct3 _ _ _ => inferInstanceAs (Decidable True)

instance decidableKept : DecidablePred Kept
  | [] => inferInstanceAs (Decidable True)
  | i :: rest =>
    have := decidableKept rest
    inferInstanceAs (Decidable (i.Kept rest.isEmpty ∧ Kept rest))

/-- What is written to `s` is what the body denotes and a 0, and both calls count its characters. -/
def Decoded (body : List Item) : Prop :=
  ∀ mem, let st := unescChar (some ⟨mem, 0⟩) (bodyText body) false
    st.s.map Buffer.mem = some (written mem (denoted body ++ ['\x00'])) ∧
      st.n = (denoted body).length ∧ (unescChar none (bodyText body) false).n = st.n

theorem lowChar_ofNat {v : ℕ} (hv : v < 256) : lowChar (BitVec.ofNat 32 v) = Char.ofNat v := by
  have hall : ∀ v : Fin 256, lowChar (BitVec.ofNat 32 v) = Char.ofNat v := by
    decide +kernel
  exact hall ⟨v, hv⟩

theorem hexChar_eq_iff (a b : HexDigit) :
    hexChar a b = Char.ofNat (16 * a.value + b.value) ↔ a.IsDec ∧ b.IsDec := by
  revert a b
  decide +kernel

namespace Item

variable (last : Bool) (i : Item)

theorem length_out_le_one : (i.out last).length ≤ 1 := by
  cases i <;> cases last <;> simp [out]

theorem length_out_le_counted : (i.out last).length ≤ i.counted last := by
  cases i <;> cases last <;> simp [out, counted]

theorem kept_iff (hin : i.InRange) :
    i.out last = [i.value] ∧ i.counted last = 1 ↔ i.Kept last := by
  cases i with
  | ordinary c hc => simp [out, value, counted, Kept]
  | simple e => simp [out, value, counted, Kept]
  | oct1 a =>
    have hchar := lowChar_ofNat (by omega : (a : ℕ) < 256)
    cases last <;> simp [out, value, counted, Kept, hchar]
  | oct2 a b =>
    have hchar := lowChar_ofNat (by omega : 8 * (a : ℕ) + b < 256)
    cases last <;> simp [out, value, counted, Kept, hchar]
  | oct3 a b c =>
    have hchar := lowChar_ofNat hin
    simp [out, value, counted, Kept, hchar]
  | hex1 a => simp [out, Kept]
  | hex2 a b =>
    have hchar := hexChar_eq_iff a b
    cases last <;> simp [out, value, counted, Kept, hchar]

end Item

theorem length_bodyOut_le (body : List Item) : (bodyOut body).length ≤ body.length := by
  induction body with
  | nil => exact Nat.le_refl 0
  | cons i rest ih =>
    have hitem := i.length_out_le_one rest.isEmpty
    simp only [bodyOut, List.length_append, List.length_cons]
    omega

theorem length_bodyOut_le_count (body : List Item) : (bodyOut body).length ≤ bodyCount body := by
  induction body with
  | nil => exact Nat.le_refl 0
  | cons i rest ih =>
    have hitem := i.length_out_le_counted rest.isEmpty
    simp only [bodyOut, bodyCount, List.length_append]
    omega

theorem kept_iff {body : List Item} (hin : ∀ i ∈ body, i.InRange) :
    bodyOut body = denoted body ∧ bodyCount body = body.length ↔ Kept body := by
  induction body with
  | nil => simp [bodyOut, bodyCount, denoted, Kept]
  | cons i rest ih =>
    have hrest := ih (fun j hj => hin j (List.mem_cons_of_mem i hj))
    have hitem := i.kept_iff rest.isEmpty (hin i List.mem_cons_self)
    have hdenoted : denoted (i :: rest) = [i.value] ++ denoted rest := rfl
    have hdenotedLength : (denoted rest).length = rest.length := List.length_map _
    unfold Kept
    rw [← hrest, ← hitem, bodyOut, bodyCount, hdenoted, List.length_cons]
    constructor
    · intro ⟨hout, hcount⟩
      have hlength := congrArg List.length hout
      rw [List.length_append, List.length_append, hdenotedLength, List.length_singleton] at hlength
      have hone := i.length_out_le_one rest.isEmpty
      have hle := length_bodyOut_le rest
      have hcounted := i.length_out_le_counted rest.isEmpty
      have hcountRest := length_bodyOut_le_count rest
      have hsame : (i.out rest.isEmpty).length = [i.value].length := by
        rw [List.length_singleton]
        omega
      have hparts := List.append_inj hout hsame
      exact ⟨⟨hparts.1, by omega⟩, hparts.2, by omega⟩
    · intro ⟨⟨hout, hcounted⟩, houtRest, hcountRest⟩
      rw [hout, hcounted, houtRest, hcountRest]
      exact ⟨rfl, Nat.add_comm 1 rest.length⟩

/-- What has been written is known from two contents of the memory before. -/
theorem written_injective {xs ys : List Char} (h : ∀ mem, written mem xs = written mem ys) :
    xs = ys := by
  apply List.ext_getElem?
  intro i
  have hvalue : ∀ c, xs[i]?.getD c = ys[i]?.getD c := fun c => congrFun (h fun _ => c) i
  have ha := hvalue 'a'
  have hb := hvalue 'b'
  have hne : 'a' ≠ 'b' := by decide
  cases hx : xs[i]? with
  | none =>
    cases hy : ys[i]? with
    | none => rfl
    | some y =>
      simp only [hx, hy, Option.getD_none, Option.getD_some] at ha hb
      exact absurd (ha.trans hb.symm) hne
  | some x =>
    cases hy : ys[i]? with
    | none =>
      simp only [hx, hy, Option.getD_none, Option.getD_some] at ha hb
      exact absurd (ha.symm.trans hb) hne
    | some y =>
      simp only [hx, hy, Option.getD_some] at ha
      rw [ha]

theorem unescChar_decoded_iff {body : List Item} (hbody : body.IsChain Item.Follows)
    {mem : ℕ → Char} (hret : (unescChar (some ⟨mem, 0⟩) (bodyText body) false).result = true) :
    Decoded body ↔ Kept body := by
  have hend := unescChar_body hbody
  have hin : ∀ i ∈ body, i.InRange := by
    have hall := (hend mem).result.symm.trans hret
    simpa using hall
  have hlength : (denoted body).length = body.length := List.length_map _
  have hsizing : ∀ mem, (unescChar none (bodyText body) false).n =
      (unescChar (some ⟨mem, 0⟩) (bodyText body) false).n := by
    intro mem
    rw [unescChar_sizing (some ⟨mem, 0⟩)]
    rfl
  rw [← kept_iff hin]
  constructor
  · intro hdecoded
    have hwritten : ∀ mem, written mem (bodyOut body ++ ['\x00']) =
        written mem (denoted body ++ ['\x00']) :=
      fun mem => Option.some.inj ((hend mem).mem.symm.trans (hdecoded mem).1)
    refine ⟨List.append_cancel_right (written_injective hwritten), ?_⟩
    rw [← hlength, ← (hend mem).n]
    exact (hdecoded mem).2.1
  · intro ⟨hout, hcount⟩ mem
    refine ⟨?_, ?_, hsizing mem⟩
    · rw [(hend mem).mem, hout]
    · rw [(hend mem).n, hcount, hlength]

theorem unescChar_decoded_word :
    Decoded [.ordinary 'a' (by decide), .simple .newLine, .oct1 0, .oct3 1 0 1,
      .hex2 (.dec 4) (.dec 2)] :=
  (@unescChar_decoded_iff _ (by decide) (fun _ => 'z') (by decide)).mpr (by decide)

/-- `"\xff"` is one character of value 255 and becomes one of value 0. -/
theorem not_decoded_ff :
    [Item.hex2 (.lower 5) (.lower 5)].IsChain Item.Follows ∧
      (unescChar (some ⟨fun _ => 'z', 0⟩) (bodyText [.hex2 (.lower 5) (.lower 5)]) false).result =
        true ∧
      ¬ Decoded [.hex2 (.lower 5) (.lower 5)] := by
  refine ⟨by decide, by decide, fun h => ?_⟩
  have hmem := (h fun _ => 'z').1
  have hbyte := congrArg (Option.map (fun mem : ℕ → Char => mem 0)) hmem
  revert hbyte
  decide

end OmniCompiler.CFront
