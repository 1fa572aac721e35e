import OmniCompiler.CBack.Tokens

/-!
# The writer of the C back end (`XmcWriter.java`)

The writer remembers the last character it has written and adds a space where that character does
not already separate. `Writes f ts` says that `f` adds the tokens `ts` to any text.
-/
namespace OmniCompiler.CBack

open MaximalMunch

/-- `_lastChar` is 0 before anything is written. -/
structure XmcWriter where
  out : List Char := []
  lastChar : Option Char := none

namespace XmcWriter

def print (s : List Char) (w : XmcWriter) : XmcWriter :=
  match s.getLast? with
  | none => w
  | some c => { out := w.out ++ s, lastChar := some c }

/-- `_print(int)` takes `'0'` for the last character. -/
def printInt (n : ℕ) (w : XmcWriter) : XmcWriter :=
  { out := w.out ++ Nat.toDigits 10 n, lastChar := some '0' }

/-- The last characters after which `spc` adds nothing. -/
def noSpaceAfter : List Char := [' ', '\n', '\t', '[', '(', '{']

def spc (w : XmcWriter) : XmcWriter :=
  match w.lastChar with
  | none => w
  | some c => if noSpaceAfter.contains c then w else w.print [' ']

def add (s : List Char) (w : XmcWriter) : XmcWriter := w.print s

def addSpc (s : List Char) (w : XmcWriter) : XmcWriter := w.spc.print s

def addSpcInt (n : ℕ) (w : XmcWriter) : XmcWriter := w.spc.printInt n

/-- `addBrace` of an object that is present. -/
def addBrace (appendCode : XmcWriter → XmcWriter) (w : XmcWriter) : XmcWriter :=
  (appendCode (w.print ['('])).print [')']

def lf (w : XmcWriter) : XmcWriter := { out := w.out ++ ['\n'], lastChar := some '\n' }

def noLfOrLf (w : XmcWriter) : XmcWriter := if w.lastChar = some '\n' then w else w.lf

def eos (w : XmcWriter) : XmcWriter := { out := w.out ++ [';', '\n'], lastChar := some '\n' }

/-! ## The tokens of what is written -/

def isOpen (w : XmcWriter) : Bool :=
  match w.lastChar with
  | none => true
  | some c => noSpaceAfter.contains c

/-- The text is the tokens `ts`, before any text that begins with a separator, or before any text
at all where the writer would add no space. -/
def Wrote (w : XmcWriter) (ts : List Token) : Prop :=
  scanner.Spells (fun c => isSeparator c = true ∨ w.isOpen = true) w.out ts

/-- Also `-` and `+` may follow. -/
def WroteOperand (w : XmcWriter) (ts : List Token) : Prop :=
  scanner.Spells (fun c => isSeparator c = true ∨ w.isOpen = true ∨ c = '-' ∨ c = '+') w.out ts

variable {w : XmcWriter} {ts : List Token}

theorem WroteOperand.wrote (h : w.WroteOperand ts) : w.Wrote ts :=
  h.mono fun _ hc => hc.elim .inl (fun hc => .inr (.inl hc))

theorem Wrote.lex_eq (h : w.Wrote ts) : lex w.out = some ts := Scanner.Spells.lex_eq h

theorem wrote_start : Wrote {} [] := Scanner.Spells.nil

theorem isOpen_spc (w : XmcWriter) : w.spc.isOpen = true := by
  unfold spc
  split
  · rename_i h
    rw [isOpen, h]
  · rename_i c h
    split
    · rename_i hc
      rw [isOpen, h]
      exact hc
    · rfl

theorem Wrote.blank (h : w.Wrote ts) {c : Char} (hc : c = ' ' ∨ c = '\n') (last : Option Char) :
    Wrote { out := w.out ++ [c], lastChar := last } ts := by
  have hblank : scanner.Spells (fun _ => True) [c] [] :=
    Scanner.Spells.blank (by obtain rfl | rfl := hc <;> rfl)
  have hsep : isSeparator c = true := by obtain rfl | rfl := hc <;> decide
  have := h.append hblank ⟨c, [], rfl, .inl hsep⟩
  rw [List.append_nil] at this
  exact this.mono fun _ _ => trivial

theorem Wrote.add_space (h : w.Wrote ts) : (w.add [' ']).Wrote ts := h.blank (.inl rfl) _

theorem Wrote.spc (h : w.Wrote ts) : w.spc.Wrote ts := by
  unfold XmcWriter.spc
  split
  · exact h
  · split
    · exact h
    · exact h.add_space

theorem print_code (t : Token) (w : XmcWriter) :
    ∃ c, t.code.getLast? = some c ∧ w.print t.code =
      { out := w.out ++ t.code, lastChar := some c } := by
  obtain ⟨c, cs, hcode, -⟩ := t.reads.begins
  cases hlast : t.code.getLast? with
  | none =>
    rw [List.getLast?_eq_none_iff, hcode] at hlast
    cases hlast
  | some d =>
    refine ⟨d, rfl, ?_⟩
    rw [print, hlast]

theorem not_noSpaceAfter {c : Char} (h : isWordChar c = true) :
    noSpaceAfter.contains c = false := by
  rw [Bool.eq_false_iff]
  intro hc
  simp only [noSpaceAfter, List.contains_eq_mem, decide_eq_true_eq, List.mem_cons,
    List.not_mem_nil, or_false] at hc
  obtain rfl | rfl | rfl | rfl | rfl | rfl := hc <;> exact absurd h (by decide)

theorem all_isWordChar_number (n : NumberText) : n.code.all isWordChar = true := by
  obtain ⟨s, hs⟩ := n
  cases s with
  | nil => cases hs
  | cons c cs =>
    obtain ⟨hc, hcs⟩ := isNumber_cons.1 hs
    show (c :: cs).all isWordChar = true
    rw [List.all_cons, isWordChar_of_isDigit hc, hcs, Bool.and_self]

theorem getLast?_word {s : List Char} (hs : s.all isWordChar = true) {c : Char}
    (hc : s.getLast? = some c) : noSpaceAfter.contains c = false :=
  not_noSpaceAfter (List.all_eq_true.1 hs c (List.mem_of_getLast? hc))

/-- Only brackets are tokens after which no space is added, and nothing continues them. -/
theorem goesOn_of_noSpaceAfter (t : Token) {c : Char} (hlast : t.code.getLast? = some c)
    (hc : noSpaceAfter.contains c = true) (d : Char) : CBack.goesOn t.code d = false := by
  cases t with
  | ident x =>
    rw [getLast?_word (all_isWordChar_of_isWord x.valid.1) hlast] at hc
    cases hc
  | keyword k =>
    rw [getLast?_word (all_isWordChar_of_isWord (isWord_keyword k)) hlast] at hc
    cases hc
  | number n =>
    rw [getLast?_word (all_isWordChar_number n) hlast] at hc
    cases hc
  | string wide s =>
    rw [Token.code, List.getLast?_append, List.getLast?_singleton] at hlast
    obtain rfl := Option.some.inj hlast
    cases hc
  | punct p =>
    have hp : p.isSeparator = true := by
      cases p <;> first
        | decide
        | (obtain rfl := Option.some.inj hlast
           cases hc)
    exact goesOn_isSeparator hp d

/-- A token may be added where its first character does not continue the last one. -/
theorem spells_print {next : Char → Prop} (h : scanner.Spells next w.out ts) (t : Token)
    (hfirst : ∀ c, t.code.head? = some c → next c) : (w.print t.code).Wrote (ts ++ [t]) := by
  obtain ⟨d, hlast, hprint⟩ := print_code t w
  obtain ⟨c, cs, hcode, -⟩ := t.reads.begins
  have hnext : next c := hfirst c (by rw [hcode]; rfl)
  have happ := h.append t.reads.spells ⟨c, cs, hcode, hnext⟩
  rw [hprint]
  refine happ.mono fun e he => ?_
  obtain he | he := he
  · exact goesOn_separator t he
  · exact goesOn_of_noSpaceAfter t hlast he e

theorem Wrote.print_open (h : w.Wrote ts) (hw : w.isOpen = true) (t : Token) :
    (w.print t.code).Wrote (ts ++ [t]) :=
  spells_print h t fun _ _ => .inr hw

theorem Wrote.addSpc (h : w.Wrote ts) (t : Token) : (w.addSpc t.code).Wrote (ts ++ [t]) :=
  h.spc.print_open (isOpen_spc w) t

theorem Wrote.add_separator (h : w.Wrote ts) {p : Punct} (hp : p.isSeparator = true) :
    (w.add p.code).Wrote (ts ++ [.punct p]) := by
  refine spells_print h (.punct p) fun c hc => .inl ?_
  exact List.all_eq_true.1 hp c (List.mem_of_head? hc)

theorem WroteOperand.add (h : w.WroteOperand ts) {p : Punct}
    (hp : p = .arrow ∨ p = .incr ∨ p = .decr) : (w.add p.code).Wrote (ts ++ [.punct p]) := by
  refine spells_print h (.punct p) fun c hc => .inr (.inr ?_)
  obtain rfl | rfl | rfl := hp <;> obtain rfl := Option.some.inj hc <;> simp

/-- The number `n` in decimal. -/
def decimal (n : ℕ) : NumberText where
  code := Nat.toDigits 10 n
  valid := by
    cases hd : Nat.toDigits 10 n with
    | nil => exact absurd hd Nat.toDigits_ne_nil
    | cons c cs =>
      have hdigit : ∀ d ∈ c :: cs, d.isDigit = true := fun d hmem =>
        Nat.isDigit_of_mem_toDigits (b := 10) (n := n) (by decide) (by decide) (by rwa [hd])
      rw [isNumber_cons]
      refine ⟨hdigit c List.mem_cons_self, List.all_eq_true.2 fun d hmem => ?_⟩
      exact isWordChar_of_isDigit (hdigit d (List.mem_cons_of_mem c hmem))

theorem Wrote.addSpcInt (h : w.Wrote ts) (n : ℕ) :
    (w.addSpcInt n).Wrote (ts ++ [.number (decimal n)]) := by
  have hprint := h.addSpc (.number (decimal n))
  obtain ⟨d, hlast, hout⟩ := print_code (.number (decimal n)) w.spc
  rw [Wrote, XmcWriter.addSpc, hout] at hprint
  refine hprint.mono fun e he => ?_
  obtain he | he := he
  · exact .inl he
  · cases he

/-! ## Lines -/

theorem print_append (s s' : List Char) (w : XmcWriter) :
    w.print (s ++ s') = (w.print s).print s' := by
  cases hs' : s'.getLast? with
  | none =>
    obtain rfl := List.getLast?_eq_none_iff.1 hs'
    rw [List.append_nil, print.eq_def (w := w.print s), List.getLast?_nil]
  | some c =>
    cases hs : s.getLast? with
    | none =>
      obtain rfl := List.getLast?_eq_none_iff.1 hs
      rfl
    | some d => simp [print, hs, hs', List.getLast?_append]

theorem isOpen_noLfOrLf (w : XmcWriter) : w.noLfOrLf.isOpen = true := by
  unfold noLfOrLf
  split
  · rename_i h
    rw [isOpen, h]
    rfl
  · rfl

theorem Wrote.lf (h : w.Wrote ts) : w.lf.Wrote ts := h.blank (.inr rfl) _

theorem Wrote.noLfOrLf (h : w.Wrote ts) : w.noLfOrLf.Wrote ts := by
  unfold XmcWriter.noLfOrLf
  split
  · exact h
  · exact h.lf

theorem eos_eq (w : XmcWriter) : w.eos = (w.add (Punct.code .semi)).lf := by
  show XmcWriter.mk (w.out ++ [';', '\n']) _ = XmcWriter.mk (w.out ++ [';'] ++ ['\n']) _
  rw [List.append_assoc]
  rfl

theorem Wrote.eos (h : w.Wrote ts) : w.eos.Wrote (ts ++ [.punct .semi]) := by
  rw [eos_eq]
  exact (h.add_separator rfl).lf

/-! ## What a function of the writer adds -/

def Writes (f : XmcWriter → XmcWriter) (us : List Token) : Prop :=
  ∀ w ts, w.Wrote ts → (f w).Wrote (ts ++ us)

variable {f g : XmcWriter → XmcWriter} {us vs : List Token}

theorem Writes.comp (hf : Writes f us) (hg : Writes g vs) :
    Writes (fun w => g (f w)) (us ++ vs) := by
  intro w ts h
  rw [← List.append_assoc]
  exact hg _ _ (hf w ts h)

def WritesOpen (f : XmcWriter → XmcWriter) (us : List Token) : Prop :=
  ∀ w ts, w.Wrote ts → w.isOpen = true → (f w).Wrote (ts ++ us)

theorem writesOpen_token (t : Token) : WritesOpen (add t.code) [t] :=
  fun _ _ h hw => h.print_open hw t

theorem WritesOpen.addBrace (hf : WritesOpen f us) :
    Writes (addBrace f) (.punct .lparen :: us ++ [.punct .rparen]) := by
  intro w ts h
  have hopen := hf _ _ (h.add_separator (p := .lparen) rfl) rfl
  have hclose := hopen.add_separator (p := .rparen) rfl
  rw [List.append_assoc, List.append_assoc] at hclose
  exact hclose

end XmcWriter

end OmniCompiler.CBack
