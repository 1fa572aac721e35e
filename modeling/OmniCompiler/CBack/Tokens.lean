import OmniCompiler.Text.MaximalMunch

/-!
# C tokens

The words, numbers, strings and operators that occur in declarators, expressions and statements, and
the scanner that reads them. A string runs to the next quote, as in `c-lexer.l`; escapes, floating
constants and comments are not read here, and a text that holds one has no tokens.
-/
namespace OmniCompiler.CBack

open MaximalMunch

/-! ## Words -/

inductive Keyword
  | void
  | char
  | short
  | int
  | long
  | unsigned
  | signed
  | float
  | double
  | bool
  | complex
  | imaginary
  | wchar
  | vaList
  | const
  | volatile
  | restrict
  | static
  | inline
  | struct
  | union
  | enum
  | sizeof
  | gccExtension
  | ifWord
  | elseWord
  | whileWord
  | doWord
  | forWord
  | switchWord
  | caseWord
  | defaultWord
  | gotoWord
  | breakWord
  | continueWord
  | returnWord
  deriving DecidableEq

namespace Keyword

def code : Keyword → List Char
  | void => "void".toList
  | char => "char".toList
  | short => "short".toList
  | int => "int".toList
  | long => "long".toList
  | unsigned => "unsigned".toList
  | signed => "signed".toList
  | float => "float".toList
  | double => "double".toList
  | bool => "_Bool".toList
  | complex => "_Complex".toList
  | imaginary => "_Imaginary".toList
  | wchar => "wchar_t".toList
  | vaList => "__builtin_va_list".toList
  | const => "const".toList
  | volatile => "volatile".toList
  | restrict => "restrict".toList
  | static => "static".toList
  | inline => "inline".toList
  | struct => "struct".toList
  | union => "union".toList
  | enum => "enum".toList
  | sizeof => "sizeof".toList
  | gccExtension => "__extension__".toList
  | ifWord => "if".toList
  | elseWord => "else".toList
  | whileWord => "while".toList
  | doWord => "do".toList
  | forWord => "for".toList
  | switchWord => "switch".toList
  | caseWord => "case".toList
  | defaultWord => "default".toList
  | gotoWord => "goto".toList
  | breakWord => "break".toList
  | continueWord => "continue".toList
  | returnWord => "return".toList

def all : List Keyword :=
  [void, char, short, int, long, unsigned, signed, float, double, bool, complex, imaginary, wchar,
    vaList, const, volatile, restrict, static, inline, struct, union, enum, sizeof, gccExtension,
    ifWord, elseWord, whileWord, doWord, forWord, switchWord, caseWord, defaultWord, gotoWord,
    breakWord, continueWord, returnWord]

def ofCode? (s : List Char) : Option Keyword := all.find? fun k => k.code == s

theorem ofCode?_code (k : Keyword) : ofCode? k.code = some k := by
  cases k <;> decide

end Keyword

def isWordStart (c : Char) : Bool := c.isAlpha || c == '_'

def isWordChar (c : Char) : Bool := c.isAlphanum || c == '_'

def isWord : List Char → Bool
  | [] => false
  | c :: cs => isWordStart c && cs.all isWordChar

/-- A C identifier. -/
structure Ident where
  code : List Char
  valid : isWord code = true ∧ Keyword.ofCode? code = none
  deriving DecidableEq

def isNumber : List Char → Bool
  | [] => false
  | c :: cs => c.isDigit && cs.all isWordChar

structure NumberText where
  code : List Char
  valid : isNumber code = true
  deriving DecidableEq

def isStringChar (c : Char) : Bool := c != '"' && c != '\\'

structure StringText where
  code : List Char
  valid : code.all isStringChar = true
  deriving DecidableEq

/-! ## Operators and punctuation -/

inductive Punct
  | lparen
  | rparen
  | lbrack
  | rbrack
  | comma
  | dot
  | ellipsis
  | arrow
  | incr
  | decr
  | amp
  | star
  | plus
  | minus
  | tilde
  | bang
  | slash
  | percent
  | shl
  | shr
  | lt
  | gt
  | le
  | ge
  | eqeq
  | neq
  | caret
  | bar
  | andand
  | oror
  | question
  | colon
  | assign
  | starAssign
  | slashAssign
  | percentAssign
  | plusAssign
  | minusAssign
  | shlAssign
  | shrAssign
  | ampAssign
  | caretAssign
  | barAssign
  | semi
  | lbrace
  | rbrace
  deriving DecidableEq

namespace Punct

def code : Punct → List Char
  | lparen => ['(']
  | rparen => [')']
  | lbrack => ['[']
  | rbrack => [']']
  | comma => [',']
  | dot => ['.']
  | ellipsis => ['.', '.', '.']
  | arrow => ['-', '>']
  | incr => ['+', '+']
  | decr => ['-', '-']
  | amp => ['&']
  | star => ['*']
  | plus => ['+']
  | minus => ['-']
  | tilde => ['~']
  | bang => ['!']
  | slash => ['/']
  | percent => ['%']
  | shl => ['<', '<']
  | shr => ['>', '>']
  | lt => ['<']
  | gt => ['>']
  | le => ['<', '=']
  | ge => ['>', '=']
  | eqeq => ['=', '=']
  | neq => ['!', '=']
  | caret => ['^']
  | bar => ['|']
  | andand => ['&', '&']
  | oror => ['|', '|']
  | question => ['?']
  | colon => [':']
  | assign => ['=']
  | starAssign => ['*', '=']
  | slashAssign => ['/', '=']
  | percentAssign => ['%', '=']
  | plusAssign => ['+', '=']
  | minusAssign => ['-', '=']
  | shlAssign => ['<', '<', '=']
  | shrAssign => ['>', '>', '=']
  | ampAssign => ['&', '=']
  | caretAssign => ['^', '=']
  | barAssign => ['|', '=']
  | semi => [';']
  | lbrace => ['{']
  | rbrace => ['}']

def all : List Punct :=
  [lparen, rparen, lbrack, rbrack, comma, dot, ellipsis, arrow, incr, decr, amp, star, plus, minus,
    tilde, bang, slash, percent, shl, shr, lt, gt, le, ge, eqeq, neq, caret, bar, andand, oror,
    question, colon, assign, starAssign, slashAssign, percentAssign, plusAssign, minusAssign,
    shlAssign, shrAssign, ampAssign, caretAssign, barAssign, semi, lbrace, rbrace]

def ofCode? (s : List Char) : Option Punct := all.find? fun p => p.code == s

/-- The beginnings of comments are read like operators, so that `/*` and `//` are no two tokens. -/
def openings : List (List Char) := [['/', '*'], ['/', '/'], ['.', '.']] ++ all.map code

end Punct

/-! ## Tokens and the scanner -/

inductive Token
  | ident (x : Ident)
  | keyword (k : Keyword)
  | number (n : NumberText)
  | string (wide : Bool) (s : StringText)
  | punct (p : Punct)
  deriving DecidableEq

namespace Token

def code : Token → List Char
  | ident x => x.code
  | keyword k => k.code
  | number n => n.code
  | string wide s => (if wide then ['L'] else []) ++ '"' :: s.code ++ ['"']
  | punct p => p.code

end Token

def isBlank (c : Char) : Bool := c == ' ' || c == '\n' || c == '\t'

/-- `"` or `L"` has been read: what follows it. -/
def stringBody? : List Char → Option (List Char)
  | '"' :: cs => some cs
  | 'L' :: '"' :: cs => some cs
  | _ => none

def goesOn (acc : List Char) (c : Char) : Bool :=
  match stringBody? acc with
  | some body => !body.contains '"'
  | none =>
    match acc with
    | [] => false
    | first :: _ =>
      if isWordStart first then
        isWordChar c || (acc == ['L'] && c == '"')
      else if first.isDigit then
        isWordChar c || c == '.'
          || ((c == '+' || c == '-') && (acc.getLast?.any fun d => d ∈ ['e', 'E', 'p', 'P']))
      else
        Punct.openings.contains (acc ++ [c])

def wordToken? (s : List Char) : Option Token :=
  match h : Keyword.ofCode? s with
  | some k => some (.keyword k)
  | none => if hs : isWord s = true then some (.ident ⟨s, hs, h⟩) else none

def stringToken? (wide : Bool) (body : List Char) : Option Token :=
  if h : body.getLast? = some '"' ∧ body.dropLast.all isStringChar = true then
    some (.string wide ⟨body.dropLast, h.2⟩)
  else
    none

def token? (s : List Char) : Option Token :=
  match stringBody? s with
  | some body => stringToken? (s.head? == some 'L') body
  | none =>
    match s with
    | [] => none
    | first :: _ =>
      if isWordStart first then
        wordToken? s
      else if first.isDigit then
        if h : isNumber s = true then some (.number ⟨s, h⟩) else none
      else
        (Punct.ofCode? s).map .punct

def scanner : Scanner Char Token where
  blank := isBlank
  goesOn := goesOn
  token? := token?

abbrev lex (text : List Char) : Option (List Token) := scanner.lex text

/-! ## Every token is read back from its text -/

theorem isWordChar_of_isWordStart {c : Char} (h : isWordStart c = true) : isWordChar c = true := by
  simp only [isWordStart, isWordChar, Char.isAlphanum, Bool.or_eq_true] at h ⊢
  tauto

theorem isWord_cons {c : Char} {cs : List Char} :
    isWord (c :: cs) = true ↔ isWordStart c = true ∧ cs.all isWordChar = true := by
  simp [isWord]

theorem isWord_left {p q : List Char} (hp : p ≠ []) (h : isWord (p ++ q) = true) :
    isWord p = true := by
  obtain ⟨c, cs, rfl⟩ := List.exists_cons_of_ne_nil hp
  rw [List.cons_append, isWord_cons, List.all_append, Bool.and_eq_true] at h
  exact isWord_cons.2 ⟨h.1, h.2.1⟩

theorem not_isBlank_of_isWordChar {c : Char} (h : isWordChar c = true) : isBlank c = false := by
  rw [Bool.eq_false_iff]
  intro hb
  simp only [isBlank, Bool.or_eq_true, beq_iff_eq] at hb
  obtain (rfl | rfl) | rfl := hb <;> exact absurd h (by decide)

theorem not_isDigit_of_isWordStart {c : Char} (h : isWordStart c = true) : c.isDigit = false := by
  simp only [isWordStart, Bool.or_eq_true, beq_iff_eq] at h
  obtain h | rfl := h
  · change (decide ('A'.val ≤ c.val ∧ c.val ≤ 'Z'.val) ||
      (decide ('a'.val ≤ c.val) && decide (c.val ≤ 'z'.val))) = true at h
    change (decide ('0'.val ≤ c.val) && decide (c.val ≤ '9'.val)) = false
    simp only [Bool.or_eq_true, Bool.and_eq_true, decide_eq_true_eq, Bool.and_eq_false_iff,
      decide_eq_false_iff_not, UInt32.le_iff_toNat_le] at h ⊢
    right
    rcases h with ⟨h, -⟩ | ⟨h, -⟩ <;> simp at h ⊢ <;> omega
  · decide

theorem not_isWordStart_of_isDigit {c : Char} (h : c.isDigit = true) : isWordStart c = false := by
  rw [Bool.eq_false_iff]
  intro hw
  rw [not_isDigit_of_isWordStart hw] at h
  cases h

theorem isWordChar_of_isDigit {c : Char} (h : c.isDigit = true) : isWordChar c = true := by
  simp [isWordChar, Char.isAlphanum, h]

theorem stringBody?_eq_none {s : List Char} (h : s.all isWordChar = true) :
    stringBody? s = none := by
  unfold stringBody?
  split
  · exact absurd h (by simp [show isWordChar '"' = false by decide])
  · exact absurd h (by simp [show isWordChar '"' = false by decide])
  · rfl

theorem all_isWordChar_of_isWord {s : List Char} (h : isWord s = true) :
    s.all isWordChar = true := by
  cases s with
  | nil => cases h
  | cons c cs =>
    rw [isWord_cons] at h
    rw [List.all_cons, isWordChar_of_isWordStart h.1, h.2, Bool.and_self]

theorem goesOn_word {p : List Char} (hp : isWord p = true) (c : Char) :
    goesOn p c = (isWordChar c || (p == ['L'] && c == '"')) := by
  cases p with
  | nil => cases hp
  | cons first cs =>
    rw [goesOn, stringBody?_eq_none (all_isWordChar_of_isWord hp)]
    simp only [(isWord_cons.1 hp).1, if_true]

theorem reads_word {s : List Char} {t : Token} (hs : isWord s = true)
    (ht : wordToken? s = some t) : scanner.Reads s t where
  begins := by
    cases s with
    | nil => cases hs
    | cons c cs =>
      rw [isWord_cons] at hs
      exact ⟨c, cs, rfl, not_isBlank_of_isWordChar (isWordChar_of_isWordStart hs.1)⟩
  goesOn := by
    rintro p c q rfl hp
    have hc : isWordChar c = true := by
      have := all_isWordChar_of_isWord hs
      simp only [List.all_append, List.all_cons, Bool.and_eq_true] at this
      exact this.2.1
    show goesOn p c = true
    rw [goesOn_word (isWord_left hp hs), hc, Bool.true_or]
  token := by
    show token? s = some t
    cases s with
    | nil => cases hs
    | cons c cs =>
      rw [token?, stringBody?_eq_none (all_isWordChar_of_isWord hs)]
      simp only [(isWord_cons.1 hs).1, if_true]
      exact ht

theorem isWord_keyword (k : Keyword) : isWord k.code = true := by cases k <;> decide

theorem wordToken?_keyword (k : Keyword) : wordToken? k.code = some (.keyword k) := by
  unfold wordToken?
  split
  · rename_i k' hk
    rw [Keyword.ofCode?_code] at hk
    rw [Option.some.inj hk]
  · rename_i hk
    rw [Keyword.ofCode?_code] at hk
    cases hk

theorem wordToken?_ident (x : Ident) : wordToken? x.code = some (.ident x) := by
  unfold wordToken?
  split
  · rename_i k hk
    rw [x.valid.2] at hk
    cases hk
  · rw [dif_pos x.valid.1]

theorem isNumber_cons {c : Char} {cs : List Char} :
    isNumber (c :: cs) = true ↔ c.isDigit = true ∧ cs.all isWordChar = true := by
  simp [isNumber]

theorem goesOn_number {first : Char} {cs : List Char} (hd : first.isDigit = true)
    (hcs : cs.all isWordChar = true) (c : Char) :
    goesOn (first :: cs) c = (isWordChar c || c == '.' || ((c == '+' || c == '-') &&
      ((first :: cs).getLast?.any fun d => d ∈ ['e', 'E', 'p', 'P']))) := by
  have hall : (first :: cs).all isWordChar = true := by
    rw [List.all_cons, isWordChar_of_isDigit hd, hcs, Bool.and_self]
  rw [goesOn, stringBody?_eq_none hall]
  simp only [not_isWordStart_of_isDigit hd, hd, if_true, if_false, Bool.false_eq_true]

theorem reads_number (n : NumberText) : scanner.Reads n.code (.number n) := by
  obtain ⟨s, hs⟩ := n
  cases s with
  | nil => cases hs
  | cons first cs =>
    obtain ⟨hd, hcs⟩ := isNumber_cons.1 hs
    refine ⟨⟨first, cs, rfl, not_isBlank_of_isWordChar (isWordChar_of_isDigit hd)⟩, ?_, ?_⟩
    · intro p c q hpq hp
      obtain ⟨d, ds, rfl⟩ := List.exists_cons_of_ne_nil hp
      have hsplit : first :: cs = d :: (ds ++ c :: q) := hpq
      obtain ⟨rfl, rfl⟩ := List.cons.inj hsplit
      simp only [List.all_append, List.all_cons, Bool.and_eq_true] at hcs
      show goesOn (first :: ds) c = true
      rw [goesOn_number hd hcs.1, hcs.2.1, Bool.true_or, Bool.true_or]
    · show token? (first :: cs) = _
      have hall : (first :: cs).all isWordChar = true := by
        rw [List.all_cons, isWordChar_of_isDigit hd, hcs, Bool.and_self]
      rw [token?, stringBody?_eq_none hall]
      simp only [not_isWordStart_of_isDigit hd, hd, hs, if_true, if_false, Bool.false_eq_true,
        dite_true]

theorem goesOn_string {opening body : List Char} (hopen : opening = ['"'] ∨ opening = ['L', '"'])
    (c : Char) : goesOn (opening ++ body) c = !body.contains '"' := by
  obtain rfl | rfl := hopen <;> rfl

theorem reads_string (wide : Bool) (s : StringText) :
    scanner.Reads (Token.string wide s).code (.string wide s) := by
  obtain ⟨s, hs⟩ := s
  have hbody : ∀ p c q, s ++ ['"'] = p ++ c :: q → p.contains '"' = false := by
    intro p c q hpq
    have hle : p.length ≤ s.length := by
      have := congrArg List.length hpq
      simp at this
      omega
    have hp : p = s.take p.length := by
      have := congrArg (List.take p.length) hpq
      rw [List.take_left, List.take_append_of_le_length hle] at this
      exact this.symm
    rw [Bool.eq_false_iff]
    intro hq
    have hmem : '"' ∈ p := by simpa using hq
    rw [hp] at hmem
    have := List.all_eq_true.1 hs '"' (List.mem_of_mem_take hmem)
    exact absurd this (by decide)
  have htoken : stringToken? wide (s ++ ['"']) = some (.string wide ⟨s, hs⟩) := by
    have hsplit : (s ++ ['"']).getLast? = some '"' ∧
      (s ++ ['"']).dropLast.all isStringChar = true := by
      simp [hs]
    rw [stringToken?, dif_pos hsplit]
    simp
  cases wide with
  | false =>
    refine ⟨⟨'"', s ++ ['"'], rfl, by decide⟩, ?_, ?_⟩
    · intro p c q hpq hp
      obtain ⟨d, ds, rfl⟩ := List.exists_cons_of_ne_nil hp
      simp only [Token.code, Bool.false_eq_true, if_false, List.nil_append, List.cons_append,
        List.cons.injEq] at hpq
      obtain ⟨rfl, hpq⟩ := hpq
      show goesOn (['"'] ++ ds) c = true
      rw [goesOn_string (.inl rfl), hbody ds c q hpq]
      rfl
    · exact htoken
  | true =>
    refine ⟨⟨'L', '"' :: (s ++ ['"']), rfl, by decide⟩, ?_, ?_⟩
    · intro p c q hpq hp
      obtain ⟨d, ds, rfl⟩ := List.exists_cons_of_ne_nil hp
      simp only [Token.code, if_true, List.cons_append, List.nil_append, List.cons.injEq] at hpq
      obtain ⟨rfl, hpq⟩ := hpq
      cases ds with
      | nil =>
        obtain ⟨rfl, -⟩ := List.cons.inj hpq
        rfl
      | cons e es =>
        obtain ⟨rfl, hpq⟩ := List.cons.inj hpq
        show goesOn (['L', '"'] ++ es) c = true
        rw [goesOn_string (.inr rfl), hbody es c q (List.cons.inj hpq).2]
        rfl
    · exact htoken

namespace Punct

/-- The first character of an operator begins neither a word nor a number nor a string. -/
theorem begins (p : Punct) : ∃ c cs, p.code = c :: cs ∧ isBlank c = false ∧
    isWordStart c = false ∧ c.isDigit = false ∧ c ≠ '"' ∧ c ≠ 'L' := by
  cases p <;> exact ⟨_, _, rfl, by decide, by decide, by decide, by decide, by decide⟩

theorem ofCode?_code (p : Punct) : ofCode? p.code = some p := by
  cases p <;> decide

theorem inits_mem_openings (p : Punct) :
    p.code.inits.all (fun s => s.length < 2 || openings.contains s) = true := by
  cases p <;> decide

end Punct

theorem stringBody?_eq_none_of_head {c : Char} {cs : List Char} (hq : c ≠ '"') (hL : c ≠ 'L') :
    stringBody? (c :: cs) = none := by
  unfold stringBody?
  split
  · rename_i h
    exact absurd (List.cons.inj h).1 hq
  · rename_i h
    exact absurd (List.cons.inj h).1 hL
  · rfl

theorem reads_punct (p : Punct) : scanner.Reads p.code (.punct p) := by
  obtain ⟨c, cs, hcode, hblank, hstart, hdigit, hq, hL⟩ := p.begins
  refine ⟨⟨c, cs, hcode, hblank⟩, ?_, ?_⟩
  · intro s d q hsd hs
    obtain ⟨e, es, rfl⟩ := List.exists_cons_of_ne_nil hs
    obtain rfl : c = e := by
      rw [hcode] at hsd
      exact (List.cons.inj hsd).1
    have hmem : c :: es ++ [d] ∈ p.code.inits := by
      rw [List.mem_inits, hsd]
      exact ⟨q, by simp⟩
    have hopen := List.all_eq_true.1 p.inits_mem_openings _ hmem
    have hlen : ¬(c :: es ++ [d]).length < 2 := by simp
    simp only [hlen, decide_false, Bool.false_or] at hopen
    show goesOn (c :: es) d = true
    rw [goesOn, stringBody?_eq_none_of_head hq hL]
    simp only [hstart, hdigit, Bool.false_eq_true, if_false]
    exact hopen
  · show token? p.code = _
    have hfound := p.ofCode?_code
    rw [hcode] at hfound ⊢
    rw [token?, stringBody?_eq_none_of_head hq hL]
    simp only [hstart, hdigit, Bool.false_eq_true, if_false, hfound, Option.map_some]

theorem Token.reads (t : Token) : scanner.Reads t.code t := by
  cases t with
  | ident x => exact reads_word x.valid.1 (wordToken?_ident x)
  | keyword k => exact reads_word (isWord_keyword k) (wordToken?_keyword k)
  | number n => exact reads_number n
  | string wide s => exact reads_string wide s
  | punct p => exact reads_punct p

/-! ## Characters that end a token -/

def separators : List Char := [' ', '\n', '(', ')', '[', ']', '{', '}', ',', ';', ':']

def isSeparator (c : Char) : Bool := separators.contains c

theorem of_isSeparator {p : Char → Bool} (hp : separators.all p = true) {c : Char}
    (hc : isSeparator c = true) : p c = true :=
  List.all_eq_true.1 hp c (by simpa [isSeparator] using hc)

theorem goesOn_punct (p : Punct) (c : Char) :
    goesOn p.code c = Punct.openings.contains (p.code ++ [c]) := by
  obtain ⟨d, cs, hcode, -, hstart, hdigit, hq, hL⟩ := p.begins
  rw [hcode, goesOn, stringBody?_eq_none_of_head hq hL]
  simp only [hstart, hdigit, Bool.false_eq_true, if_false]

/-- An opening of two characters or more has no separator after its first character. -/
theorem openings_separator :
    Punct.openings.all (fun s => (s.drop 1).all (!isSeparator ·)) = true := by
  decide

theorem goesOn_separator (t : Token) {c : Char} (hc : isSeparator c = true) :
    goesOn t.code c = false := by
  have hword : isWordChar c = false := by
    simpa using @of_isSeparator (fun d => !isWordChar d) (by decide) _ hc
  have hquote : (c == '"') = false := by
    simpa using @of_isSeparator (fun d => !(d == '"')) (by decide) _ hc
  cases t with
  | ident x => rw [Token.code, goesOn_word x.valid.1, hword, hquote, Bool.and_false, Bool.or_self]
  | keyword k =>
    rw [Token.code, goesOn_word (isWord_keyword k), hword, hquote, Bool.and_false, Bool.or_self]
  | number n =>
    obtain ⟨s, hs⟩ := n
    cases s with
    | nil => cases hs
    | cons first cs =>
      obtain ⟨hd, hcs⟩ := isNumber_cons.1 hs
      have hdot : (c == '.') = false := by
        simpa using @of_isSeparator (fun d => !(d == '.')) (by decide) _ hc
      have hsign : (c == '+' || c == '-') = false := by
        simpa using @of_isSeparator (fun d => !(d == '+' || d == '-')) (by decide) _ hc
      rw [Token.code, goesOn_number hd hcs, hword, hdot, hsign, Bool.false_and, Bool.or_self,
        Bool.or_self]
  | string wide s =>
    cases wide with
    | false =>
      show goesOn (['"'] ++ (s.code ++ ['"'])) c = false
      rw [goesOn_string (.inl rfl)]
      simp
    | true =>
      show goesOn (['L', '"'] ++ (s.code ++ ['"'])) c = false
      rw [goesOn_string (.inr rfl)]
      simp
  | punct p =>
    rw [Token.code, goesOn_punct, Bool.eq_false_iff]
    intro hopen
    have hall := List.all_eq_true.1 openings_separator (p.code ++ [c]) (by simpa using hopen)
    obtain ⟨d, cs, hcode, -⟩ := p.begins
    rw [hcode] at hall
    simp [hc] at hall

def Punct.isSeparator (p : Punct) : Bool := p.code.all CBack.isSeparator

theorem openings_begin :
    Punct.openings.all (fun s => s.length < 2 || !s.head?.any isSeparator) = true := by
  decide

theorem goesOn_isSeparator {p : Punct} (hp : p.isSeparator = true) (c : Char) :
    goesOn p.code c = false := by
  rw [goesOn_punct, Bool.eq_false_iff]
  intro hopen
  have hall := List.all_eq_true.1 openings_begin (p.code ++ [c]) (by simpa using hopen)
  obtain ⟨d, cs, hcode, -⟩ := p.begins
  have hd : CBack.isSeparator d = true := by
    rw [Punct.isSeparator, hcode, List.all_cons, Bool.and_eq_true] at hp
    exact hp.1
  rw [hcode] at hall
  simp [hd] at hall

end OmniCompiler.CBack
